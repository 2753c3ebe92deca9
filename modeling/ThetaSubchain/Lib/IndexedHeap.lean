/-
Priority queues whose elements know their position.

A queue is the array of its elements, with the top at position 0.  Where the other elements
are after an operation is up to the queue: the laws only say which elements there are.
-/
import Mathlib.Data.List.Perm.Basic

structure IndexedHeap where
  push : {α : Type} → (α → Int) → α → List α → List α
  pop : {α : Type} → (α → Int) → List α → List α
  remove : {α : Type} → (α → Int) → Nat → List α → List α

namespace IndexedHeap

structure Lawful (H : IndexedHeap) : Prop where
  push_perm : ∀ {α : Type} (priority : α → Int) (x : α) (q : List α),
    (H.push priority x q).Perm (x :: q)
  pop_perm : ∀ {α : Type} (priority : α → Int) (x : α) (q : List α),
    (H.pop priority (x :: q)).Perm q
  remove_perm : ∀ {α : Type} (priority : α → Int) (i : Nat) (q : List α),
    (H.remove priority i q).Perm (q.eraseIdx i)

variable {α : Type} [DecidableEq α] {H : IndexedHeap} {priority : α → Int}

def removeEach (H : IndexedHeap) (priority : α → Int) (es q : List α) : List α :=
  es.foldl (fun q e => H.remove priority (q.idxOf e) q) q

theorem Lawful.remove_idxOf (hH : H.Lawful) {e : α} {q r : List α} (hq : q.Perm (e :: r)) :
    (H.remove priority (q.idxOf e) q).Perm r := by
  have herase : q.eraseIdx (q.idxOf e) = q.erase e := (List.erase_eq_eraseIdx_of_idxOf rfl).symm
  have hrest : (q.erase e).Perm r := by
    have h := hq.erase e
    rwa [List.erase_cons_head] at h
  rw [← herase] at hrest
  exact (hH.remove_perm priority _ q).trans hrest

theorem Lawful.removeEach_perm (hH : H.Lawful) {es q r : List α} (hq : q.Perm (es ++ r)) :
    (H.removeEach priority es q).Perm r := by
  induction es generalizing q with
  | nil => exact hq
  | cons e es ih => exact ih (hH.remove_idxOf hq)

def fifo : IndexedHeap where
  push := fun _ x q => q ++ [x]
  pop := fun _ q => q.tail
  remove := fun _ i q => q.eraseIdx i

theorem lawful_fifo : fifo.Lawful where
  push_perm := fun _ x q => List.perm_append_singleton x q
  pop_perm := fun _ _ _ => .refl _
  remove_perm := fun _ _ _ => .refl _

end IndexedHeap
