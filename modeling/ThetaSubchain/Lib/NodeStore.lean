/-
Tries whose nodes are kept under the hash of their encoding.

Reading a path follows the references from a root; a missing node ends the read without a value.
-/
import Mathlib.Data.Set.Basic

namespace NodeStore

inductive Step (H S V : Type) where
  | absent
  | found (value : V)
  | goto (child : H) (rest : List S)

structure Format (H N S V : Type) where
  hash : N → H
  refs : N → List H
  follow : N → List S → Step H S V
  follow_refs : ∀ {n p c r}, follow n p = .goto c r → c ∈ refs n
  follow_shorter : ∀ {n p c r}, follow n p = .goto c r → r.length < p.length

abbrev Store (H N : Type) := H → Option N

namespace Format

variable {H N S V : Type} (F : Format H N S V)

def readFrom (s : Store H N) : Nat → H → List S → Option V
  | 0, _, _ => none
  | n + 1, x, p =>
    match s x with
    | none => none
    | some e =>
      match F.follow e p with
      | .absent => none
      | .found v => some v
      | .goto c r => readFrom s n c r

def read (s : Store H N) (root : H) (p : List S) : Option V := F.readFrom s (p.length + 1) root p

variable {F}

variable {x : H}

/-- The path gets shorter at each node, so the bound is never reached. -/
theorem readFrom_eq_read (s : Store H N) {n : Nat} {p : List S} (h : p.length < n) :
    F.readFrom s n x p = F.read s x p := by
  suffices hall : ∀ m n x p, p.length < m → p.length < n →
      F.readFrom s m x p = F.readFrom s n x p from hall _ _ _ _ h (Nat.lt_succ_self _)
  intro m
  induction m with
  | zero => omega
  | succ m ih =>
    intro n x p hm hn
    cases n with
    | zero => omega
    | succ n =>
      unfold readFrom
      cases s x with
      | none => rfl
      | some e =>
        cases hstep : F.follow e p with
        | absent => simp only [hstep]
        | found v => simp only [hstep]
        | goto c r =>
          have hlt := F.follow_shorter hstep
          simp only [hstep]
          exact ih n c r (by omega) (by omega)

theorem read_of_goto {s : Store H N} {x c : H} {e : N} {p r : List S} (hx : s x = some e)
    (h : F.follow e p = .goto c r) : F.read s x p = F.read s c r := by
  rw [read, readFrom, hx]
  simp only [h]
  exact readFrom_eq_read s (F.follow_shorter h)

variable (F) in
inductive Reach (s : Store H N) (root : H) : H → Prop
  | root : Reach s root root
  | ref {x c : H} {e : N} (hx : Reach s root x) (he : s x = some e) (hc : c ∈ F.refs e) :
      Reach s root c

theorem Reach.trans {s : Store H N} {x y z : H} (hxy : F.Reach s x y) (hyz : F.Reach s y z) :
    F.Reach s x z := by
  induction hyz with
  | root => exact hxy
  | ref _ he hc ih => exact ih.ref he hc

theorem Reach.eq_root {s : Store H N} {root x : H} (h : F.Reach s root x) (hs : s root = none) :
    x = root := by
  induction h with
  | root => rfl
  | ref _ he _ ih =>
    rw [ih, hs] at he
    cases he

variable {s t : Store H N} {root : H}

theorem read_congr (h : ∀ x, F.Reach s root x → s x = t x) (p : List S) :
    F.read s root p = F.read t root p := by
  induction hn : p.length using Nat.strong_induction_on generalizing p root with
  | _ n ih =>
    have hroot := h root .root
    cases he : s root with
    | none => rw [read, read, readFrom, readFrom, ← hroot, he]
    | some e =>
      cases hstep : F.follow e p with
      | absent => simp only [read, readFrom, ← hroot, he, hstep]
      | found v => simp only [read, readFrom, ← hroot, he, hstep]
      | goto c r =>
        rw [read_of_goto he hstep, read_of_goto (hroot.symm.trans he) hstep]
        have hc : F.Reach s root c := Reach.root.ref he (F.follow_refs hstep)
        exact ih r.length (hn ▸ F.follow_shorter hstep) (fun x hx => h x (hc.trans hx)) r rfl

variable (F)

def Complete (s : Store H N) (root : H) : Prop := ∀ x, F.Reach s root x → (s x).isSome

def Addressed (s : Store H N) : Prop := ∀ x e, s x = some e → F.hash e = x

variable {F}

def Consistent (s t : Store H N) : Prop := ∀ x e e', s x = some e → t x = some e' → e = e'

theorem Consistent.eq_of_isSome (h : Consistent s t) (hs : (s x).isSome) (ht : (t x).isSome) :
    s x = t x := by
  obtain ⟨e, he⟩ := Option.isSome_iff_exists.1 hs
  obtain ⟨e', he'⟩ := Option.isSome_iff_exists.1 ht
  rw [he, he', h x e e' he he']

theorem Complete.agree (hs : F.Complete s root) (ht : F.Complete t root) (h : Consistent s t)
    (hx : F.Reach s root x) : s x = t x ∧ F.Reach t root x := by
  induction hx with
  | root => exact ⟨h.eq_of_isSome (hs _ .root) (ht _ .root), .root⟩
  | ref hx he hc ih =>
    have hreach := ih.2.ref (ih.1.symm.trans he) hc
    exact ⟨h.eq_of_isSome (hs _ (hx.ref he hc)) (ht _ hreach), hreach⟩

theorem complete_iff {c s : Store H N} (hc : F.Complete c root) (h : Consistent c s) :
    F.Complete s root ↔ ∀ x, F.Reach c root x → (s x).isSome := by
  constructor
  · intro hs x hx
    exact hs x (hc.agree hs h hx).2
  · intro hall x hx
    have hsame : ∀ y, F.Reach c root y → c y = s y :=
      fun y hy => h.eq_of_isSome (hc y hy) (hall y hy)
    suffices hreach : F.Reach c root x from hall x hreach
    induction hx with
    | root => exact .root
    | ref _ he hmem ih => exact ih.ref ((hsame _ ih).trans he) hmem

theorem Complete.read_eq {c s : Store H N} (hc : F.Complete c root) (hs : F.Complete s root)
    (h : Consistent c s) (p : List S) : F.read s root p = F.read c root p :=
  (read_congr (fun _ hx => (hc.agree hs h hx).1) p).symm

end Format

end NodeStore
