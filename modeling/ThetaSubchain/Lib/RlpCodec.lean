/-
Typed values as items, field by field.

A codec is canonical if what is read is written as it was, and the values that are read are exactly
the readable ones.  Some values are written like others and are not read back (a nil pointer like a
zero).
-/
import ThetaSubchain.Lib.Ending
import ThetaSubchain.Lib.RlpDecode

namespace Rlp

structure Codec (α : Type) where
  toItem : α → Option Item
  ofItem : Item → Option α
  Readable : α → Prop
  written : ∀ {x a}, ofItem x = some a → toItem a = some x
  readable : ∀ {x a}, ofItem x = some a → Readable a
  read : ∀ {a}, Readable a → ∃ x, toItem a = some x ∧ ofItem x = some a

structure Fields (α : Type) where
  toItems : α → Option (List Item)
  ofItems : List Item → Option α
  Readable : α → Prop
  written : ∀ {xs a}, ofItems xs = some a → toItems a = some xs
  readable : ∀ {xs a}, ofItems xs = some a → Readable a
  read : ∀ {a}, Readable a → ∃ xs, toItems a = some xs ∧ ofItems xs = some a

variable {α β : Type}

theorem Codec.ofItem_eq_some_iff (c : Codec α) {x : Item} {a : α} :
    c.ofItem x = some a ↔ c.toItem a = some x ∧ c.Readable a := by
  constructor
  · intro h
    exact ⟨c.written h, c.readable h⟩
  · rintro ⟨hx, hr⟩
    obtain ⟨y, hy, hread⟩ := c.read hr
    rw [hx, Option.some.injEq] at hy
    rw [hy]
    exact hread

def Fields.nil : Fields Unit where
  toItems _ := some []
  ofItems
    | [] => some ()
    | _ :: _ => none
  Readable _ := True
  written {xs a} h := by
    cases xs with
    | nil => rfl
    | cons x xs => cases h
  readable _ := trivial
  read _ := ⟨[], rfl, rfl⟩

def Fields.cons (c : Codec α) (f : Fields β) : Fields (α × β) where
  toItems a := do
    let x ← c.toItem a.1
    let xs ← f.toItems a.2
    return x :: xs
  ofItems
    | [] => none
    | x :: xs => do
      let a ← c.ofItem x
      let b ← f.ofItems xs
      return (a, b)
  Readable a := c.Readable a.1 ∧ f.Readable a.2
  written {xs a} h := by
    cases xs with
    | nil => cases h
    | cons x xs =>
      obtain ⟨u, hu, h⟩ := Option.bind_eq_some_iff.1 h
      obtain ⟨v, hv, h⟩ := Option.bind_eq_some_iff.1 h
      cases h
      rw [c.written hu, f.written hv]
      rfl
  readable {xs a} h := by
    cases xs with
    | nil => cases h
    | cons x xs =>
      obtain ⟨u, hu, h⟩ := Option.bind_eq_some_iff.1 h
      obtain ⟨v, hv, h⟩ := Option.bind_eq_some_iff.1 h
      cases h
      exact ⟨c.readable hu, f.readable hv⟩
  read {a} h := by
    obtain ⟨x, hx, hx'⟩ := c.read h.1
    obtain ⟨xs, hxs, hxs'⟩ := f.read h.2
    refine ⟨x :: xs, ?_, ?_⟩
    · rw [hx, hxs]
      rfl
    · dsimp only
      rw [hx', hxs']
      rfl

def Codec.struct (f : Fields α) (make : α → β) (fields : β → α)
    (hfields : ∀ a, fields (make a) = a) (hmake : ∀ b, make (fields b) = b) : Codec β where
  toItem b := (f.toItems (fields b)).map .list
  ofItem
    | .list xs => (f.ofItems xs).map make
    | .str _ => none
  Readable b := f.Readable (fields b)
  written {x b} h := by
    cases x with
    | str s => cases h
    | list xs =>
      obtain ⟨a, ha, rfl⟩ := Option.map_eq_some_iff.1 h
      rw [hfields, f.written ha]
      rfl
  readable {x b} h := by
    cases x with
    | str s => cases h
    | list xs =>
      obtain ⟨a, ha, rfl⟩ := Option.map_eq_some_iff.1 h
      rw [hfields]
      exact f.readable ha
  read {b} h := by
    obtain ⟨xs, hxs, hread⟩ := f.read h
    refine ⟨.list xs, by rw [hxs]; rfl, ?_⟩
    dsimp only
    rw [hread, Option.map_some, hmake]

theorem mapM_written (c : Codec α) {xs : List Item} {l : List α} (h : xs.mapM c.ofItem = some l) :
    l.mapM c.toItem = some xs ∧ ∀ a ∈ l, c.Readable a := by
  have hall := Ending.mapM_eq_some.1 h
  refine ⟨Ending.mapM_eq_some.2 (.flip (hall.imp fun _ _ => c.written)), fun a ha => ?_⟩
  obtain ⟨x, -, hx⟩ := Ending.exists_left_of_mem hall ha
  exact c.readable hx

theorem exists_mapM_read (c : Codec α) {l : List α} (h : ∀ a ∈ l, c.Readable a) :
    ∃ xs, l.mapM c.toItem = some xs ∧ xs.mapM c.ofItem = some l := by
  induction l with
  | nil => exact ⟨[], rfl, rfl⟩
  | cons a l ih =>
    obtain ⟨x, hx, hread⟩ := c.read (h a List.mem_cons_self)
    obtain ⟨xs, hxs, hreads⟩ := ih fun b hb => h b (List.mem_cons_of_mem a hb)
    refine ⟨x :: xs, ?_, ?_⟩
    · rw [List.mapM_cons, hx, hxs]
      rfl
    · rw [List.mapM_cons, hread, hreads]
      rfl

def Codec.list (c : Codec α) : Codec (List α) where
  toItem l := (l.mapM c.toItem).map .list
  ofItem
    | .list xs => xs.mapM c.ofItem
    | .str _ => none
  Readable l := ∀ a ∈ l, c.Readable a
  written {x l} h := by
    cases x with
    | str s => cases h
    | list xs =>
      rw [(mapM_written c h).1]
      rfl
  readable {x l} h := by
    cases x with
    | str s => cases h
    | list xs => exact (mapM_written c h).2
  read {l} h := by
    obtain ⟨xs, hxs, hread⟩ := exists_mapM_read c h
    exact ⟨.list xs, by rw [hxs]; rfl, hread⟩

end Rlp
