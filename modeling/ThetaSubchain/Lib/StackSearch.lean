/-
Depth-first search with an explicit stack for an element with the greatest key.  It marks nothing
as visited.
-/
import Mathlib.Algebra.Order.Group.Nat
import Mathlib.Logic.Relation

namespace StackSearch

variable {α : Type} (skip : α → Bool) (next : α → Option (List α)) (key : α → Nat)

def loop : Nat → List α → α → Option α
  | 0, _, _ => none
  | _ + 1, [], candidate => some candidate
  | n + 1, x :: stack, candidate =>
    if skip x then loop n stack candidate
    else
      let candidate := if key candidate < key x then x else candidate
      match next x with
      | none => none
      | some xs => loop n (xs.reverse ++ stack) candidate

def Link (x y : α) : Prop := ∃ xs, next x = some xs ∧ y ∈ xs ∧ skip y = false

def Reached (l : List α) (y : α) : Prop :=
  ∃ x ∈ l, skip x = false ∧ Relation.ReflTransGen (Link skip next) x y

/-- The search can go on from the elements of a set, with keys that grow up to a bound. -/
structure Ascending (elements : Set α) (bound : Nat) : Prop where
  defined : ∀ x ∈ elements, ∃ xs, next x = some xs
  link : ∀ x ∈ elements, ∀ y, Link skip next x y → y ∈ elements ∧ key x < key y
  below : ∀ x ∈ elements, key x < bound

variable {skip next key} {elements : Set α} {bound : Nat}

variable {x : α} {l : List α} {y : α}

theorem reached_cons :
    Reached skip next (x :: l) y ↔
      (skip x = false ∧ Relation.ReflTransGen (Link skip next) x y) ∨ Reached skip next l y := by
  unfold Reached
  simp

theorem reached_of_next {xs : List α} (hnext : next x = some xs)
    (h : Relation.ReflTransGen (Link skip next) x y) : y = x ∨ Reached skip next xs y := by
  rcases h.cases_head with rfl | ⟨z, ⟨zs, hzs, hz, hskip⟩, htail⟩
  · exact .inl rfl
  · rw [hnext, Option.some.injEq] at hzs
    exact .inr ⟨z, hzs ▸ hz, hskip, htail⟩

theorem Reached.of_next {xs : List α} (hnext : next x = some xs) (h : Reached skip next xs y) :
    Relation.ReflTransGen (Link skip next) x y := by
  obtain ⟨z, hz, hskip, htail⟩ := h
  exact htail.head ⟨xs, hnext, hz, hskip⟩

theorem reached_reverse : Reached skip next l.reverse y ↔ Reached skip next l y := by
  unfold Reached
  simp

/-- What the search does with the elements of a list on top of the stack: it takes some steps and
replaces the candidate by the best of it and of the elements that are reached. -/
structure Swept (skip : α → Bool) (next : α → Option (List α)) (key : α → Nat) (l : List α)
    (candidate : α) (steps : Nat) (best : α) : Prop where
  run : ∀ n stack, loop skip next key (n + steps) (l ++ stack) candidate =
    loop skip next key n stack best
  found : best = candidate ∨ Reached skip next l best
  candidate : key candidate ≤ key best
  reached : ∀ y, Reached skip next l y → key y ≤ key best

theorem swept_nil (candidate : α) : Swept skip next key [] candidate 0 candidate where
  run _ _ := rfl
  found := .inl rfl
  candidate := le_rfl
  reached := by simp [Reached]

theorem Swept.skipped {candidate best : α} {steps : Nat} (hx : skip x = true)
    (h : Swept skip next key l candidate steps best) :
    Swept skip next key (x :: l) candidate (steps + 1) best where
  run n stack := by
    rw [← h.run]
    show (if skip x then loop skip next key (n + steps) (l ++ stack) candidate else _) = _
    rw [if_pos hx]
  found := h.found.imp_right fun hr => reached_cons.2 (.inr hr)
  candidate := h.candidate
  reached y hy := by
    rcases reached_cons.1 hy with ⟨hskip, -⟩ | hy
    · rw [hx] at hskip
      cases hskip
    · exact h.reached y hy

theorem Swept.cons {l xs : List α} {candidate best best' : α} {steps steps' : Nat}
    (hx : skip x = false) (hnext : next x = some xs)
    (h : Swept skip next key xs.reverse (if key candidate < key x then x else candidate) steps best)
    (h' : Swept skip next key l best steps' best') :
    Swept skip next key (x :: l) candidate (steps' + steps + 1) best' where
  run n stack := by
    rw [← h'.run, ← h.run]
    show (if skip x then _ else
      match next x with
      | none => none
      | some xs => loop skip next key (n + (steps' + steps)) (xs.reverse ++ (l ++ stack)) _) = _
    rw [if_neg (by simp [hx]), hnext]
    simp only [Nat.add_assoc]
  found := by
    rcases h'.found with rfl | hr
    · rcases h.found with hbest | hr
      · rw [hbest]
        split
        · exact .inr (reached_cons.2 (.inl ⟨hx, .refl⟩))
        · exact .inl rfl
      · exact .inr (reached_cons.2 (.inl ⟨hx, (reached_reverse.1 hr).of_next hnext⟩))
    · exact .inr (reached_cons.2 (.inr hr))
  candidate := by
    have hstart : key candidate ≤ key (if key candidate < key x then x else candidate) := by
      split <;> omega
    exact hstart.trans (h.candidate.trans h'.candidate)
  reached y hy := by
    rcases reached_cons.1 hy with ⟨-, hpath⟩ | hy
    · refine le_trans ?_ h'.candidate
      rcases reached_of_next hnext hpath with rfl | hr
      · refine le_trans ?_ h.candidate
        split <;> omega
      · exact h.reached y (reached_reverse.2 hr)
    · exact h'.reached y hy

/-- The elements of a list on top of the stack are swept in finitely many steps: by induction on
what is left from their keys to the bound, and on the list. -/
theorem exists_swept (ha : Ascending skip next key elements bound) (left : Nat) :
    ∀ l : List α, (∀ x ∈ l, skip x = false → x ∈ elements ∧ bound ≤ key x + left) →
      ∀ candidate, ∃ steps best, Swept skip next key l candidate steps best := by
  induction left using Nat.strong_induction_on with
  | _ left ihleft =>
    intro l hl
    induction l with
    | nil => exact fun candidate => ⟨0, candidate, swept_nil candidate⟩
    | cons x l ih =>
      intro candidate
      have hrest := ih fun y hy => hl y (List.mem_cons_of_mem x hy)
      cases hx : skip x with
      | true =>
        obtain ⟨steps, best, h⟩ := hrest candidate
        exact ⟨_, _, h.skipped hx⟩
      | false =>
        obtain ⟨hmem, hbound⟩ := hl x List.mem_cons_self hx
        have hbelow := ha.below x hmem
        obtain ⟨xs, hnext⟩ := ha.defined x hmem
        have hxs : ∀ y ∈ xs.reverse, skip y = false →
            y ∈ elements ∧ bound ≤ key y + (left - 1) := by
          intro y hy hskip
          obtain ⟨hy', hlt⟩ := ha.link x hmem y ⟨xs, hnext, List.mem_reverse.1 hy, hskip⟩
          exact ⟨hy', by omega⟩
        obtain ⟨steps, best, h⟩ := ihleft (left - 1) (by omega) xs.reverse hxs
          (if key candidate < key x then x else candidate)
        obtain ⟨steps', best', h'⟩ := hrest best
        exact ⟨_, _, Swept.cons hx hnext h h'⟩

theorem loop_spec (ha : Ascending skip next key elements bound) {r : α} (hr : r ∈ elements) :
    ∃ steps best, (∀ n, steps ≤ n → loop skip next key n [r] r = some best) ∧
      (best = r ∨ Reached skip next [r] best) ∧
      ∀ y, Reached skip next [r] y → key y ≤ key best := by
  obtain ⟨steps, best, h⟩ := exists_swept ha bound [r]
    (fun x hx _ => ⟨List.mem_singleton.1 hx ▸ hr, by omega⟩) r
  refine ⟨steps + 1, best, ?_, h.found, h.reached⟩
  intro n hn
  obtain ⟨k, rfl⟩ := Nat.exists_eq_add_of_le hn
  have hrun := h.run (k + 1) []
  rw [show steps + 1 + k = k + 1 + steps from by omega]
  exact hrun

end StackSearch
