/-
Back pointers on a line of positions.

Following two pointers from a position and one from its predecessor leads to the same level
everywhere, exactly if no pointer retreats to or before a rise that the pointer of its predecessor
is past.
-/
import Mathlib.Order.Basic
import Mathlib.Algebra.Order.Group.Int

namespace BackPointers

variable {h : ℕ → ℕ} {rises : ℕ → Prop} {level : ℕ → ℤ} {n : ℕ}

structure Direct (h : ℕ → ℕ) (rises : ℕ → Prop) (n : ℕ) : Prop where
  origin : h 0 = 0
  back : ∀ k < n, h (k + 1) ≤ k
  first : ∀ u, rises u → u + 1 ≤ n → h (u + 1) = u
  second : ∀ u, rises u → u + 2 ≤ n → h (u + 2) = u + 1

structure Levels (level : ℕ → ℤ) (rises : ℕ → Prop) (n : ℕ) : Prop where
  origin : ¬ rises 0
  up : ∀ k < n, rises (k + 1) → level k < level (k + 1)
  same : ∀ k < n, ¬ rises (k + 1) → level (k + 1) = level k

def Retreats (h : ℕ → ℕ) (rises : ℕ → Prop) (k : ℕ) : Prop :=
  ∃ u, rises u ∧ h (k + 1) ≤ u ∧ u < h k

namespace Levels

theorem le (hl : Levels level rises n) {i j : ℕ} (hij : i ≤ j) (hj : j ≤ n) :
    level i ≤ level j := by
  induction j with
  | zero =>
    have hi : i = 0 := by omega
    rw [hi]
  | succ j ih =>
    by_cases hlast : i = j + 1
    · rw [hlast]
    · have hle := ih (by omega) (by omega)
      by_cases hr : rises (j + 1)
      · have := hl.up j (by omega) hr
        omega
      · have := hl.same j (by omega) hr
        omega

theorem lt_of_rises (hl : Levels level rises n) {i u j : ℕ} (hu : rises u) (hiu : i < u)
    (huj : u ≤ j) (hj : j ≤ n) : level i < level j := by
  obtain ⟨v, rfl⟩ : ∃ v, u = v + 1 := ⟨u - 1, by omega⟩
  have hlow := hl.le (i := i) (j := v) (by omega) (by omega)
  have hup := hl.up v (by omega) hu
  have hhigh := hl.le huj hj
  omega

theorem exists_rise (hl : Levels level rises n) {i j : ℕ} (hij : i ≤ j) (hj : j ≤ n)
    (hne : level i ≠ level j) : ∃ u, rises u ∧ i < u ∧ u ≤ j := by
  induction j with
  | zero =>
    have hi : i = 0 := by omega
    exact absurd (congrArg level hi) hne
  | succ j ih =>
    have hlast : i ≠ j + 1 := fun heq => hne (congrArg level heq)
    by_cases hr : rises (j + 1)
    · exact ⟨j + 1, hr, by omega, le_refl _⟩
    · rw [hl.same j (by omega) hr] at hne
      obtain ⟨u, hu, hiu, huj⟩ := ih (by omega) (by omega) hne
      exact ⟨u, hu, hiu, by omega⟩

end Levels

theorem exists_retreat {u i j : ℕ} (hu : rises u) (hi : u < h i) (hj : h j ≤ u) (hij : i ≤ j) :
    ∃ k < j, Retreats h rises k := by
  induction j with
  | zero =>
    have hi0 : i = 0 := by omega
    rw [hi0] at hi
    omega
  | succ j ih =>
    have hlast : i ≠ j + 1 := by
      intro heq
      rw [heq] at hi
      omega
    by_cases hprev : h j ≤ u
    · obtain ⟨k, hk, hret⟩ := ih hprev (by omega)
      exact ⟨k, by omega, hret⟩
    · exact ⟨j, by omega, u, hu, hj, by omega⟩

namespace Direct

theorem le (hd : Direct h rises n) {k : ℕ} (hk : k ≤ n) : h k ≤ k := by
  cases k with
  | zero => rw [hd.origin]
  | succ k =>
    have := hd.back k (by omega)
    omega

theorem retreats_of_le (hd : Direct h rises n) {u j : ℕ} (hu : rises u) (hj : u + 2 ≤ j)
    (hjn : j ≤ n) (hle : h j ≤ u) : ∃ k < j, Retreats h rises k := by
  have hsecond := hd.second u hu (by omega)
  exact exists_retreat (i := u + 2) hu (by omega) hle hj

theorem level_eq_iff (hd : Direct h rises n) (hl : Levels level rises n) :
    (∀ k < n, level (h (h (k + 1))) = level (h k)) ↔ ∀ k < n, ¬ Retreats h rises k := by
  constructor
  · intro heq k hk hret
    obtain ⟨u, hu, hle, hlt⟩ := hret
    have hback := hd.back k hk
    have hpast := hd.le (k := k) (by omega)
    have hu0 : u ≠ 0 := by
      intro h0
      rw [h0] at hu
      exact hl.origin hu
    -- the second pointer leads to before the rise
    have hbefore : h (h (k + 1)) < u := by
      by_cases h0 : h (k + 1) = 0
      · rw [h0, hd.origin]
        omega
      · obtain ⟨j, hj⟩ : ∃ j, h (k + 1) = j + 1 := ⟨h (k + 1) - 1, by omega⟩
        rw [hj]
        have := hd.back j (by omega)
        omega
    have := hl.lt_of_rises hu hbefore (le_of_lt hlt) (by omega)
    have := heq k hk
    omega
  · intro hnone k hk
    by_contra hne
    have hback := hd.back k hk
    have hj := hd.le (k := h (k + 1)) (by omega)
    have hpred := hd.le (k := k) (by omega)
    -- the pointer does not lead to the predecessor, so there is no rise close by
    have hskip : h (k + 1) ≠ k := by
      intro heq
      rw [heq] at hne
      exact hne rfl
    have hfirst : ¬ rises k := fun hr => hskip (hd.first k hr (by omega))
    have hno : ∀ j, j ≤ n → ¬ ∃ i < j, Retreats h rises i := by
      intro j hjn hex
      obtain ⟨i, hi, hret⟩ := hex
      exact hnone i (by omega) hret
    by_cases hle : h (h (k + 1)) ≤ h k
    · obtain ⟨u, hu, hlow, hhigh⟩ := hl.exists_rise hle (by omega) hne
      have hsecond : u + 1 ≠ k := by
        intro heq
        have := hd.second u hu (by omega)
        rw [show u + 2 = k + 1 by omega] at this
        omega
      have huk : u ≠ k := by
        intro heq
        rw [heq] at hu
        exact hfirst hu
      by_cases hpast : h (k + 1) ≤ u
      · by_cases hlt : u < h k
        · exact hnone k hk ⟨u, hu, hpast, hlt⟩
        · exact hno k (by omega) (hd.retreats_of_le hu (by omega) (by omega) (by omega))
      · have hnext : h (k + 1) ≠ u + 1 := by
          intro heq
          rw [heq, hd.first u hu (by omega)] at hlow
          omega
        exact hno _ (by omega) (hd.retreats_of_le hu (j := h (k + 1)) (by omega) (by omega)
          (by omega))
    · obtain ⟨u, hu, hlow, hhigh⟩ := hl.exists_rise (i := h k) (j := h (h (k + 1))) (by omega)
        (by omega) (Ne.symm hne)
      have hlt : h (h (k + 1)) < h (k + 1) := by
        by_cases h0 : h (k + 1) = 0
        · rw [h0, hd.origin] at hhigh
          omega
        · obtain ⟨j, hj'⟩ : ∃ j, h (k + 1) = j + 1 := ⟨h (k + 1) - 1, by omega⟩
          rw [hj']
          have := hd.back j (by omega)
          omega
      exact hno k (by omega) (hd.retreats_of_le hu (by omega) (by omega) (by omega))

end Direct

end BackPointers
