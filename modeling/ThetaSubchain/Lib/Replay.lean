/-
Trying a list of items, and replaying those that were kept.

`select` runs a step on every item and keeps the items whose result is not refused.  `replay` runs
a second step on a list of items and stops at the first bad result.
-/
import ThetaSubchain.Lib.Ending

namespace Replay

variable {ε σ τ ι ρ : Type}

def select (step : σ → ι → Except ε (σ × ρ)) (refused : ρ → Bool) :
    σ → List ι → Except ε (σ × List ι)
  | s, [] => .ok (s, [])
  | s, i :: is => do
    let (s, r) ← step s i
    let (s, kept) ← select step refused s is
    return (s, if refused r then kept else i :: kept)

def replay (step : τ → ι → Except ε (τ × ρ)) (bad : ρ → Bool) :
    τ → List ι → Except ε (τ × Option ρ)
  | t, [] => .ok (t, none)
  | t, i :: is => do
    let (t, r) ← step t i
    if bad r then return (t, some r) else replay step bad t is

def OnSteps (step : σ → ι → Except ε (σ × ρ)) (P : σ → ι → σ → ρ → Prop) :
    σ → List ι → Prop
  | _, [] => True
  | s, i :: is => ∀ s' r, step s i = .ok (s', r) → P s i s' r ∧ OnSteps step P s' is

variable {is : List ι}

theorem OnSteps.mono {step : σ → ι → Except ε (σ × ρ)} {P Q : σ → ι → σ → ρ → Prop}
    (hPQ : ∀ s i s' r, step s i = .ok (s', r) → P s i s' r → Q s i s' r) {s : σ}
    (h : OnSteps step P s is) : OnSteps step Q s is := by
  induction is generalizing s with
  | nil => trivial
  | cons i is ih =>
    intro s' r hstep
    obtain ⟨hP, hrest⟩ := h s' r hstep
    exact ⟨hPQ s i s' r hstep hP, ih hrest⟩

theorem onSteps_cons {step : σ → ι → Except ε (σ × ρ)} {P : σ → ι → σ → ρ → Prop} {s s' : σ} {i : ι}
    {r : ρ} (h : step s i = .ok (s', r)) :
    OnSteps step P s (i :: is) ↔ P s i s' r ∧ OnSteps step P s' is := by
  refine ⟨fun hs => hs s' r h, fun hs t q ht => ?_⟩
  cases h.symm.trans ht
  exact hs

theorem onSteps_of_forall {step : σ → ι → Except ε (σ × ρ)} {P : σ → ι → σ → ρ → Prop}
    (h : ∀ i ∈ is, ∀ s s' r, P s i s' r) (s : σ) : OnSteps step P s is := by
  induction is generalizing s with
  | nil => trivial
  | cons i is ih =>
    intro s' r _
    exact ⟨h i (by simp) s s' r, ih (fun j hj => h j (by simp [hj])) s'⟩

theorem select_cons {step : σ → ι → Except ε (σ × ρ)} {refused : ρ → Bool} {s s' : σ} {i : ι}
    {is kept : List ι} (h : select step refused s (i :: is) = .ok (s', kept)) :
    ∃ t r kept', step s i = .ok (t, r) ∧ select step refused t is = .ok (s', kept') ∧
      kept = if refused r then kept' else i :: kept' := by
  obtain ⟨⟨t, r⟩, hstep, h⟩ := Ending.bind_eq_ok.mp h
  obtain ⟨⟨s'', kept'⟩, hrest, h⟩ := Ending.bind_eq_ok.mp h
  cases h
  exact ⟨t, r, kept', hstep, hrest, rfl⟩

theorem replay_cons {step : τ → ι → Except ε (τ × ρ)} {bad : ρ → Bool} {t t' : τ} {i : ι} {r : ρ}
    (h : step t i = .ok (t', r)) :
    replay step bad t (i :: is) =
      if bad r then .ok (t', some r) else replay step bad t' is := by
  rw [replay, h]
  rfl

section Agreement

variable {step : σ → ι → Except ε (σ × ρ)} {step₂ : τ → ι → Except ε (τ × ρ)}
  {refused bad : ρ → Bool} {R : σ → τ → Prop}
  (hsim : ∀ s t i s' r, R s t → step s i = .ok (s', r) → refused r = false →
    ∃ t', step₂ t i = .ok (t', r) ∧ R s' t')
include hsim

/-- The kept items are replayed to the end exactly if none of them has a bad result. -/
theorem replay_select {s s' : σ} {t : τ} {is kept : List ι} (hR : R s t)
    (h : select step refused s is = .ok (s', kept))
    (hclean : OnSteps step (fun s _ s' r => refused r = true → ∀ t, R s t → R s' t) s is) :
    (∃ t', replay step₂ bad t kept = .ok (t', none) ∧ R s' t' ∧
        OnSteps step (fun _ _ _ r => refused r = false → bad r = false) s is) ∨
      ∃ t' r, bad r = true ∧ replay step₂ bad t kept = .ok (t', some r) ∧
        ¬ OnSteps step (fun _ _ _ r => refused r = false → bad r = false) s is := by
  induction is generalizing s t kept with
  | nil =>
    cases h
    exact .inl ⟨t, rfl, hR, trivial⟩
  | cons i is ih =>
    obtain ⟨u, r, kept', hstep, hrest, hkept⟩ := select_cons h
    obtain ⟨hc, hclean⟩ := hclean u r hstep
    rw [onSteps_cons hstep]
    cases hr : refused r with
    | true =>
      simp only [hr, if_true] at hkept
      rw [hkept]
      simpa using ih (hc hr t hR) hrest hclean
    | false =>
      simp only [hr, Bool.false_eq_true, if_false] at hkept
      obtain ⟨t', hstep₂, hR'⟩ := hsim s t i u r hR hstep hr
      rw [hkept, replay_cons hstep₂]
      cases hb : bad r with
      | true => exact .inr ⟨t', r, hb, rfl, by simp⟩
      | false => simpa using ih hR' hrest hclean

end Agreement

end Replay
