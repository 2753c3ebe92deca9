/-
The choice of the proposer (getProposerFromValidators of consensus/validator.go).

The sum of the rounded stakes may be smaller than the rounded total, and a random number in between
selects nobody.
-/
import ThetaSubchain.Core.Validator

namespace ThetaSubchain

open List

namespace ProposerSelection

def bigMaxUint32 : Int := 4294967295

/-- `none` is the panic on a zero factor.  `Div` is Euclidean, and `Uint64` keeps the low 64 bits of
the absolute value. -/
def scaleDown (x scalingFactor : Int) : Option UInt64 :=
  if scalingFactor = 0 then none else some (UInt64.ofNat (x / scalingFactor).natAbs)

def randUint64 (rnd : UInt64 → UInt64) (max : UInt64) : Option UInt64 :=
  if max = 0 then none else some (rnd max)

def scalingFactor (totalStake : Int) : Int := totalStake / bigMaxUint32 + 1

def select (scalingFactor : Int) (r curr : UInt64) : List Validator → Option Validator
  | [] => none
  | v :: validators => do
    let scaled ← scaleDown v.stake scalingFactor
    let curr := curr + scaled
    if r < curr then some v else select scalingFactor r curr validators

def getProposerFromValidators (rnd : UInt64 → UInt64 → UInt64) (valSet : ValidatorSet)
    (epoch : UInt64) : Option Validator :=
  if valSet.size = 0 then none
  else do
    let totalStake := valSet.totalStake
    let scaledTotalStake ← scaleDown totalStake (scalingFactor totalStake)
    let r ← randUint64 (rnd epoch) scaledTotalStake
    select (scalingFactor totalStake) r 0 valSet.validators

def InRange (rnd : UInt64 → UInt64 → UInt64) : Prop :=
  ∀ seed max, max ≠ 0 → rnd seed max < max

def largest (_ max : UInt64) : UInt64 := max - 1

theorem inRange_largest : InRange largest := by
  intro _ max hmax
  have hone : (1 : UInt64).toNat = 1 := rfl
  have hne : max.toNat ≠ 0 := fun h => hmax (UInt64.toNat_inj.mp h)
  have hle : (1 : UInt64) ≤ max := by
    rw [UInt64.le_iff_toNat_le]
    omega
  rw [largest, UInt64.lt_iff_toNat_lt, UInt64.toNat_sub_of_le _ _ hle]
  omega

def scaledSum (factor : Int) (validators : List Validator) : Nat :=
  (validators.map fun v => (v.stake / factor).natAbs).sum

variable {factor : Int}

theorem mem_of_select {r : UInt64} {validators : List Validator} {curr : UInt64} {v : Validator}
    (h : select factor r curr validators = some v) : v ∈ validators := by
  induction validators generalizing curr with
  | nil => cases h
  | cons w validators ih =>
    rw [select, Option.bind_eq_bind, Option.bind_eq_some_iff] at h
    obtain ⟨scaled, -, h⟩ := h
    dsimp only at h
    split at h
    · cases h
      exact .head _
    · exact .tail _ (ih h)

theorem isSome_select (hfactor : factor ≠ 0) {r curr : UInt64} (hcurr : curr ≤ r)
    {validators : List Validator} (hfits : curr.toNat + scaledSum factor validators < 2 ^ 64) :
    (select factor r curr validators).isSome ↔
      r.toNat < curr.toNat + scaledSum factor validators := by
  induction validators generalizing curr with
  | nil =>
    have hle := UInt64.le_iff_toNat_le.mp hcurr
    simp only [select, scaledSum, map_nil, sum_nil]
    constructor
    · intro h
      cases h
    · intro h
      omega
  | cons v validators ih =>
    have hsum : scaledSum factor (v :: validators) =
        (v.stake / factor).natAbs + scaledSum factor validators := by
      simp [scaledSum]
    rw [hsum] at hfits ⊢
    rw [select, scaleDown, if_neg hfactor]
    show (if r < curr + UInt64.ofNat _ then some v else _).isSome ↔ _
    set next := curr + UInt64.ofNat (v.stake / factor).natAbs with hnext
    have hvalue : next.toNat = curr.toNat + (v.stake / factor).natAbs := by
      rw [hnext, UInt64.toNat_add, UInt64.toNat_ofNat_of_lt' (show _ < 2 ^ 64 by omega),
        Nat.mod_eq_of_lt (by omega)]
    by_cases hlt : r < next
    · rw [if_pos hlt]
      have := UInt64.lt_iff_toNat_lt.mp hlt
      constructor
      · intro _
        omega
      · exact fun _ => rfl
    · rw [if_neg hlt, ih (UInt64.not_lt.mp hlt) (by omega), hvalue, Nat.add_assoc]

theorem totalStake_div (hfactor : 0 < factor) (validators : List Validator)
    (hpos : ∀ v ∈ validators, 0 < v.stake) :
    ((validators.map Validator.stake).sum / factor).natAbs = scaledSum factor validators +
      ((validators.map fun v => v.stake % factor).sum / factor).natAbs ∧
      0 ≤ (validators.map fun v => v.stake % factor).sum := by
  have hnonneg : 0 ≤ (validators.map fun v => v.stake % factor).sum := by
    apply sum_nonneg
    intro r hr
    obtain ⟨v, -, rfl⟩ := mem_map.mp hr
    exact Int.emod_nonneg _ (by omega)
  refine ⟨?_, hnonneg⟩
  have hsplit : (validators.map Validator.stake).sum =
      (validators.map fun v => v.stake % factor).sum + factor * scaledSum factor validators := by
    clear hnonneg
    induction validators with
    | nil => simp [scaledSum]
    | cons v validators ih =>
      have hrest := ih fun w hw => hpos w (.tail _ hw)
      have hv := Int.emod_add_mul_ediv v.stake factor
      have hq : 0 ≤ v.stake / factor :=
        Int.ediv_nonneg (hpos v mem_cons_self).le hfactor.le
      simp only [map_cons, sum_cons, scaledSum, Nat.cast_add, Int.natAbs_of_nonneg hq]
      rw [hrest, mul_add]
      unfold scaledSum
      omega
  rw [hsplit, Int.add_mul_ediv_left _ _ hfactor.ne']
  have hcarry := Int.ediv_nonneg hnonneg hfactor.le
  omega

theorem scaled_total_bounds {total : Int} (hpos : 0 < total) :
    0 < total / scalingFactor total ∧ total / scalingFactor total < bigMaxUint32 := by
  have hfactor : 0 < scalingFactor total := by
    unfold scalingFactor bigMaxUint32
    omega
  constructor
  · have hle : 1 * scalingFactor total ≤ total := by
      unfold scalingFactor bigMaxUint32
      omega
    have := (Int.le_ediv_iff_mul_le hfactor).mpr hle
    omega
  · rw [Int.ediv_lt_iff_lt_mul hfactor]
    unfold scalingFactor bigMaxUint32
    omega

def lostStake (valSet : ValidatorSet) : Int :=
  (valSet.validators.map fun v => v.stake % scalingFactor valSet.totalStake).sum

theorem totalStake_pos {valSet : ValidatorSet} (hne : valSet.validators ≠ [])
    (hpos : ∀ v ∈ valSet.validators, 0 < v.stake) : 0 < valSet.totalStake := by
  unfold ValidatorSet.totalStake
  apply sum_pos
  · intro stake hstake
    obtain ⟨v, hv, rfl⟩ := mem_map.mp hstake
    exact hpos v hv
  · simpa using hne

theorem getProposerFromValidators_eq {rnd : UInt64 → UInt64 → UInt64} {valSet : ValidatorSet}
    (hne : valSet.validators ≠ []) (hpos : ∀ v ∈ valSet.validators, 0 < v.stake) (epoch : UInt64) :
    ∃ scaledTotal : UInt64, scaledTotal ≠ 0 ∧
      scaledTotal.toNat = (valSet.totalStake / scalingFactor valSet.totalStake).natAbs ∧
      getProposerFromValidators rnd valSet epoch =
        select (scalingFactor valSet.totalStake) (rnd epoch scaledTotal) 0 valSet.validators := by
  obtain ⟨hlow, hhigh⟩ := scaled_total_bounds (totalStake_pos hne hpos)
  unfold bigMaxUint32 at hhigh
  set q := valSet.totalStake / scalingFactor valSet.totalStake with hq
  have hvalue : (UInt64.ofNat q.natAbs).toNat = q.natAbs :=
    UInt64.toNat_ofNat_of_lt' (show _ < 2 ^ 64 by omega)
  have hzero : UInt64.ofNat q.natAbs ≠ 0 := by
    intro h
    rw [h] at hvalue
    have : (0 : UInt64).toNat = 0 := rfl
    omega
  refine ⟨UInt64.ofNat q.natAbs, hzero, hvalue, ?_⟩
  have hfactor : scalingFactor valSet.totalStake ≠ 0 := by
    have := totalStake_pos hne hpos
    unfold scalingFactor bigMaxUint32
    omega
  have hsize : valSet.size ≠ 0 := by simpa [ValidatorSet.size] using hne
  unfold getProposerFromValidators
  rw [if_neg hsize]
  dsimp only
  rw [scaleDown, if_neg hfactor, ← hq]
  show (randUint64 _ (UInt64.ofNat q.natAbs) >>= _) = _
  rw [randUint64, if_neg hzero]
  rfl

/-- For a set of validators with positive stakes, every number of the generator in every epoch
selects a validator exactly if the stakes lose less than one scaling factor to rounding. -/
theorem proposer_total_iff (valSet : ValidatorSet) (hne : valSet.validators ≠ [])
    (hpos : ∀ v ∈ valSet.validators, 0 < v.stake) :
    (∀ rnd, InRange rnd → ∀ epoch, ∃ v ∈ valSet.validators,
        getProposerFromValidators rnd valSet epoch = some v) ↔
      lostStake valSet < scalingFactor valSet.totalStake := by
  have htotal := totalStake_pos hne hpos
  have hfactor : 0 < scalingFactor valSet.totalStake := by
    unfold scalingFactor bigMaxUint32
    omega
  obtain ⟨hlow, hhigh⟩ := scaled_total_bounds htotal
  unfold bigMaxUint32 at hhigh
  obtain ⟨hdiv, hlost⟩ := totalStake_div hfactor valSet.validators hpos
  change (valSet.totalStake / scalingFactor valSet.totalStake).natAbs = _ at hdiv
  have hselect : ∀ r : UInt64,
      (select (scalingFactor valSet.totalStake) r 0 valSet.validators).isSome ↔
        r.toNat < scaledSum (scalingFactor valSet.totalStake) valSet.validators := by
    intro r
    have h0 : (0 : UInt64).toNat = 0 := rfl
    have hfits : (0 : UInt64).toNat +
        scaledSum (scalingFactor valSet.totalStake) valSet.validators < 2 ^ 64 := by omega
    have h := isSome_select hfactor.ne' (UInt64.zero_le (a := r)) hfits
    rwa [h0, Nat.zero_add] at h
  constructor
  · intro h
    by_contra hcarry
    -- the largest number of the generator is not below the sum of the scaled stakes
    obtain ⟨scaledTotal, hzero, hvalue, heq⟩ :=
      getProposerFromValidators_eq hne hpos 0
    obtain ⟨v, -, hv⟩ := h largest inRange_largest 0
    rw [heq] at hv
    have hlt := (hselect _).mp (by rw [hv]; rfl)
    have hone : 1 ≤ lostStake valSet / scalingFactor valSet.totalStake :=
      (Int.le_ediv_iff_mul_le hfactor).mpr (by omega)
    have hle : (1 : UInt64) ≤ scaledTotal := by
      rw [UInt64.le_iff_toNat_le, hvalue]
      have : (1 : UInt64).toNat = 1 := rfl
      omega
    rw [largest, UInt64.toNat_sub_of_le _ _ hle] at hlt
    have : (1 : UInt64).toNat = 1 := rfl
    unfold lostStake at hone
    omega
  · intro h rnd hrnd epoch
    obtain ⟨scaledTotal, hzero, hvalue, heq⟩ := getProposerFromValidators_eq hne hpos epoch
    have hlt := UInt64.lt_iff_toNat_lt.mp (hrnd epoch scaledTotal hzero)
    have hcarry : lostStake valSet / scalingFactor valSet.totalStake = 0 :=
      Int.ediv_eq_zero_of_lt hlost h
    unfold lostStake at hcarry
    have hsome := (hselect (rnd epoch scaledTotal)).mpr (by omega)
    obtain ⟨v, hv⟩ := Option.isSome_iff_exists.mp hsome
    rw [heq]
    exact ⟨v, mem_of_select hv, hv⟩

def drawing (draw _ max : UInt64) : UInt64 := if draw < max then draw else 0

theorem inRange_drawing (draw : UInt64) : InRange (drawing draw) := by
  intro _ max hmax
  unfold drawing
  split
  · assumption
  · exact UInt64.pos_iff_ne_zero.mpr hmax

def roundedValidators : ValidatorSet :=
  ⟨1, ⟨7, 4294967290⟩ :: [8, 9, 10, 11, 12, 13].map fun a => ⟨a, 1⟩⟩

theorem draw_selects_nobody :
    (∀ v ∈ roundedValidators.validators, 0 < v.stake) ∧ InRange (drawing 2147483645) ∧
      getProposerFromValidators (drawing 2147483645) roundedValidators 0 = none :=
  ⟨by decide, inRange_drawing _, by decide⟩

theorem proposer_total_small :
    lostStake ⟨1, [⟨7, 3⟩, ⟨8, 5⟩]⟩ = 0 ∧
      ∀ rnd, InRange rnd → ∀ epoch, ∃ v ∈ [(⟨7, 3⟩ : Validator), ⟨8, 5⟩],
        getProposerFromValidators rnd ⟨1, [⟨7, 3⟩, ⟨8, 5⟩]⟩ epoch = some v :=
  ⟨by decide, (proposer_total_iff ⟨1, [⟨7, 3⟩, ⟨8, 5⟩]⟩ (by decide) (by decide)).mpr (by decide)⟩

end ProposerSelection

end ThetaSubchain
