/-
Weighted quorums: more than two thirds of a total that is at least the sum of all weights.
-/
import Mathlib.Algebra.BigOperators.Group.Finset.Indicator
import Mathlib.Algebra.Order.BigOperators.Group.Finset
import Mathlib.Algebra.Order.Group.Indicator
import Mathlib.Algebra.Order.Ring.Int

namespace Quorum

noncomputable def weight {V : Type*} (members : Finset V) (w : V → ℤ) (s : Set V) : ℤ :=
  ∑ v ∈ members, s.indicator w v

def IsQuorum {V : Type*} (members : Finset V) (w : V → ℤ) (total : ℤ) (s : Set V) : Prop :=
  2 * total < 3 * weight members w s

variable {V : Type*} {members : Finset V} {w : V → ℤ} {total : ℤ} {s t : Set V}

variable (hw : ∀ v ∈ members, 0 ≤ w v)
include hw

theorem weight_le_weight (h : ∀ v ∈ members, v ∈ s → v ∈ t) :
    weight members w s ≤ weight members w t := by
  refine Finset.sum_le_sum fun v hv => ?_
  by_cases hs : v ∈ s
  · rw [Set.indicator_of_mem hs, Set.indicator_of_mem (h v hv hs)]
  · rw [Set.indicator_of_notMem hs]
    exact Set.indicator_apply_nonneg fun _ => hw v hv

theorem IsQuorum.mono (h : s ⊆ t) (hs : IsQuorum members w total s) : IsQuorum members w total t:= by
  have := weight_le_weight hw fun v _ hv => h hv
  unfold IsQuorum at *
  omega

omit hw

theorem weight_union_add_inter (members : Finset V) (w : V → ℤ) (s t : Set V) :
    weight members w (s ∪ t) + weight members w (s ∩ t) =
      weight members w s + weight members w t := by
  unfold weight
  rw [← Finset.sum_add_distrib, ← Finset.sum_add_distrib]
  refine Finset.sum_congr rfl fun v _ => ?_
  exact congrFun (Set.indicator_union_add_inter w s t) v

include hw

variable (htotal : ∑ v ∈ members, w v ≤ total)
include htotal

theorem weight_le_total (s : Set V) : weight members w s ≤ total:= by
  refine le_trans (Finset.sum_le_sum fun v hv => ?_) htotal
  by_cases hs : v ∈ s
  · rw [Set.indicator_of_mem hs]
  · rw [Set.indicator_of_notMem hs]
    exact hw v hv

theorem IsQuorum.exists_honest {faulty : Set V} (hfaulty : 3 * weight members w faulty < total)
    (hs : IsQuorum members w total s) (ht : IsQuorum members w total t) :
    ∃ v ∈ members, v ∉ faulty ∧ v ∈ s ∧ v ∈ t := by
  by_contra hno
  have hunion := weight_le_total hw htotal (s ∪ t)
  have hsum := weight_union_add_inter members w s t
  -- every shared member is faulty, so the shared weight is below a third
  have hinter : weight members w (s ∩ t) ≤ weight members w faulty := by
    refine weight_le_weight hw fun v hv hst => ?_
    by_contra hf
    exact hno ⟨v, hv, hf, hst.1, hst.2⟩
  unfold IsQuorum at hs ht
  omega

theorem IsQuorum.exists_mem_third (ht : total ≤ 3 * weight members w t)
    (hs : IsQuorum members w total s) : ∃ v ∈ members, v ∈ s ∧ v ∈ t := by
  by_contra hno
  have hunion := weight_le_total hw htotal (s ∪ t)
  have hsum := weight_union_add_inter members w s t
  have hinter : weight members w (s ∩ t) = 0 := by
    refine Finset.sum_eq_zero fun v hv => Set.indicator_of_notMem (fun hst => ?_) w
    exact hno ⟨v, hv, hst.1, hst.2⟩
  unfold IsQuorum at hs
  omega

end Quorum
