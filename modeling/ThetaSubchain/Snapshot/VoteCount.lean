/-
How `HasMajority` counts the votes of a vote set.

A voter with votes in two epochs counts twice.  The consensus engine consolidates its vote sets
first; the import of a snapshot does not.
-/
import ThetaSubchain.Snapshot.Acceptance

namespace ThetaSubchain

open Quorum ValidatorSet List

def VoteSet.voters (votes : VoteSet) : Set Address := {a | ∃ v ∈ votes, v.id = a}

namespace ValidatorSet

def HasQuorum (vs : ValidatorSet) (votes : VoteSet) : Prop :=
  IsQuorum vs.members vs.stakeOf vs.totalStake votes.voters

def DistinctAddresses (vs : ValidatorSet) : Prop := (vs.validators.map Validator.address).Nodup

theorem hasMajority_iff_sum (vs : ValidatorSet) (ord : MapOrder) (votes : VoteSet) :
    vs.hasMajority ord votes = true ↔
      2 * vs.totalStake < 3 * (votes.entries.map fun v => vs.stakeOf v.id).sum := by
  rw [hasMajority, hasMajorityVotes, decide_eq_true_iff,
    ((VoteSet.votes_perm ord votes).map _).sum_eq]
  omega

variable {vs : ValidatorSet}

theorem weight_singleton_le (hs : vs.NonNeg) (a : Address) :
    weight vs.members vs.stakeOf {a} ≤ vs.stakeOf a := by
  unfold weight
  by_cases ha : a ∈ vs.members
  · have hothers : ∀ b ∈ vs.members, b ≠ a → ({a} : Set Address).indicator vs.stakeOf b = 0 := by
      intro b _ hb
      have hnot : b ∉ ({a} : Set Address) := hb
      exact Set.indicator_of_notMem hnot _
    rw [Finset.sum_eq_single_of_mem a ha hothers, Set.indicator_of_mem (Set.mem_singleton a)]
  · rw [Finset.sum_eq_zero]
    · exact stakeOf_nonneg hs a
    · intro b hb
      refine Set.indicator_of_notMem ?_ _
      rintro rfl
      exact ha hb

theorem weight_le_sum_votes (hs : vs.NonNeg) (votes : List Vote) :
    weight vs.members vs.stakeOf {a | ∃ v ∈ votes, v.id = a} ≤
      (votes.map fun v => vs.stakeOf v.id).sum := by
  induction votes with
  | nil => simp [weight]
  | cons v votes ih =>
    have hset : {a | ∃ w ∈ v :: votes, w.id = a} = {v.id} ∪ {a | ∃ w ∈ votes, w.id = a} := by
      ext a
      simp [eq_comm]
    have hunion := weight_union_add_inter vs.members vs.stakeOf {v.id}
      {a | ∃ w ∈ votes, w.id = a}
    have hinter : 0 ≤ weight vs.members vs.stakeOf ({v.id} ∩ {a | ∃ w ∈ votes, w.id = a}) :=
      Finset.sum_nonneg fun b _ => Set.indicator_apply_nonneg fun _ => stakeOf_nonneg hs b
    have hone := weight_singleton_le hs v.id
    rw [hset, map_cons, sum_cons]
    omega

theorem hasMajority_of_hasQuorum (hs : vs.NonNeg) (ord : MapOrder) {votes : VoteSet}
    (h : vs.HasQuorum votes) : vs.hasMajority ord votes = true := by
  rw [hasMajority_iff_sum]
  have hle := weight_le_sum_votes hs votes.entries
  unfold HasQuorum IsQuorum VoteSet.voters at h
  change 2 * vs.totalStake <
    3 * weight vs.members vs.stakeOf {a | ∃ v ∈ votes.entries, v.id = a} at h
  omega

theorem sum_stakeOf_eq (hd : vs.DistinctAddresses) :
    ∑ a ∈ vs.members, vs.stakeOf a = vs.totalStake := by
  have hfind : ∀ v ∈ vs.validators, vs.stakeOf v.address = v.stake := by
    intro v hv
    unfold stakeOf getValidator
    cases hfound : vs.validators.find? fun w => w.address == v.address with
    | none =>
      have hno := find?_eq_none.mp hfound v hv
      simp at hno
    | some w =>
      have haddr : w.address = v.address := by simpa using find?_some hfound
      rw [inj_on_of_nodup_map hd (mem_of_find?_eq_some hfound) hv haddr]
  rw [members, sum_toFinset _ hd, map_map, totalStake]
  exact congrArg sum (map_congr_left hfind)

theorem hasQuorum_of_all (hd : vs.DistinctAddresses) (hs : vs.NonNeg) {votes : VoteSet}
    (hall : ∀ a, a ∈ votes.voters) {ord : MapOrder} (h : vs.hasMajority ord votes = true) :
    vs.HasQuorum votes := by
  have htotal := sum_stakeOf_eq hd
  have hweight : weight vs.members vs.stakeOf votes.voters = vs.totalStake := by
    rw [← htotal]
    exact Finset.sum_congr rfl fun a _ => Set.indicator_of_mem (hall a) _
  have hnonneg : 0 ≤ vs.totalStake := by
    rw [← htotal]
    exact Finset.sum_nonneg fun a _ => stakeOf_nonneg hs a
  have hpos : vs.totalStake ≠ 0 := by
    intro hzero
    -- without stake no vote counts
    have hnone : ∀ a, vs.stakeOf a = 0 := by
      intro a
      by_cases ha : a ∈ vs.members
      · have hle := Finset.single_le_sum (fun b _ => stakeOf_nonneg hs b) ha
        have hge := stakeOf_nonneg hs a
        omega
      · exact stakeOf_of_notMem ha
    rw [hasMajority_iff_sum, hzero] at h
    simp [hnone] at h
  unfold HasQuorum IsQuorum
  rw [hweight]
  omega

end ValidatorSet

namespace Snapshot

/-- The majority test and the validation of votes agree with the distinct voters, for every
validator set. -/
def CountsOnce (votes : VoteSet) : Prop :=
  ∀ vs : ValidatorSet, vs.DistinctAddresses → vs.NonNeg →
    (∀ ord, vs.hasMajority ord votes = true ↔ vs.HasQuorum votes) ∧
      ∀ cfg block, validateVotes cfg vs block votes = .ok () → vs.HasQuorum votes

variable {votes : VoteSet}

theorem hasMajority_of_validateVotes {cfg : SnapshotConfig} {vs : ValidatorSet}
    {block : BlockHeader} (h : validateVotes cfg vs block votes = .ok ()) :
    vs.hasMajority cfg.ord votes = true := by
  unfold validateVotes at h
  split at h
  · cases h
  · next hmajority => simpa using hmajority

theorem hasQuorum_of_distinctVoters {vs : ValidatorSet} (hvotes : DistinctVoters votes)
    {ord : MapOrder} (h : vs.hasMajority ord votes = true) : vs.HasQuorum votes := by
  rw [hasMajority_iff_sum, vs.sum_votes_eq_weight hvotes] at h
  exact h

def twoValidators (a b : Address) : ValidatorSet := ⟨0, [⟨a, 1⟩, ⟨b, 1⟩]⟩

theorem overcounted {a b : Address} (hb : b ∉ votes.voters)
    (ha : 2 ≤ (votes.entries.map Vote.id).count a) (ord : MapOrder) :
    (twoValidators a b).hasMajority ord votes = true ∧
      ¬ (twoValidators a b).HasQuorum votes := by
  have hmem : a ∈ votes.entries.map Vote.id := count_pos_iff.mp (by omega)
  obtain ⟨v, hv, hva⟩ := mem_map.mp hmem
  have hne : a ≠ b := fun h => hb ⟨v, hv, hva.trans h⟩
  have htotal : (twoValidators a b).totalStake = 2 := rfl
  have hstakeA : (twoValidators a b).stakeOf a = 1 := by
    simp [twoValidators, stakeOf, getValidator]
  constructor
  · have hsum : ∀ l : List Vote, ((l.map Vote.id).count a : Int) ≤
        (l.map fun v => (twoValidators a b).stakeOf v.id).sum := by
      intro l
      induction l with
      | nil => simp
      | cons w l ih =>
        rw [map_cons, map_cons, sum_cons, count_cons]
        by_cases hw : w.id = a
        · rw [hw, hstakeA, if_pos (beq_self_eq_true a)]
          omega
        · have hnonneg : 0 ≤ (twoValidators a b).stakeOf w.id :=
            stakeOf_nonneg (by simp [twoValidators, ValidatorSet.NonNeg]) _
          rw [if_neg (by simpa using hw)]
          omega
    have hle := hsum votes.entries
    rw [hasMajority_iff_sum, htotal]
    omega
  · unfold ValidatorSet.HasQuorum IsQuorum
    have hmembers : (twoValidators a b).members = {a, b} := by
      simp [twoValidators, members]
    rw [hmembers, weight, Finset.sum_pair hne, Set.indicator_of_notMem hb,
      Set.indicator_of_mem (show a ∈ votes.voters from ⟨v, hv, hva⟩), hstakeA, htotal]
    omega

/-- The votes are counted once each for every validator set exactly if no voter has two votes,
or if there is no address without a vote. -/
theorem countsOnce_iff (votes : VoteSet) :
    CountsOnce votes ↔ DistinctVoters votes ∨ ∀ a, a ∈ votes.voters := by
  constructor
  · intro h
    by_contra hnot
    rw [not_or, not_forall] at hnot
    obtain ⟨hdup, b, hb⟩ := hnot
    rw [DistinctVoters, nodup_iff_count_le_one, not_forall] at hdup
    obtain ⟨a, ha⟩ := hdup
    obtain ⟨hmajority, hquorum⟩ := overcounted hb (not_le.mp ha) .id
    have hne : a ≠ b := by
      rintro rfl
      have hmem : a ∈ votes.entries.map Vote.id := count_pos_iff.mp (by omega)
      obtain ⟨v, hv, hva⟩ := mem_map.mp hmem
      exact hb ⟨v, hv, hva⟩
    have hcounts := h (twoValidators a b)
      (by simpa [twoValidators, ValidatorSet.DistinctAddresses] using hne)
      (by simp [twoValidators, ValidatorSet.NonNeg])
    exact hquorum ((hcounts.1 .id).mp hmajority)
  · intro h vs hd hs
    have hcounted : ∀ ord, vs.hasMajority ord votes = true → vs.HasQuorum votes := by
      intro ord hmajority
      rcases h with hvotes | hall
      · exact hasQuorum_of_distinctVoters hvotes hmajority
      · exact hasQuorum_of_all hd hs hall hmajority
    exact ⟨fun ord => ⟨hcounted ord, hasMajority_of_hasQuorum hs ord⟩,
      fun cfg block hok => hcounted cfg.ord (hasMajority_of_validateVotes hok)⟩

def repeatedVotes : VoteSet :=
  (VoteSet.empty.addVote (plainVote 5)).addVote { plainVote 5 with epoch := 1 }

/-- One of two validators with the same stake reaches the majority alone, and the votes are
accepted for the block. -/
theorem repeatedVotes_accepted :
    (twoValidators 7 8).DistinctAddresses ∧ (twoValidators 7 8).NonNeg ∧
      (twoValidators 7 8).hasMajority .id repeatedVotes = true ∧
      validateVotes plainConfig (twoValidators 7 8) (plainHeader 4 0 none) repeatedVotes =
        .ok () ∧
      ¬ (twoValidators 7 8).HasQuorum repeatedVotes := by
  have hfree : (8 : Address) ∉ repeatedVotes.voters := by
    have hids : ∀ v ∈ repeatedVotes.entries, v.id ≠ 8 := by decide
    rintro ⟨v, hv, h⟩
    exact hids v hv h
  obtain ⟨hmajority, hquorum⟩ := overcounted (a := 7) hfree (by decide) .id
  refine ⟨?_, by decide, hmajority, by decide, hquorum⟩
  show List.Nodup _
  decide

end Snapshot

end ThetaSubchain
