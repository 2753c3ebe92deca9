/-
Validator sets and stake majorities (core/validator.go).
-/
import ThetaSubchain.Core.Vote
import ThetaSubchain.Lib.Quorum

namespace ThetaSubchain

structure Validator where
  address : Address
  stake : Int
deriving DecidableEq, Repr

structure ValidatorSet where
  dynasty : Int
  validators : List Validator
deriving DecidableEq, Repr

namespace ValidatorSet

def new (dynasty : Int) : ValidatorSet := ⟨dynasty, []⟩

def size (s : ValidatorSet) : Nat := s.validators.length

def getValidator (s : ValidatorSet) (id : Address) : Option Validator :=
  s.validators.find? (fun v => v.address == id)

def addValidator (s : ValidatorSet) (v : Validator) : ValidatorSet :=
  { s with
    validators := (s.validators ++ [v]).insertionSort (fun a b => a.address ≤ b.address) }

def totalStake (s : ValidatorSet) : Int := (s.validators.map Validator.stake).sum

def stakeOf (s : ValidatorSet) (id : Address) : Int :=
  match s.getValidator id with
  | some v => v.stake
  | none => 0

def hasMajorityVotes (s : ValidatorSet) (votes : List Vote) : Bool :=
  decide ((votes.map fun v => s.stakeOf v.id).sum * 3 > s.totalStake * 2)

def hasMajority (ord : MapOrder) (s : ValidatorSet) (votes : VoteSet) : Bool :=
  s.hasMajorityVotes (votes.votes ord)

def equals (s t : ValidatorSet) : Bool :=
  s.dynasty == t.dynasty && s.validators == t.validators

theorem eq_of_equals {s t : ValidatorSet} (h : s.equals t = true) : s = t := by
  obtain ⟨d, v⟩ := s
  obtain ⟨d', v'⟩ := t
  simp only [equals, Bool.and_eq_true, beq_iff_eq] at h
  rw [h.1, h.2]

end ValidatorSet

def VoteSet.filterByValidators (s : VoteSet) (vs : ValidatorSet) : VoteSet where
  entries := s.entries.filter fun v => (vs.getValidator v.id).isSome
  distinct := s.distinct.sublist (List.filter_sublist.map _)

namespace ValidatorSet

def members (s : ValidatorSet) : Finset Address := (s.validators.map Validator.address).toFinset

def NonNeg (s : ValidatorSet) : Prop := ∀ v ∈ s.validators, 0 ≤ v.stake

instance (s : ValidatorSet) : Decidable s.NonNeg :=
  inferInstanceAs (Decidable (∀ v ∈ s.validators, 0 ≤ v.stake))

variable {s : ValidatorSet}

theorem stakeOf_nonneg (hs : s.NonNeg) (id : Address) : 0 ≤ s.stakeOf id := by
  unfold stakeOf
  split
  · next v hv => exact hs v (List.mem_of_find?_eq_some hv)
  · exact le_rfl

theorem stakeOf_of_notMem {id : Address} (h : id ∉ s.members) : s.stakeOf id = 0 := by
  unfold stakeOf
  split
  · next v hv =>
    refine absurd ?_ h
    have hid : v.address = id := by simpa using List.find?_some hv
    rw [members, List.mem_toFinset, ← hid]
    exact List.mem_map_of_mem (List.mem_of_find?_eq_some hv)
  · rfl

/-- Counting each address once never exceeds the total: the first validator of an
address is one of its validators. -/
theorem sum_stakeOf_le (hs : s.NonNeg) : ∑ a ∈ s.members, s.stakeOf a ≤ s.totalStake := by
  obtain ⟨dynasty, vs⟩ := s
  unfold NonNeg at hs
  induction vs with
  | nil => simp [members, totalStake]
  | cons v vs ih =>
    have hrest := ih fun w hw => hs w (by simp [hw])
    have hv := hs v (by simp)
    have hhead : stakeOf ⟨dynasty, v :: vs⟩ v.address = v.stake := by
      simp [stakeOf, getValidator]
    have htail : ∀ a, a ≠ v.address →
        stakeOf ⟨dynasty, v :: vs⟩ a = stakeOf ⟨dynasty, vs⟩ a := by
      intro a ha
      have hne : (v.address == a) = false := by simpa using ha.symm
      simp [stakeOf, getValidator, hne]
    have hmem : members ⟨dynasty, v :: vs⟩ = insert v.address (members ⟨dynasty, vs⟩) := by
      simp [members]
    have htotal : totalStake ⟨dynasty, v :: vs⟩ = v.stake + totalStake ⟨dynasty, vs⟩ := by
      simp [totalStake]
    rw [htotal, hmem]
    by_cases hin : v.address ∈ members ⟨dynasty, vs⟩
    · rw [Finset.insert_eq_of_mem hin]
      have hold := stakeOf_nonneg (s := ⟨dynasty, vs⟩) (fun w hw => hs w (by simp [hw]))
        v.address
      have hsame : ∑ a ∈ (members ⟨dynasty, vs⟩).erase v.address, stakeOf ⟨dynasty, v :: vs⟩ a =
          ∑ a ∈ (members ⟨dynasty, vs⟩).erase v.address, stakeOf ⟨dynasty, vs⟩ a :=
        Finset.sum_congr rfl fun a ha => htail a (Finset.ne_of_mem_erase ha)
      rw [← Finset.add_sum_erase _ _ hin] at hrest ⊢
      omega
    · have hsame : ∑ a ∈ members ⟨dynasty, vs⟩, stakeOf ⟨dynasty, v :: vs⟩ a =
          ∑ a ∈ members ⟨dynasty, vs⟩, stakeOf ⟨dynasty, vs⟩ a :=
        Finset.sum_congr rfl fun a ha => htail a fun h => hin (h ▸ ha)
      rw [Finset.sum_insert hin]
      omega

theorem sum_votes_eq_weight (s : ValidatorSet) {votes : List Vote}
    (hv : (votes.map Vote.id).Nodup) :
    (votes.map fun v => s.stakeOf v.id).sum =
      Quorum.weight s.members s.stakeOf {a | ∃ v ∈ votes, v.id = a} := by
  have hlist : (votes.map fun v => s.stakeOf v.id).sum =
      ∑ a ∈ (votes.map Vote.id).toFinset, s.stakeOf a := by
    rw [List.sum_toFinset _ hv, List.map_map]
    rfl
  have hset : ∀ a, a ∈ (votes.map Vote.id).toFinset ↔ a ∈ {a | ∃ v ∈ votes, v.id = a} := by
    intro a
    simp
  rw [hlist, Quorum.weight]
  -- voters outside the set have no stake
  have hsub : s.members ∩ (votes.map Vote.id).toFinset ⊆ (votes.map Vote.id).toFinset :=
    Finset.inter_subset_right
  rw [← Finset.sum_subset hsub
    (fun a ha hna => stakeOf_of_notMem fun hm => hna (Finset.mem_inter.2 ⟨hm, ha⟩))]
  rw [Finset.sum_indicator_eq_sum_filter]
  refine Finset.sum_congr ?_ fun _ _ => rfl
  ext a
  rw [Finset.mem_inter, Finset.mem_filter, hset]

theorem isQuorum_of_hasMajorityVotes {votes : List Vote} (hv : (votes.map Vote.id).Nodup) :
    s.hasMajorityVotes votes = true ↔
      Quorum.IsQuorum s.members s.stakeOf s.totalStake {a | ∃ v ∈ votes, v.id = a} := by
  rw [hasMajorityVotes, sum_votes_eq_weight s hv, Quorum.IsQuorum, decide_eq_true_iff]
  omega

theorem hasMajority_uniqueVoter_iff (s : ValidatorSet) (ord ord' : MapOrder) (votes : VoteSet) :
    s.hasMajority ord (votes.uniqueVoter ord') = true ↔
      Quorum.IsQuorum s.members s.stakeOf s.totalStake {i | ∃ v ∈ votes, v.id = i} := by
  have hperm := VoteSet.votes_perm ord (votes.uniqueVoter ord')
  have hnodup := (VoteSet.uniqueVoter_spec ord' votes).2.1
  rw [hasMajority, isQuorum_of_hasMajorityVotes ((hperm.map _).nodup_iff.2 hnodup)]
  have hset : {a | ∃ v ∈ (votes.uniqueVoter ord').votes ord, v.id = a} =
      {i | ∃ v ∈ votes, v.id = i} := by
    ext i
    rw [Set.mem_ofPred_eq, Set.mem_ofPred_eq, ← VoteSet.voter_uniqueVoter ord' votes i]
    simp only [VoteSet.mem_votes]
  rw [hset]

end ValidatorSet

end ThetaSubchain
