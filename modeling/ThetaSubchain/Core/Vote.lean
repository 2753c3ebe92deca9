/-
Votes and vote sets (core/vote.go).

A vote set is a Go map keyed by voter, block and epoch.  It is kept here as a list
with pairwise distinct keys.  The iteration order of a Go map is unspecified, so
each function that ranges over the map takes the order as an argument.
-/
import ThetaSubchain.Core.Types

namespace ThetaSubchain

open Rlp (Item)
open List Rlp

structure Vote where
  block : Hash
  height : UInt64
  mainchainHeight : UInt64
  epoch : UInt64
  id : Address
  signature : Option Signature
deriving DecidableEq, Repr

namespace Vote

def zero : Vote := ⟨0, 0, 0, 0, 0, none⟩

def toItem (v : Vote) : Item :=
  .list [v.block.toItem, .uint v.height.toNat, .uint v.mainchainHeight.toNat,
    .uint v.epoch.toNat, v.id.toItem, signatureItem v.signature]

/-- The bytes that are signed: block, epoch and voter, every other field zero. -/
def signBytes (v : Vote) : Bytes :=
  Rlp.encode { zero with block := v.block, epoch := v.epoch, id := v.id }.toItem

def validate (verify : Verifier) (v : Vote) : Result :=
  if v.block.isEmpty then .error "Block is not specified"
  else if v.id.isEmpty then .error "Voter is not specified"
  else match v.signature with
    | none => .error "Vote is not signed"
    | some sig =>
      if sig.isEmpty then .error "Vote is not signed"
      else if !verify sig v.signBytes v.id then .error "Signature verification failed"
      else .ok

def key (v : Vote) : Address × Hash × UInt64 := (v.id, v.block, v.epoch)

theorem validate_block {verify : Verifier} {v : Vote} (h : (v.validate verify).isError = false) :
    v.block.isEmpty = false := by
  unfold validate at h
  split at h
  · simp [Result.isError] at h
  · simpa using ‹¬ v.block.isEmpty = true›

theorem verify_of_validate {verify : Verifier} {v : Vote}
    (h : (v.validate verify).isError = false) :
    ∃ sig, v.signature = some sig ∧ verify sig v.signBytes v.id = true := by
  unfold validate at h
  split at h
  · cases h
  split at h
  · cases h
  cases hsig : v.signature with
  | none =>
    rw [hsig] at h
    cases h
  | some sig =>
    rw [hsig] at h
    refine ⟨sig, rfl, ?_⟩
    dsimp only at h
    split at h
    · cases h
    split at h
    · cases h
    · next hv => simpa using hv

theorem length_signBytes_lt (v : Vote) : v.signBytes.length < 2 ^ 64 := by
  have hblock := length_encodeStr_le (b := fixedBytes 32 v.block.toNat) (by simp)
  have hid := length_encodeStr_le (b := fixedBytes 20 v.id.toNat) (by simp)
  have hepoch := length_encode_uint_le v.epoch.toNat_lt
  have hzero : (encode (.uint 0)).length = 1 := by simp [Item.uint, encode, beBytes,
    encodeStr, header]
  have hnone : (encode (signatureItem none)).length = 1 := by
    simp [signatureItem, encode, encodeStr, header]
  rw [length_fixedBytes] at hblock hid
  unfold signBytes toItem
  refine lt_of_le_of_lt (length_encode_list_le ?_) ?_
  all_goals
    simp only [encodeList, length_append, length_nil, zero, hnone, Hash.toItem,
      Address.toItem, Item.fixed, encode, UInt64.toNat_zero, hzero]
    omega

theorem block_eq_of_signBytes {v w : Vote} (h : v.signBytes = w.signBytes) : v.block = w.block := by
  have hitem := encode_inj v.length_signBytes_lt w.length_signBytes_lt h
  simp only [toItem, Item.list.injEq, cons.injEq] at hitem
  exact Hash.toItem_injective hitem.1

end Vote

structure MapOrder where
  iter : List Vote → List Vote
  perm : ∀ l, (iter l).Perm l

def MapOrder.id : MapOrder := ⟨fun l => l, fun _ => List.Perm.refl _⟩

@[simp] theorem MapOrder.mem_iter (ord : MapOrder) {l : List Vote} {v : Vote} :
    v ∈ ord.iter l ↔ v ∈ l := (ord.perm l).mem_iff

structure VoteSet where
  entries : List Vote
  distinct : (entries.map Vote.key).Nodup
deriving DecidableEq

namespace VoteSet

instance : Membership Vote VoteSet := ⟨fun s v => v ∈ s.entries⟩

instance (v : Vote) (s : VoteSet) : Decidable (v ∈ s) :=
  inferInstanceAs (Decidable (v ∈ s.entries))

def empty : VoteSet := ⟨[], List.nodup_nil⟩

def addVote (s : VoteSet) (v : Vote) : VoteSet where
  entries := s.entries.filter (fun w => w.key ≠ v.key) ++ [v]
  distinct := by
    rw [List.map_append, List.map_singleton, List.nodup_append]
    refine ⟨?_, List.nodup_singleton _, ?_⟩
    · exact s.distinct.sublist (List.filter_sublist.map _)
    · intro a ha b hb
      obtain ⟨w, hw, rfl⟩ := List.mem_map.1 ha
      rw [List.mem_singleton.1 hb]
      simpa using (List.mem_filter.1 hw).2

def size (s : VoteSet) : Nat := s.entries.length

def isEmpty (s : VoteSet) : Bool := s.size == 0

variable (ord : MapOrder)

def votes (s : VoteSet) : List Vote :=
  (ord.iter s.entries).insertionSort (fun a b => a.id ≤ b.id)

def addVotes (s : VoteSet) (vs : List Vote) : VoteSet := vs.foldl addVote s

def merge (s t : VoteSet) : VoteSet :=
  (empty.addVotes (s.votes ord)).addVotes (t.votes ord)

/-- One step of the loop that keeps, for each value of `k`, a vote of the latest
epoch.  A vote that is not newer than the one kept is skipped. -/
def keepLatest {κ : Type} [DecidableEq κ] (k : Vote → κ) (kept : List Vote) (v : Vote) :
    List Vote :=
  match kept.find? (fun w => k w = k v) with
  | some prev =>
    if prev.epoch ≥ v.epoch then kept else kept.filter (fun w => k w ≠ k v) ++ [v]
  | none => kept ++ [v]

def consolidate {κ : Type} [DecidableEq κ] (k : Vote → κ) (ord : MapOrder) (s : VoteSet) :
    VoteSet :=
  empty.addVotes (ord.iter ((ord.iter s.entries).foldl (keepLatest k) []))

def uniqueVoterAndBlock (s : VoteSet) : VoteSet :=
  s.consolidate (fun v => (v.id, v.block)) ord

def uniqueVoter (s : VoteSet) : VoteSet := s.consolidate (·.id) ord

variable {s : VoteSet}

theorem mem_def {v : Vote} : v ∈ s ↔ v ∈ s.entries := Iff.rfl

@[simp] theorem not_mem_empty (v : Vote) : v ∉ empty := by simp [mem_def, empty]

@[simp] theorem mem_addVote {v w : Vote} : w ∈ s.addVote v ↔ (w ∈ s ∧ w.key ≠ v.key) ∨ w = v := by
  simp [mem_def, addVote]

theorem mem_addVotes {vs : List Vote} {w : Vote} (h : w ∈ s.addVotes vs) : w ∈ s ∨ w ∈ vs := by
  induction vs generalizing s with
  | nil => exact .inl h
  | cons v vs ih =>
    rcases ih h with h | h
    · rcases mem_addVote.1 h with h | rfl
      · exact .inl h.1
      · exact .inr (by simp)
    · exact .inr (by simp [h])

theorem entries_addVotes {vs : List Vote} (hvs : (vs.map Vote.key).Nodup)
    (hnew : ∀ v ∈ vs, v.key ∉ s.entries.map Vote.key) :
    (s.addVotes vs).entries = s.entries ++ vs := by
  induction vs generalizing s with
  | nil => simp [addVotes]
  | cons v vs ih =>
    rw [map_cons, nodup_cons] at hvs
    have hadd : (s.addVote v).entries = s.entries ++ [v] := by
      have hkeep : ∀ w ∈ s.entries, decide (w.key ≠ v.key) = true := by
        intro w hw
        rw [decide_eq_true_iff]
        exact fun heq => hnew v (by simp) (heq ▸ mem_map_of_mem hw)
      show s.entries.filter _ ++ [v] = s.entries ++ [v]
      rw [filter_eq_self.2 hkeep]
    show ((s.addVote v).addVotes vs).entries = _
    rw [ih hvs.2, hadd, append_assoc, singleton_append]
    intro w hw
    rw [hadd, map_append, mem_append, not_or]
    refine ⟨hnew w (by simp [hw]), ?_⟩
    rw [map_singleton, mem_singleton]
    exact fun heq => hvs.1 (heq ▸ mem_map_of_mem hw)

@[simp] theorem mem_votes {ord : MapOrder} {v : Vote} : v ∈ s.votes ord ↔ v ∈ s := by
  rw [votes, mem_insertionSort, MapOrder.mem_iter, mem_def]

theorem votes_perm (ord : MapOrder) (s : VoteSet) : (s.votes ord).Perm s.entries :=
  (perm_insertionSort _ _).trans (ord.perm _)

section Consolidate

variable {κ : Type} [DecidableEq κ] {k : Vote → κ}

variable {kept : List Vote}

theorem mem_keepLatest {v w : Vote} (h : w ∈ keepLatest k kept v) : w ∈ kept ∨ w = v := by
  unfold keepLatest at h
  split at h
  · split at h
    · exact .inl h
    · rcases mem_append.1 h with h | h
      · exact .inl (mem_filter.1 h).1
      · exact .inr (mem_singleton.1 h)
  · rcases mem_append.1 h with h | h
    · exact .inl h
    · exact .inr (mem_singleton.1 h)

theorem nodup_keepLatest {v : Vote} (h : (kept.map k).Nodup) :
    ((keepLatest k kept v).map k).Nodup := by
  have happend : ∀ l : List Vote, (l.map k).Nodup → (∀ w ∈ l, k w ≠ k v) →
      ((l ++ [v]).map k).Nodup := by
    intro l hl hne
    rw [map_append, map_singleton, nodup_append]
    refine ⟨hl, nodup_singleton _, fun a ha b hb => ?_⟩
    obtain ⟨w, hw, rfl⟩ := mem_map.1 ha
    rw [mem_singleton.1 hb]
    exact hne w hw
  unfold keepLatest
  split
  · split
    · exact h
    · refine happend _ (h.sublist (filter_sublist.map _)) fun w hw => ?_
      simpa using (mem_filter.1 hw).2
  · next hnone =>
    refine happend _ h fun w hw => ?_
    simpa using find?_eq_none.1 hnone w hw

theorem exists_keepLatest {v : Vote} {x : κ} (h : (∃ w ∈ kept, k w = x) ∨ k v = x) :
    ∃ w ∈ keepLatest k kept v, k w = x := by
  unfold keepLatest
  split
  · next prev hprev =>
    have hmem := mem_of_find?_eq_some hprev
    have hk : k prev = k v := by simpa using find?_some hprev
    split
    · rcases h with h | rfl
      · exact h
      · exact ⟨prev, hmem, hk⟩
    · rcases h with ⟨w, hw, rfl⟩ | rfl
      · by_cases hwv : k w = k v
        · exact ⟨v, by simp, hwv.symm⟩
        · exact ⟨w, by simp [hw, hwv], rfl⟩
      · exact ⟨v, by simp, rfl⟩
  · rcases h with ⟨w, hw, rfl⟩ | rfl
    · exact ⟨w, by simp [hw], rfl⟩
    · exact ⟨v, by simp, rfl⟩

/-- The loop over all votes: what it keeps comes from the votes, has distinct values
of `k`, and represents every value. -/
theorem foldl_keepLatest (vs kept : List Vote) (hk : (kept.map k).Nodup) :
    (∀ w ∈ vs.foldl (keepLatest k) kept, w ∈ kept ∨ w ∈ vs) ∧
      ((vs.foldl (keepLatest k) kept).map k).Nodup ∧
      ∀ w, w ∈ kept ∨ w ∈ vs → ∃ u ∈ vs.foldl (keepLatest k) kept, k u = k w := by
  induction vs generalizing kept with
  | nil => exact ⟨fun w hw => .inl hw, hk, fun w hw => ⟨w, by simpa using hw, rfl⟩⟩
  | cons v vs ih =>
    obtain ⟨h1, h2, h3⟩ := ih (keepLatest k kept v) (nodup_keepLatest hk)
    refine ⟨fun w hw => ?_, h2, fun w hw => ?_⟩
    · rcases h1 w hw with h | h
      · rcases mem_keepLatest h with h | rfl
        · exact .inl h
        · exact .inr (by simp)
      · exact .inr (by simp [h])
    · have hstep : (∃ u ∈ keepLatest k kept v, k u = k w) ∨ w ∈ vs := by
        rcases hw with hw | hw
        · exact .inl (exists_keepLatest (.inl ⟨w, hw, rfl⟩))
        · rcases mem_cons.1 hw with rfl | hw
          · exact .inl (exists_keepLatest (.inr rfl))
          · exact .inr hw
      rcases hstep with ⟨u, hu, huw⟩ | hw
      · obtain ⟨x, hx, hxu⟩ := h3 u (.inl hu)
        exact ⟨x, hx, hxu.trans huw⟩
      · exact h3 w (.inr hw)

theorem entries_consolidate (hk : ∀ v w : Vote, v.key = w.key → k v = k w) (ord : MapOrder)
    (s : VoteSet) :
    (s.consolidate k ord).entries = ord.iter ((ord.iter s.entries).foldl (keepLatest k) []) := by
  have hperm := ord.perm ((ord.iter s.entries).foldl (keepLatest k) [])
  have hnodup : ((ord.iter ((ord.iter s.entries).foldl (keepLatest k) [])).map k).Nodup :=
    (hperm.map k).nodup_iff.2 (foldl_keepLatest (ord.iter s.entries) [] (by simp)).2.1
  have hkeys : ((ord.iter ((ord.iter s.entries).foldl (keepLatest k) [])).map
      Vote.key).Nodup := by
    refine List.Nodup.of_map (fun x => x) ?_
    rw [map_id']
    refine pairwise_map.2 ?_
    refine (pairwise_map.1 hnodup).imp ?_
    intro v w hne heq
    exact hne (hk v w heq)
  rw [consolidate, entries_addVotes hkeys (by simp [empty])]
  rfl

theorem consolidate_spec (hk : ∀ v w : Vote, v.key = w.key → k v = k w) (ord : MapOrder)
    (s : VoteSet) :
    (∀ w, w ∈ s.consolidate k ord → w ∈ s) ∧ ((s.consolidate k ord).entries.map k).Nodup ∧
      ∀ w, w ∈ s → ∃ u, u ∈ s.consolidate k ord ∧ k u = k w := by
  obtain ⟨h1, h2, h3⟩ := foldl_keepLatest (k := k) (ord.iter s.entries) [] (by simp)
  have hentries := entries_consolidate hk ord s
  refine ⟨fun w hw => ?_, ?_, fun w hw => ?_⟩
  · rw [mem_def, hentries, MapOrder.mem_iter] at hw
    have := (h1 w hw).resolve_left (by simp)
    exact ord.mem_iter.1 this
  · rw [hentries]
    exact ((ord.perm _).map k).nodup_iff.2 h2
  · obtain ⟨u, hu, huw⟩ := h3 w (.inr (ord.mem_iter.2 hw))
    exact ⟨u, by rw [mem_def, hentries, MapOrder.mem_iter]; exact hu, huw⟩

end Consolidate

theorem uniqueVoter_spec (ord : MapOrder) (s : VoteSet) :
    (∀ w, w ∈ s.uniqueVoter ord → w ∈ s) ∧ ((s.uniqueVoter ord).entries.map Vote.id).Nodup ∧
      ∀ w, w ∈ s → ∃ u, u ∈ s.uniqueVoter ord ∧ u.id = w.id :=
  consolidate_spec (fun _ _ h => (Prod.mk.inj h).1) ord s

theorem voter_uniqueVoter (ord : MapOrder) (s : VoteSet) (i : Address) :
    (∃ v ∈ s.uniqueVoter ord, v.id = i) ↔ ∃ v ∈ s, v.id = i := by
  obtain ⟨h1, -, h3⟩ := uniqueVoter_spec ord s
  constructor
  · rintro ⟨v, hv, rfl⟩
    exact ⟨v, h1 v hv, rfl⟩
  · rintro ⟨v, hv, rfl⟩
    obtain ⟨u, hu, huv⟩ := h3 v hv
    exact ⟨u, hu, huv⟩

end VoteSet

end ThetaSubchain
