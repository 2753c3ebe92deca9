/-
Vote sets with and without the votes of some addresses.

The operations on vote sets can be followed on the votes of the remaining voters alone.  The
highest vote is the exception: it is read from all votes.
-/
import ThetaSubchain.Consensus.EpochVotes

namespace ThetaSubchain

open List Engine

section Sorting

variable {α : Type} {r : α → α → Prop} [DecidableRel r] [Std.Total r] [IsTrans α r] {p : α → Bool}

omit [Std.Total r] in
theorem filter_orderedInsert {l : List α} (hl : l.Pairwise r) (a : α) :
    (l.orderedInsert r a).filter p =
      if p a then (l.filter p).orderedInsert r a else l.filter p := by
  induction l with
  | nil => by_cases ha : p a <;> simp [ha]
  | cons b l ih =>
    obtain ⟨hb, hrest⟩ := pairwise_cons.1 hl
    by_cases hab : r a b
    · rw [orderedInsert_cons_of_le _ _ hab]
      by_cases ha : p a
      · rw [filter_cons_of_pos ha, if_pos ha]
        -- everything that is left in the list comes after the new element
        cases hf : (b :: l).filter p with
        | nil => rfl
        | cons c l' =>
          have hc : c ∈ b :: l := mem_of_mem_filter (hf ▸ mem_cons_self)
          have hac : r a c := by
            rcases mem_cons.1 hc with rfl | hc
            · exact hab
            · exact IsTrans.trans _ _ _ hab (hb c hc)
          rw [orderedInsert_cons_of_le _ _ hac]
      · rw [filter_cons_of_neg ha, if_neg ha]
    · rw [orderedInsert_of_not_le _ _ hab]
      by_cases hpb : p b
      · rw [filter_cons_of_pos hpb, ih hrest, filter_cons_of_pos hpb,
          orderedInsert_of_not_le _ _ hab]
        by_cases ha : p a <;> simp [ha]
      · rw [filter_cons_of_neg hpb, ih hrest, filter_cons_of_neg hpb]

theorem filter_insertionSort (l : List α) :
    (l.insertionSort r).filter p = (l.filter p).insertionSort r := by
  induction l with
  | nil => rfl
  | cons a l ih =>
    rw [insertionSort_cons, filter_orderedInsert (pairwise_insertionSort r l), ih]
    by_cases ha : p a
    · rw [if_pos ha, filter_cons_of_pos ha, insertionSort_cons]
    · rw [if_neg ha, filter_cons_of_neg ha]

end Sorting

def others (out : Finset Address) (l : List Vote) : List Vote := l.filter fun v => v.id ∉ out

def MapOrder.Steady (out : Finset Address) (ord : MapOrder) : Prop :=
  ∀ l l', (others out l).Perm (others out l') → others out (ord.iter l) = others out (ord.iter l')

def VoteSet.Alike (out : Finset Address) (s s' : VoteSet) : Prop :=
  (others out s.entries).Perm (others out s'.entries)

section Others

variable {out : Finset Address} {l l' : List Vote} {v : Vote}

@[simp] theorem others_nil : others out [] = [] := rfl

theorem others_cons_of_mem (h : v.id ∈ out) : others out (v :: l) = others out l :=
  filter_cons_of_neg (by simpa using h)

theorem others_cons_of_notMem (h : v.id ∉ out) : others out (v :: l) = v :: others out l :=
  filter_cons_of_pos (by simpa using h)

theorem others_append : others out (l ++ l') = others out l ++ others out l' := filter_append ..

theorem mem_others : v ∈ others out l ↔ v ∈ l ∧ v.id ∉ out := by simp [others]

theorem others_perm (h : l.Perm l') : (others out l).Perm (others out l') := h.filter _

theorem others_filter (p : Vote → Bool) : others out (l.filter p) = (others out l).filter p := by
  rw [others, others, filter_filter, filter_filter]
  exact filter_congr fun v _ => Bool.and_comm _ _

def Vote.rank (v : Vote) : List ℕ :=
  [v.id.toNat, v.block.toNat, v.height.toNat, v.mainchainHeight.toNat, v.epoch.toNat] ++
    match v.signature with
    | none => []
    | some sig => 1 :: sig.bytes.map UInt8.toNat

theorem Vote.rank_injective : Function.Injective Vote.rank := by
  rintro ⟨b, h, m, e, i, s⟩ ⟨b', h', m', e', i', s'⟩ heq
  simp only [Vote.rank, cons_append, nil_append, cons.injEq, BitVec.toNat_inj,
    UInt64.toNat_inj] at heq
  obtain ⟨rfl, rfl, rfl, rfl, rfl, hsig⟩ := heq
  have hs : s = s' := by
    cases s with
    | none =>
      cases s' with
      | none => rfl
      | some sig' => cases hsig
    | some sig =>
      cases s' with
      | none => cases hsig
      | some sig' =>
        have hbytes := map_injective_iff.2 (fun a b => UInt8.toNat_inj.1) (cons.inj hsig).2
        rw [Option.some.injEq, Signature.mk.injEq]
        exact hbytes
  rw [hs]

def MapOrder.sorted : MapOrder :=
  ⟨fun l => l.insertionSort fun v w => v.rank ≤ w.rank, fun l => List.perm_insertionSort _ l⟩

theorem MapOrder.steady_sorted (out : Finset Address) : MapOrder.sorted.Steady out := by
  have htotal : Std.Total fun v w : Vote => v.rank ≤ w.rank :=
    ⟨fun v w => le_total v.rank w.rank⟩
  have htrans : IsTrans Vote fun v w => v.rank ≤ w.rank := ⟨fun _ _ _ h h' => le_trans h h'⟩
  have hantisymm : Std.Antisymm fun v w : Vote => v.rank ≤ w.rank :=
    ⟨fun _ _ h h' => Vote.rank_injective (le_antisymm h h')⟩
  intro l l' h
  show others out (l.insertionSort _) = others out (l'.insertionSort _)
  rw [others, filter_insertionSort, others, filter_insertionSort]
  refine List.Perm.eq_of_pairwise' (pairwise_insertionSort _ _)
    (pairwise_insertionSort _ _) ?_
  exact (perm_insertionSort _ _).trans (h.trans (perm_insertionSort _ _).symm)

namespace VoteSet

variable {s s' : VoteSet}

theorem Alike.refl (out : Finset Address) (s : VoteSet) : Alike out s s := List.Perm.refl _

theorem others_addVote (s : VoteSet) (v : Vote) :
    others out (s.addVote v).entries =
      (others out s.entries).filter (fun w => w.key ≠ v.key) ++ others out [v] := by
  rw [addVote, others_append, others_filter]

theorem others_addVote_of_mem (h : v.id ∈ out) (s : VoteSet) :
    others out (s.addVote v).entries = others out s.entries := by
  rw [others_addVote, others_cons_of_mem h, others_nil, append_nil, filter_eq_self]
  intro w hw
  have hne : w.id ≠ v.id := fun heq => (mem_others.1 hw).2 (heq ▸ h)
  simpa using fun hkey => hne (congrArg Prod.fst hkey)

theorem Alike.addVote (h : s.Alike out s') (v : Vote) : (s.addVote v).Alike out (s'.addVote v) := by
  rw [Alike, others_addVote, others_addVote]
  exact (List.Perm.filter _ h).append_right _

theorem others_addVotes (s : VoteSet) (l : List Vote) :
    others out (s.addVotes l).entries =
      (others out l).foldl (fun es v => es.filter (fun w => w.key ≠ v.key) ++ [v])
        (others out s.entries) := by
  induction l generalizing s with
  | nil => rfl
  | cons v l ih =>
    rw [addVotes, foldl_cons, ← addVotes, ih]
    by_cases hv : v.id ∈ out
    · rw [others_addVote_of_mem hv, others_cons_of_mem hv]
    · rw [others_addVote, others_cons_of_notMem hv, others_nil, others_cons_of_notMem hv,
        foldl_cons]

section Consolidate

variable {κ : Type} [DecidableEq κ] {k : Vote → κ} (hk : ∀ v w : Vote, k v = k w → v.id = w.id)

include hk

theorem find?_others (kept : List Vote) (h : v.id ∉ out) :
    (others out kept).find? (fun w => k w = k v) = kept.find? (fun w => k w = k v) := by
  rw [others, find?_filter]
  congr 1
  funext w
  by_cases hw : k w = k v
  · simp [hw, hk w v hw, h]
  · simp [hw]

theorem others_keepLatest (kept : List Vote) (v : Vote) :
    others out (keepLatest k kept v) =
      if v.id ∈ out then others out kept else keepLatest k (others out kept) v := by
  by_cases hv : v.id ∈ out
  · have hfilter : others out (kept.filter fun w => k w ≠ k v) = others out kept := by
      rw [others_filter, filter_eq_self]
      intro w hw
      simpa using fun heq => (mem_others.1 hw).2 (hk w v heq ▸ hv)
    rw [if_pos hv, keepLatest]
    cases kept.find? (fun w => k w = k v) with
    | none => rw [others_append, others_cons_of_mem hv, others_nil, append_nil]
    | some prev =>
      dsimp only
      split
      · rfl
      · rw [others_append, others_cons_of_mem hv, others_nil, append_nil, hfilter]
  · rw [if_neg hv, keepLatest, keepLatest, find?_others hk kept hv]
    cases kept.find? (fun w => k w = k v) with
    | none => rw [others_append, others_cons_of_notMem hv, others_nil]
    | some prev =>
      dsimp only
      split
      · rfl
      · rw [others_append, others_cons_of_notMem hv, others_nil, others_filter]

theorem others_foldl_keepLatest (l kept : List Vote) :
    others out (l.foldl (keepLatest k) kept) =
      (others out l).foldl (keepLatest k) (others out kept) := by
  induction l generalizing kept with
  | nil => rfl
  | cons v l ih =>
    rw [foldl_cons, ih, others_keepLatest hk]
    by_cases hv : v.id ∈ out
    · rw [if_pos hv, others_cons_of_mem hv]
    · rw [if_neg hv, others_cons_of_notMem hv, foldl_cons]

omit hk in
theorem foldl_keepLatest_of_nodup {l kept : List Vote} (hnodup : (l.map k).Nodup)
    (hnew : ∀ v ∈ l, ∀ w ∈ kept, k w ≠ k v) : l.foldl (keepLatest k) kept = kept ++ l := by
  induction l generalizing kept with
  | nil => simp
  | cons v l ih =>
    obtain ⟨hfresh, hrest⟩ := nodup_cons.1 hnodup
    have hnone : kept.find? (fun w => k w = k v) = none := by
      rw [find?_eq_none]
      intro w hw
      simpa using hnew v mem_cons_self w hw
    have hstep : keepLatest k kept v = kept ++ [v] := by rw [keepLatest, hnone]
    rw [foldl_cons, hstep, ih hrest, append_assoc, singleton_append]
    intro u hu w hw
    rcases mem_append.1 hw with hw | hw
    · exact hnew u (.tail _ hu) w hw
    · rw [mem_singleton.1 hw]
      exact fun heq => hfresh (heq ▸ mem_map_of_mem hu)

theorem others_consolidate {ord : MapOrder} (hord : ord.Steady out) (h : s.Alike out s') :
    others out (s.consolidate k ord).entries = others out (s'.consolidate k ord).entries := by
  have hkept : others out ((ord.iter s.entries).foldl (keepLatest k) []) =
      others out ((ord.iter s'.entries).foldl (keepLatest k) []) := by
    rw [others_foldl_keepLatest hk, others_foldl_keepLatest hk, hord _ _ h]
  rw [consolidate, consolidate, others_addVotes, others_addVotes,
    hord _ _ (List.Perm.of_eq hkept)]

end Consolidate

variable {ord : MapOrder}

theorem others_uniqueVoter (hord : ord.Steady out) (h : s.Alike out s') :
    others out (s.uniqueVoter ord).entries = others out (s'.uniqueVoter ord).entries :=
  others_consolidate (fun _ _ h => h) hord h

theorem others_uniqueVoterAndBlock (hord : ord.Steady out) (h : s.Alike out s') :
    others out (s.uniqueVoterAndBlock ord).entries =
      others out (s'.uniqueVoterAndBlock ord).entries :=
  others_consolidate (fun _ _ h => congrArg Prod.fst h) hord h

theorem alike_uniqueVoter (ord : MapOrder) (h : ((others out s.entries).map Vote.id).Nodup) :
    s.Alike out (s.uniqueVoter ord) := by
  have hiter : (others out (ord.iter s.entries)).Perm (others out s.entries) :=
    others_perm (ord.perm s.entries)
  have hnodup : ((others out (ord.iter s.entries)).map Vote.id).Nodup :=
    (hiter.map Vote.id).nodup_iff.2 h
  have hkept : others out ((ord.iter s.entries).foldl (keepLatest Vote.id) []) =
      others out (ord.iter s.entries) := by
    rw [others_foldl_keepLatest fun _ _ h => h, others_nil,
      foldl_keepLatest_of_nodup hnodup (by simp), nil_append]
  rw [Alike, uniqueVoter, entries_consolidate fun _ _ h => (Prod.mk.inj h).1]
  refine hiter.symm.trans ?_
  rw [← hkept]
  exact (others_perm (ord.perm _)).symm

theorem others_votes (hord : ord.Steady out) (h : s.Alike out s') :
    others out (s.votes ord) = others out (s'.votes ord) := by
  have htotal : Std.Total fun a b : Vote => a.id ≤ b.id := ⟨fun a b => BitVec.le_total a.id b.id⟩
  have htrans : IsTrans Vote fun a b => a.id ≤ b.id :=
    ⟨fun a b c hab hbc => BitVec.le_trans hab hbc⟩
  rw [votes, votes, others, filter_insertionSort, others, filter_insertionSort]
  exact congrArg _ (hord _ _ h)

theorem others_merge (hord : ord.Steady out) {t t' : VoteSet} (h : s.Alike out s')
    (ht : t.Alike out t') :
    others out (s.merge ord t).entries = others out (s'.merge ord t').entries := by
  rw [merge, merge, others_addVotes, others_addVotes, others_addVotes, others_addVotes,
    others_votes hord h, others_votes hord ht]

end VoteSet

namespace ValidatorSet

variable {vs : ValidatorSet} {s s' : VoteSet}

variable (hvs : Disjoint vs.members out)
include hvs

theorem hasMajorityVotes_others (l : List Vote) :
    vs.hasMajorityVotes (others out l) = vs.hasMajorityVotes l := by
  have hsum : ((others out l).map fun v => vs.stakeOf v.id).sum =
      (l.map fun v => vs.stakeOf v.id).sum := by
    induction l with
    | nil => rfl
    | cons v l ih =>
      by_cases hv : v.id ∈ out
      · have hzero : vs.stakeOf v.id = 0 :=
          stakeOf_of_notMem fun hmem => Finset.disjoint_left.1 hvs hmem hv
        rw [others_cons_of_mem hv, ih, map_cons, sum_cons, hzero, zero_add]
      · rw [others_cons_of_notMem hv, map_cons, sum_cons, ih, map_cons,
          sum_cons]
  rw [hasMajorityVotes, hasMajorityVotes, hsum]

theorem hasMajorityVotes_alike {l l' : List Vote} (h : (others out l).Perm (others out l')) :
    vs.hasMajorityVotes l = vs.hasMajorityVotes l' := by
  rw [← hasMajorityVotes_others hvs l, ← hasMajorityVotes_others hvs l']
  exact vs.hasMajorityVotes_congr (h.map Vote.id)

theorem hasMajority_alike (ord : MapOrder)
    (h : s.Alike out s') : vs.hasMajority ord s = vs.hasMajority ord s' :=
  hasMajorityVotes_alike hvs ((others_perm (s.votes_perm ord)).trans
    (List.Perm.trans h (others_perm (s'.votes_perm ord)).symm))

theorem hasMajority_filter_alike (ord : MapOrder) (h : s.Alike out s') (p : Vote → Bool) :
    vs.hasMajority ord (VoteSet.empty.addVotes ((s.votes ord).filter p)) =
      vs.hasMajority ord (VoteSet.empty.addVotes ((s'.votes ord).filter p)) := by
  rw [hasMajority_filter, hasMajority_filter]
  refine hasMajorityVotes_alike hvs ?_
  rw [others_filter, others_filter]
  exact List.Perm.filter p h

theorem filterByValidators_congr (h : others out s.entries = others out s'.entries) :
    s.filterByValidators vs = s'.filterByValidators vs := by
  have hentries : ∀ t : VoteSet, (t.filterByValidators vs).entries =
      (others out t.entries).filter fun v => (vs.getValidator v.id).isSome := by
    intro t
    rw [VoteSet.filterByValidators, others, filter_filter]
    refine filter_congr fun v _ => ?_
    by_cases hv : v.id ∈ out
    · have hnone : vs.getValidator v.id = none := by
        refine find?_eq_none.2 fun w hw heq => Finset.disjoint_left.1 hvs ?_ hv
        rw [← beq_iff_eq.1 heq]
        exact mem_toFinset.2 (mem_map_of_mem hw)
      simp [hnone]
    · simp [hv]
  have heq := hentries s
  rw [h, ← hentries s'] at heq
  exact VoteSet.mk.injEq .. ▸ heq

end ValidatorSet

theorem foldl_max_le_iff {l : List Nat} {m b : Nat} :
    l.foldl max m ≤ b ↔ m ≤ b ∧ ∀ x ∈ l, x ≤ b := by
  induction l generalizing m with
  | nil => simp
  | cons y l ih =>
    rw [foldl_cons, ih, max_le_iff, forall_mem_cons, and_assoc]

theorem maxVoteHeight_le_iff {l : List Vote} {b : UInt64} :
    maxVoteHeight l ≤ b ↔ ∀ v ∈ l, v.height ≤ b := by
  rw [UInt64.le_iff_toNat_le, maxVoteHeight, maxVoteHeight_foldl, foldl_max_le_iff]
  simp [UInt64.le_iff_toNat_le]

def AtLevel (out : Finset Address) (level : UInt64) (v : Vote) : Prop :=
  (v.id ∈ out → v.height ≤ level) ∧ (v.id ∉ out → level ≤ v.height)

/-- No vote of an address outside is above the level, and some other vote reaches it. -/
structure Overtopped (out : Finset Address) (level : UInt64) (s : VoteSet) : Prop where
  top : ∃ v ∈ s, v.id ∉ out ∧ level ≤ v.height
  below : ∀ v ∈ s, v.id ∈ out → v.height ≤ level

instance (out : Finset Address) (level : UInt64) (s : VoteSet) :
    Decidable (Overtopped out level s) :=
  decidable_of_iff ((∃ v ∈ s.entries, v.id ∉ out ∧ level ≤ v.height) ∧
    ∀ v ∈ s.entries, v.id ∈ out → v.height ≤ level) ⟨fun h => ⟨h.1, h.2⟩, fun h => ⟨h.top, h.below⟩⟩

variable {level : UInt64}

theorem Overtopped.addVote {s : VoteSet} (h : Overtopped out level s)
    (hdistinct : (s.entries.map Vote.id).Nodup) (hv : AtLevel out level v) (ord : MapOrder) :
    Overtopped out level ((s.addVote v).uniqueVoter ord) := by
  obtain ⟨hsub, -, hvoters⟩ := VoteSet.uniqueVoter_spec ord (s.addVote v)
  have hcases : ∀ w ∈ (s.addVote v).uniqueVoter ord, w ∈ s ∨ w = v := by
    intro w hw
    rcases VoteSet.mem_addVote.1 (hsub w hw) with ⟨hmem, -⟩ | rfl
    · exact .inl hmem
    · exact .inr rfl
  constructor
  · obtain ⟨w, hw, hnot, hreach⟩ := h.top
    have hvoter : ∃ u ∈ s.addVote v, u.id = w.id := by
      by_cases hkey : w.key = v.key
      · exact ⟨v, VoteSet.mem_addVote.2 (.inr rfl), (congrArg Prod.fst hkey).symm⟩
      · exact ⟨w, VoteSet.mem_addVote.2 (.inl ⟨hw, hkey⟩), rfl⟩
    obtain ⟨u, hu, hid⟩ := (VoteSet.voter_uniqueVoter ord _ _).2 hvoter
    refine ⟨u, hu, hid ▸ hnot, ?_⟩
    rcases hcases u hu with hmem | rfl
    · rwa [inj_on_of_nodup_map hdistinct hmem hw hid]
    · exact hv.2 (hid ▸ hnot)
  · intro u hu hout
    rcases hcases u hu with hmem | rfl
    · exact h.below u hmem hout
    · exact hv.1 hout

theorem maxVoteHeight_others {s : VoteSet} (h : Overtopped out level s) (hl : l.Perm s.entries) :
    maxVoteHeight (others out l) = maxVoteHeight l := by
  have hle : ∀ v ∈ others out l, v.height ≤ maxVoteHeight (others out l) :=
    maxVoteHeight_le_iff.1 (UInt64.le_refl _)
  refine UInt64.le_antisymm (maxVoteHeight_le_iff.2 fun v hv => ?_)
    (maxVoteHeight_le_iff.2 fun v hv => ?_)
  · exact maxVoteHeight_le_iff.1 (UInt64.le_refl _) v (mem_others.1 hv).1
  · by_cases hout : v.id ∈ out
    · obtain ⟨w, hw, hnot, hreach⟩ := h.top
      exact UInt64.le_trans (h.below v (hl.mem_iff.1 hv) hout)
        (UInt64.le_trans hreach (hle w (mem_others.2 ⟨hl.mem_iff.2 hw, hnot⟩)))
    · exact hle v (mem_others.2 ⟨hv, hout⟩)

theorem maxVoteHeight_alike {s s' : VoteSet} (ord : MapOrder) (halike : s.Alike out s')
    (h : Overtopped out level s) (h' : Overtopped out level s') :
    maxVoteHeight (s.votes ord) = maxVoteHeight (s'.votes ord) := by
  rw [← maxVoteHeight_others h (s.votes_perm ord), ← maxVoteHeight_others h' (s'.votes_perm ord)]
  refine maxVoteHeight_congr (List.Perm.map Vote.height ?_)
  exact (others_perm (s.votes_perm ord)).trans
    (List.Perm.trans halike (others_perm (s'.votes_perm ord)).symm)

end Others

end ThetaSubchain
