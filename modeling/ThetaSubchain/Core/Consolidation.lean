/-
What consolidated votes say (core/vote.go).

`UniqueVoter` keeps one vote of the latest epoch for each voter.  Of two such votes for different
blocks it keeps the one that the iteration of the map meets first.
-/
import ThetaSubchain.Core.Block

namespace ThetaSubchain

open List MapOrder Validator

def MapOrder.startingAt (v : Vote) : MapOrder where
  iter l := if v ∈ l then v :: l.erase v else l
  perm l := by
    split
    · next h => exact (List.perm_cons_erase h).symm
    · exact List.Perm.refl _

namespace VoteSet

section Latest

variable {κ : Type} {k : Vote → κ}

def Same (s t : VoteSet) : Prop := ∀ v, v ∈ s ↔ v ∈ t

/-- `t` is one vote of `s` for each value of `k`, of the latest epoch. -/
structure Latest (k : Vote → κ) (s t : VoteSet) : Prop where
  subset : ∀ v ∈ t, v ∈ s
  one : ∀ v ∈ s, ∃! w, w ∈ t ∧ k w = k v
  latest : ∀ w ∈ t, ∀ v ∈ s, k v = k w → v.epoch ≤ w.epoch

theorem Latest.congr {s t r : VoteSet} (h : Latest k s r) (hst : Same s t) : Latest k t r :=
  ⟨fun v hv => (hst v).1 (h.subset v hv), fun v hv => h.one v ((hst v).2 hv),
    fun w hw v hv => h.latest w hw v ((hst v).2 hv)⟩

theorem Latest.idempotent {s t r : VoteSet} (h : Latest k s t) (h' : Latest k t r) : Same r t := by
  intro v
  constructor
  · exact h'.subset v
  · intro hv
    obtain ⟨w, ⟨hw, hwv⟩, -⟩ := h'.one v hv
    have hvw := (h.one v (h.subset v hv)).unique ⟨hv, rfl⟩ ⟨h'.subset w hw, hwv⟩
    exact hvw ▸ hw

theorem Latest.same {s t t' : VoteSet} (h : Latest k s t) (h' : Latest k s t')
    (hkey : ∀ v ∈ s, ∀ w ∈ s, k v = k w → v.epoch = w.epoch →
      (∀ u ∈ s, k u = k v → u.epoch ≤ v.epoch) → v = w) : Same t t' := by
  have hsub : ∀ {r r' : VoteSet}, Latest k s r → Latest k s r' → ∀ v, v ∈ r → v ∈ r' := by
    intro r r' hr hr' v hv
    have hvs := hr.subset v hv
    obtain ⟨w, ⟨hw, hwv⟩, -⟩ := hr'.one v hvs
    have hws := hr'.subset w hw
    have hepoch : v.epoch = w.epoch :=
      UInt64.le_antisymm (hr'.latest w hw v hvs hwv.symm) (hr.latest v hv w hws hwv)
    rw [hkey v hvs w hws hwv.symm hepoch (hr.latest v hv)]
    exact hw
  exact fun v => ⟨hsub h h' v, hsub h' h v⟩

variable [DecidableEq κ]

theorem epoch_le_keepLatest {kept : List Vote} (hk : (kept.map k).Nodup) {v x : Vote}
    (hx : x ∈ kept ∨ x = v) {u : Vote} (hu : u ∈ keepLatest k kept v) (hxu : k x = k u) :
    x.epoch ≤ u.epoch := by
  have hsame : ∀ {y z : Vote}, y ∈ kept → z ∈ kept → k y = k z → y.epoch ≤ z.epoch := by
    intro y z hy hz h
    rw [inj_on_of_nodup_map hk hy hz h]
    exact UInt64.le_refl _
  unfold keepLatest at hu
  split at hu
  · next prev hprev =>
    have hprevmem := mem_of_find?_eq_some hprev
    have hprevk : k prev = k v := by simpa using find?_some hprev
    split at hu
    · next hle =>
      rcases hx with hx | rfl
      · exact hsame hx hu hxu
      · exact UInt64.le_trans hle (hsame hprevmem hu (hprevk.trans hxu))
    · next hlt =>
      rcases mem_append.1 hu with hu | hu
      · obtain ⟨hu, hne⟩ := mem_filter.1 hu
        rcases hx with hx | rfl
        · exact hsame hx hu hxu
        · exact absurd hxu.symm (by simpa using hne)
      · rw [mem_singleton.1 hu] at hxu ⊢
        rcases hx with hx | rfl
        · have hprev := hsame hx hprevmem (hxu.trans hprevk.symm)
          exact UInt64.le_trans hprev (UInt64.le_of_lt (UInt64.not_le.1 hlt))
        · exact UInt64.le_refl _
  · next hnone =>
    have hnew : ∀ w ∈ kept, k w ≠ k v := by simpa using find?_eq_none.1 hnone
    rcases mem_append.1 hu with hukept | hu
    · rcases hx with hx | rfl
      · exact hsame hx hukept hxu
      · exact absurd hxu.symm (hnew u hukept)
    · rw [mem_singleton.1 hu] at hxu ⊢
      rcases hx with hx | rfl
      · exact absurd hxu (hnew x hx)
      · exact UInt64.le_refl _

theorem epoch_le_foldl_keepLatest (vs kept : List Vote) (hk : (kept.map k).Nodup) {x : Vote}
    (hx : x ∈ kept ∨ x ∈ vs) {w : Vote} (hw : w ∈ vs.foldl (keepLatest k) kept)
    (hxw : k x = k w) : x.epoch ≤ w.epoch := by
  induction vs generalizing kept x with
  | nil =>
    rw [inj_on_of_nodup_map hk (hx.resolve_right (by simp)) hw hxw]
    exact UInt64.le_refl _
  | cons v vs ih =>
    have hkept := nodup_keepLatest (v := v) hk
    by_cases hxvs : x ∈ vs
    · exact ih (keepLatest k kept v) hkept (.inr hxvs) hw hxw
    have hx' : x ∈ kept ∨ x = v := by
      rcases hx with hx | hx
      · exact .inl hx
      · exact .inr ((mem_cons.1 hx).resolve_right hxvs)
    -- the vote that represents `x` after this step carries the bound on
    obtain ⟨u, hu, hux⟩ : ∃ u ∈ keepLatest k kept v, k u = k x := by
      refine exists_keepLatest ?_
      rcases hx' with hx' | rfl
      · exact .inl ⟨x, hx', rfl⟩
      · exact .inr rfl
    have hstep := epoch_le_keepLatest hk hx' hu hux.symm
    exact UInt64.le_trans hstep (ih (keepLatest k kept v) hkept (.inl hu) hw (hux.trans hxw))

theorem mem_foldl_keepLatest (vs : List Vote) {kept : List Vote} (hk : (kept.map k).Nodup)
    {v : Vote} (hv : v ∈ kept) (hlatest : ∀ x ∈ vs, k x = k v → x.epoch ≤ v.epoch) :
    v ∈ vs.foldl (keepLatest k) kept := by
  induction vs generalizing kept with
  | nil => exact hv
  | cons x vs ih =>
    refine ih (nodup_keepLatest hk) ?_ fun y hy => hlatest y (by simp [hy])
    unfold keepLatest
    split
    · next prev hprev =>
      have hprevmem := mem_of_find?_eq_some hprev
      have hprevk : k prev = k x := by simpa using find?_some hprev
      split
      · exact hv
      · next hlt =>
        have hne : k v ≠ k x := by
          intro heq
          have hprev : prev = v :=
            inj_on_of_nodup_map hk hprevmem hv (hprevk.trans heq.symm)
          exact hlt (hprev ▸ hlatest x (by simp) heq.symm)
        simp [hv, hne]
    · simp [hv]

theorem latest_consolidate (hk : ∀ v w : Vote, v.key = w.key → k v = k w) (ord : MapOrder)
    (s : VoteSet) : Latest k s (s.consolidate k ord) := by
  obtain ⟨hsub, hnodup, hrep⟩ := consolidate_spec hk ord s
  refine ⟨hsub, fun v hv => ?_, fun w hw v hv hvw => ?_⟩
  · obtain ⟨w, hw, hwv⟩ := hrep v hv
    refine ⟨w, ⟨hw, hwv⟩, fun u hu => ?_⟩
    exact inj_on_of_nodup_map hnodup hu.1 hw (hu.2.trans hwv.symm)
  · rw [mem_def, entries_consolidate hk, mem_iter] at hw
    exact epoch_le_foldl_keepLatest _ [] (by simp) (.inr (ord.mem_iter.2 hv)) hw hvw

end Latest

/-- What is expected of a consolidation of `s`: one vote of the latest epoch for each value of
`k`, the same when it is repeated, and the same for every order of every map with these votes. -/
structure Deterministic {κ : Type} (k : Vote → κ) (consolidation : MapOrder → VoteSet → VoteSet)
    (s : VoteSet) : Prop where
  latest : ∀ ord, Latest k s (consolidation ord s)
  idempotent : ∀ ord ord', Same (consolidation ord' (consolidation ord s)) (consolidation ord s)
  independent : ∀ ord ord' t, Same s t → Same (consolidation ord s) (consolidation ord' t)

/-- No voter has votes for two blocks in the latest epoch of that voter. -/
def Untied (s : VoteSet) : Prop :=
  ∀ v ∈ s, ∀ w ∈ s, v.id = w.id → v.epoch = w.epoch →
    (∀ u ∈ s, u.id = v.id → u.epoch ≤ v.epoch) → v.block = w.block

theorem eq_of_key {s : VoteSet} {v w : Vote} (hv : v ∈ s) (hw : w ∈ s) (h : v.key = w.key) :
    v = w := inj_on_of_nodup_map s.distinct hv hw h

theorem latest_uniqueVoter (ord : MapOrder) (s : VoteSet) : Latest Vote.id s (s.uniqueVoter ord) :=
  latest_consolidate (fun _ _ h => (Prod.mk.inj h).1) ord s

theorem latest_uniqueVoterAndBlock (ord : MapOrder) (s : VoteSet) :
    Latest (fun v => (v.id, v.block)) s (s.uniqueVoterAndBlock ord) := by
  refine latest_consolidate (fun v w h => ?_) ord s
  simp only [Vote.key, Prod.mk.injEq] at h
  rw [h.1, h.2.1]

theorem deterministic_uniqueVoterAndBlock (s : VoteSet) :
    Deterministic (fun v => (v.id, v.block)) (fun ord s => s.uniqueVoterAndBlock ord) s where
  latest ord := latest_uniqueVoterAndBlock ord s
  idempotent ord ord' :=
    (latest_uniqueVoterAndBlock ord s).idempotent (latest_uniqueVoterAndBlock ord' _)
  independent ord ord' t hst := by
    have ht := (latest_uniqueVoterAndBlock ord' t).congr fun v => (hst v).symm
    refine (latest_uniqueVoterAndBlock ord s).same ht fun v hv w hw hk hepoch _ => ?_
    rw [Prod.mk.injEq] at hk
    refine eq_of_key hv hw ?_
    rw [Vote.key, Vote.key, hk.1, hk.2, hepoch]

theorem mem_uniqueVoter_startingAt {s : VoteSet} {v : Vote} (hv : v ∈ s)
    (hlatest : ∀ u ∈ s, u.id = v.id → u.epoch ≤ v.epoch) : v ∈ s.uniqueVoter (startingAt v) := by
  have hiter : (startingAt v).iter s.entries = v :: s.entries.erase v := if_pos hv
  rw [mem_def, uniqueVoter, entries_consolidate (fun _ _ h => (Prod.mk.inj h).1),
    mem_iter, hiter]
  have hkept : ([v].map Vote.id).Nodup := nodup_singleton _
  refine mem_foldl_keepLatest (s.entries.erase v) hkept (mem_singleton_self v) ?_
  exact fun x hx => hlatest x (mem_of_mem_erase hx)

/-- Both consolidations are as expected exactly if no voter is tied between two blocks. -/
theorem deterministic_iff_untied (s : VoteSet) :
    (Deterministic (fun v => (v.id, v.block)) (fun ord s => s.uniqueVoterAndBlock ord) s ∧
      Deterministic Vote.id (fun ord s => s.uniqueVoter ord) s) ↔ s.Untied := by
  constructor
  · rintro ⟨-, h⟩ v hv w hw hid hepoch hlatest
    have hv' := mem_uniqueVoter_startingAt hv hlatest
    have hw' := mem_uniqueVoter_startingAt hw fun u hu huw => hepoch ▸ hlatest u hu (huw.trans hid.symm)
    have hboth := (h.independent (startingAt w) (startingAt v) s fun _ => Iff.rfl) w
    have hone := (latest_uniqueVoter (startingAt v) s).one v hv
    rw [hone.unique ⟨hv', rfl⟩ ⟨hboth.1 hw', hid.symm⟩]
  · intro h
    refine ⟨deterministic_uniqueVoterAndBlock s, fun ord => latest_uniqueVoter ord s, ?_, ?_⟩
    · intro ord ord'
      exact (latest_uniqueVoter ord s).idempotent (latest_uniqueVoter ord' _)
    · intro ord ord' t hst
      have ht := (latest_uniqueVoter ord' t).congr fun v => (hst v).symm
      refine (latest_uniqueVoter ord s).same ht fun v hv w hw hid hepoch hlatest => ?_
      refine eq_of_key hv hw ?_
      rw [Vote.key, Vote.key, hid, h v hv w hw hid hepoch hlatest, hepoch]

end VoteSet

def tiedVotes : VoteSet :=
  (VoteSet.empty.addVote ⟨1, 5, 0, 3, 7, none⟩).addVote ⟨2, 5, 0, 3, 7, none⟩

theorem uniqueVoter_depends_on_order :
    tiedVotes.uniqueVoter (.startingAt ⟨1, 5, 0, 3, 7, none⟩) =
        VoteSet.empty.addVote ⟨1, 5, 0, 3, 7, none⟩ ∧
      tiedVotes.uniqueVoter (.startingAt ⟨2, 5, 0, 3, 7, none⟩) =
        VoteSet.empty.addVote ⟨2, 5, 0, 3, 7, none⟩ ∧
      ¬ VoteSet.Deterministic Vote.id (fun ord s => s.uniqueVoter ord) tiedVotes := by
  refine ⟨by decide, by decide, fun h => ?_⟩
  have hsame := h.independent (.startingAt ⟨1, 5, 0, 3, 7, none⟩)
    (.startingAt ⟨2, 5, 0, 3, 7, none⟩) tiedVotes fun _ => Iff.rfl
  have hmem : ∀ v, v ∈ tiedVotes.uniqueVoter (.startingAt ⟨1, 5, 0, 3, 7, none⟩) →
      v ∈ tiedVotes.uniqueVoter (.startingAt ⟨2, 5, 0, 3, 7, none⟩) := fun v => (hsame v).1
  exact absurd (hmem ⟨1, 5, 0, 3, 7, none⟩ (by decide)) (by decide)

namespace ValidatorSet

def Distinct (s : ValidatorSet) : Prop := (s.validators.map Validator.address).Nodup

instance (s : ValidatorSet) : Decidable s.Distinct :=
  inferInstanceAs (Decidable (s.validators.map Validator.address).Nodup)

theorem stakeOf_address {s : ValidatorSet} (hs : s.Distinct) {v : Validator}
    (hv : v ∈ s.validators) : s.stakeOf v.address = v.stake := by
  unfold stakeOf getValidator
  split
  · next w hw =>
    have haddress : w.address = v.address := by simpa using find?_some hw
    rw [inj_on_of_nodup_map hs (mem_of_find?_eq_some hw) hv haddress]
  · next hnone => simpa using find?_eq_none.1 hnone v hv

theorem weight_eq_sum {s : ValidatorSet} (hs : s.Distinct) (voters : Address → Bool) :
    Quorum.weight s.members s.stakeOf {a | voters a = true} =
      ((s.validators.filter fun v => voters v.address).map stake).sum := by
  have hstake : ((s.validators.filter fun v => voters v.address).map stake).sum =
      (((s.validators.map address).filter voters).map s.stakeOf).sum := by
    rw [filter_map, map_map]
    refine congrArg sum (map_congr_left fun v hv => ?_)
    exact (stakeOf_address hs (mem_filter.1 hv).1).symm
  rw [hstake, Quorum.weight, members, Finset.sum_indicator_eq_sum_filter,
    ← sum_toFinset _ (hs.filter _)]
  refine Finset.sum_congr ?_ fun _ _ => rfl
  ext a
  simp

end ValidatorSet

/-- A valid certificate is backed by validators with more than two thirds of the stake, each of
which has signed a vote for its block. -/
theorem CommitCertificate.isValid_sound {verify : Verifier} {signed : Address → Bytes → Prop}
    (hunforgeable : ∀ sig bytes id, verify sig bytes id = true → signed id bytes)
    {cc : CommitCertificate} {validators : ValidatorSet} (hdistinct : validators.Distinct)
    {ord : MapOrder} (h : cc.isValid verify ord validators = true) :
    ∃ signers : List Validator, (signers.map Validator.address).Nodup ∧
      signers ⊆ validators.validators ∧
      validators.totalStake * 2 < (signers.map Validator.stake).sum * 3 ∧
      ∀ x ∈ signers, ∃ v : Vote,
        v.id = x.address ∧ v.block = cc.blockHash ∧ signed x.address v.signBytes := by
  obtain ⟨votes, -, -, hquorum⟩ := isValid_spec h
  let good : Address → Bool := fun a => votes.entries.any fun v =>
    v.id = a ∧ v.block = cc.blockHash ∧ (v.validate verify).isError = false
  have hgood : ∀ a, good a = true ↔ ∃ v ∈ votes, v.id = a ∧ v.block = cc.blockHash ∧
      (v.validate verify).isError = false := by
    intro a
    simp [good, VoteSet.mem_def]
  refine ⟨validators.validators.filter fun x => good x.address, ?_, ?_, ?_, ?_⟩
  · exact hdistinct.sublist (filter_sublist.map _)
  · exact filter_subset_self _
  · rw [← ValidatorSet.weight_eq_sum hdistinct good]
    have hset : {a | good a = true} = {i | ∃ v ∈ votes, v.id = i ∧ v.block = cc.blockHash ∧
        (v.validate verify).isError = false} := Set.ext hgood
    rw [hset]
    have hlt := hquorum
    unfold Quorum.IsQuorum at hlt
    omega
  · intro x hx
    obtain ⟨v, -, hid, hblock, hvalid⟩ := (hgood x.address).1 (mem_filter.1 hx).2
    obtain ⟨sig, -, hverify⟩ := Vote.verify_of_validate hvalid
    exact ⟨v, hid, hblock, hid ▸ hunforgeable sig _ _ hverify⟩

theorem isValid_sound_three :
    let validators : ValidatorSet := ⟨0, [⟨1, 10⟩, ⟨2, 20⟩, ⟨3, 30⟩, ⟨4, 5⟩]⟩
    let vote : Address → Vote := fun id => ⟨9, 5, 0, 3, id, some ⟨[1]⟩⟩
    let cc : CommitCertificate := ⟨some (VoteSet.empty.addVotes [vote 1, vote 2, vote 3]), 9⟩
    let signed : Address → Bytes → Prop := fun id _ => id ≠ 0
    ∃ signers : List Validator, (signers.map address).Nodup ∧
      signers ⊆ validators.validators ∧
      validators.totalStake * 2 < (signers.map stake).sum * 3 ∧
      ∀ x ∈ signers, ∃ v : Vote,
        v.id = x.address ∧ v.block = cc.blockHash ∧ signed x.address v.signBytes := by
  intro validators vote cc signed
  let verify : Verifier := fun _ _ id => id ≠ 0
  have hsigned : ∀ sig bytes id, verify sig bytes id = true → signed id bytes :=
    fun _ _ _ h => of_decide_eq_true h
  have hvalid : cc.isValid verify .id validators = true := by decide
  have hdistinct : validators.Distinct := by decide
  exact CommitCertificate.isValid_sound hsigned hdistinct hvalid

end ThetaSubchain
