/-
What the node reads from the votes of an epoch.

The heights and dynasties it reads do not depend on the iteration order, but the signature of a
vote covers neither of the heights.
-/
import ThetaSubchain.Consensus.Equivocation

namespace ThetaSubchain

open Durable List Engine Proc

namespace Vote

theorem epoch_eq_of_signBytes {v w : Vote} (h : v.signBytes = w.signBytes) : v.epoch = w.epoch := by
  have hitem := Rlp.encode_inj v.length_signBytes_lt w.length_signBytes_lt h
  simp only [toItem, Rlp.Item.list.injEq, cons.injEq] at hitem
  have hbytes : Rlp.beBytes v.epoch.toNat = Rlp.beBytes w.epoch.toNat :=
    Rlp.Item.str.inj hitem.2.2.2.1
  exact UInt64.toNat_inj.1 (Rlp.beBytes_injective hbytes)

theorem signed_eq {verify : Verifier}
    (hbind : ∀ sig m m' id, verify sig m id = true → verify sig m' id = true → m = m')
    {v w : Vote} (hv : (v.validate verify).isError = false)
    (hw : (w.validate verify).isError = false) (hid : w.id = v.id)
    (hsig : w.signature = v.signature) : w.block = v.block ∧ w.epoch = v.epoch := by
  obtain ⟨sig, hs, hver⟩ := verify_of_validate hv
  obtain ⟨sig', hs', hver'⟩ := verify_of_validate hw
  rw [hsig, hs, Option.some.injEq] at hs'
  rw [← hs', hid] at hver'
  have hbytes := hbind sig _ _ _ hver' hver
  exact ⟨block_eq_of_signBytes hbytes, epoch_eq_of_signBytes hbytes⟩

/-- The votes that a peer can pass on instead of `v`: valid ones of the same voter with the same
signature. -/
def Relays (verify : Verifier) (v w : Vote) : Prop :=
  (w.validate verify).isError = false ∧ w.id = v.id ∧ w.signature = v.signature

theorem relays_alter {verify : Verifier} {v : Vote} (hv : (v.validate verify).isError = false)
    (height mainchainHeight : UInt64) :
    Relays verify v { v with height := height, mainchainHeight := mainchainHeight } :=
  -- the two heights are neither signed nor checked
  ⟨hv, rfl, rfl⟩

end Vote

theorem maxVoteHeight_foldl (l : List Vote) (m : UInt64) :
    (l.foldl (fun m v => if v.height > m then v.height else m) m).toNat =
      (l.map fun v => v.height.toNat).foldl max m.toNat := by
  induction l generalizing m with
  | nil => rfl
  | cons v l ih =>
    rw [foldl_cons, map_cons, foldl_cons, ih]
    congr 1
    by_cases h : v.height > m
    · rw [if_pos h]
      have := UInt64.lt_iff_toNat_lt.1 h
      omega
    · rw [if_neg h]
      have := mt UInt64.lt_iff_toNat_lt.2 h
      omega

theorem maxVoteHeight_congr {l l' : List Vote} (h : (l.map Vote.height).Perm (l'.map Vote.height)) :
    maxVoteHeight l = maxVoteHeight l' := by
  have hperm : (l.map fun v => v.height.toNat).Perm (l'.map fun v => v.height.toNat) := by
    have hmap := h.map UInt64.toNat
    rwa [map_map, map_map] at hmap
  rw [← UInt64.toNat_inj]
  unfold maxVoteHeight
  rw [maxVoteHeight_foldl, maxVoteHeight_foldl]
  exact hperm.foldl_eq _

namespace ValidatorSet

theorem hasMajorityVotes_congr (vs : ValidatorSet) {l l' : List Vote}
    (h : (l.map Vote.id).Perm (l'.map Vote.id)) :
    vs.hasMajorityVotes l = vs.hasMajorityVotes l' := by
  have hsum : (l.map fun v => vs.stakeOf v.id).sum = (l'.map fun v => vs.stakeOf v.id).sum := by
    have hmap := (h.map vs.stakeOf).sum_eq
    rwa [map_map, map_map] at hmap
  rw [hasMajorityVotes, hasMajorityVotes, hsum]

theorem hasMajority_filter (vs : ValidatorSet) (ord : MapOrder) (s : VoteSet) (p : Vote → Bool) :
    vs.hasMajority ord (VoteSet.empty.addVotes ((s.votes ord).filter p)) =
      vs.hasMajorityVotes (s.entries.filter p) := by
  have hperm : ((s.votes ord).filter p).Perm (s.entries.filter p) :=
    (s.votes_perm ord).filter p
  have hkeys : (((s.votes ord).filter p).map Vote.key).Nodup := by
    rw [(hperm.map Vote.key).nodup_iff]
    exact s.distinct.sublist (filter_sublist.map _)
  have hentries : (VoteSet.empty.addVotes ((s.votes ord).filter p)).entries =
      (s.votes ord).filter p := VoteSet.entries_addVotes hkeys (by simp [VoteSet.empty])
  apply hasMajorityVotes_congr
  refine List.Perm.map _ ?_
  refine (VoteSet.votes_perm ord _).trans ?_
  rw [hentries]
  exact hperm

end ValidatorSet

/-! ## A vote that was altered in transit -/

namespace VoteSet

def substitute (s : VoteSet) (v w : Vote) (hkey : w.key = v.key) : VoteSet where
  entries := s.entries.map fun u => if u = v then w else u
  distinct := by
    have hmap : (s.entries.map fun u => if u = v then w else u).map Vote.key =
        s.entries.map Vote.key := by
      rw [List.map_map]
      refine List.map_congr_left fun u _ => ?_
      by_cases hu : u = v
      · rw [Function.comp_apply, if_pos hu, hkey, hu]
      · rw [Function.comp_apply, if_neg hu]
    rw [hmap]
    exact s.distinct

theorem map_substitute {α : Type} (f : Vote → α) (s : VoteSet) {v w : Vote} (hkey : w.key = v.key)
    (hf : f w = f v) : (s.substitute v w hkey).entries.map f = s.entries.map f := by
  show (s.entries.map _).map f = _
  rw [map_map]
  refine map_congr_left fun u _ => ?_
  by_cases hu : u = v
  · rw [Function.comp_apply, if_pos hu, hf, hu]
  · rw [Function.comp_apply, if_neg hu]

theorem map_id_filter_substitute (p : Vote → Bool) (s : VoteSet) {v w : Vote}
    (hkey : w.key = v.key) (hp : p w = p v) :
    ((s.substitute v w hkey).entries.filter p).map Vote.id = (s.entries.filter p).map Vote.id := by
  have hid : w.id = v.id := congrArg Prod.fst hkey
  show ((s.entries.map _).filter p).map _ = _
  induction s.entries with
  | nil => rfl
  | cons u us ih =>
    by_cases hu : u = v
    · rw [map_cons, if_pos hu, filter_cons, filter_cons, hp, hu]
      by_cases hpv : p v
      · rw [if_pos hpv, if_pos hpv, map_cons, map_cons, hid, ih]
      · rw [if_neg hpv, if_neg hpv, ih]
    · rw [map_cons, if_neg hu, filter_cons, filter_cons]
      by_cases hpu : p u
      · rw [if_pos hpu, if_pos hpu, map_cons, map_cons, ih]
      · rw [if_neg hpu, if_neg hpu, ih]

end VoteSet

def withEpochVotes (d : Store) (votes : VoteSet) : Store := { d with epochVotes := some votes }

/-- The synchronisation status after `checkSyncStatus`, and the answer of
`validatorMajorityInTheSameDynasty`, on a store with these epoch votes. -/
def syncStatus (a : Answers) (s : EngineConf) (votes : VoteSet) : Bool :=
  ((Engine.checkSyncStatus a).run { s with disk := withEpochVotes s.disk votes }).2.mem.hasSynced

def sameDynasty (nd : Node) (a : Answers) (d : Store) (tip : ExtendedBlock) (votes : VoteSet) :
    Option Bool :=
  Engine.validatorMajorityInTheSameDynasty nd a (withEpochVotes d votes) tip

theorem syncStatus_congr (a : Answers) (s : EngineConf) {votes votes' : VoteSet}
    (h : (votes.entries.map Vote.height).Perm (votes'.entries.map Vote.height)) :
    syncStatus a s votes = syncStatus a s votes' := by
  have hmax : maxVoteHeight (votes.votes a.order) =
      maxVoteHeight (votes'.votes a.order) := by
    apply maxVoteHeight_congr
    exact ((votes.votes_perm a.order).map _).trans
      (h.trans ((votes'.votes_perm a.order).map _).symm)
  unfold syncStatus checkSyncStatus
  simp only [run_bind, run_disk, withEpochVotes, hmax, State.getLastFinalizedBlock,
    Chain.findBlock]
  cases hlb : s.disk.block s.mem.state.lastFinalizedBlock with
  | none => simp [orDie, mem, run, hlb]
  | some lb =>
    cases hts : lb.header.timestamp with
    | none => simp [orDie, mem, run, hlb, hts]
    | some ts => simp [orDie, mem, run, modifyMem, hlb, hts]

theorem sameDynasty_congr (nd : Node) (a : Answers) (d : Store) (tip : ExtendedBlock)
    {votes votes' : VoteSet}
    (hheight : ((votes.entries.filter fun v => v.height ≥ tip.header.height + 1).map
      Vote.id).Perm ((votes'.entries.filter fun v => v.height ≥ tip.header.height + 1).map Vote.id))
    (hdynasty : ∀ n, ((votes.entries.filter fun v => voteDynasty v ≥ n).map
      Vote.id).Perm ((votes'.entries.filter fun v => voteDynasty v ≥ n).map Vote.id)) :
    sameDynasty nd a d tip votes = sameDynasty nd a d tip votes' := by
  unfold sameDynasty validatorMajorityInTheSameDynasty
  simp only [withEpochVotes]
  cases hvs : a.getNextValidatorSet (nd.cfg.hash tip.header) with
  | none => rfl
  | some vs =>
    simp only [Option.bind_eq_bind, Option.bind_some, ValidatorSet.hasMajority_filter]
    rw [vs.hasMajorityVotes_congr hheight]
    split
    · rfl
    · cases hm : a.mainchainHeight with
      | none => rfl
      | some n =>
        dsimp only
        rw [vs.hasMajorityVotes_congr (hdynasty (calculateDynasty n))]

theorem readers_substitute (nd : Node) (a : Answers) (s : EngineConf) (tip : ExtendedBlock)
    (votes : VoteSet) {v w : Vote} (hkey : w.key = v.key) (hheight : w.height = v.height)
    (hdynasty : voteDynasty w = voteDynasty v) :
    syncStatus a s (votes.substitute v w hkey) = syncStatus a s votes ∧
      sameDynasty nd a s.disk tip (votes.substitute v w hkey) =
        sameDynasty nd a s.disk tip votes := by
  constructor
  · apply syncStatus_congr
    rw [votes.map_substitute Vote.height hkey hheight]
  · apply sameDynasty_congr
    · rw [votes.map_id_filter_substitute _ hkey (by rw [hheight])]
    · intro n
      rw [votes.map_id_filter_substitute _ hkey (by rw [hdynasty])]

/-- Whatever the vote, a peer can pass on another one in its place: not all valid votes of the voter
with its signature agree with it on what is read from them.  They agree on the block and the epoch,
and one with the same height and in the same dynasty changes neither decision. -/
theorem vote_alterable {verify : Verifier}
    (hbind : ∀ sig m m' id, verify sig m id = true → verify sig m' id = true → m = m')
    {v : Vote} (hv : (v.validate verify).isError = false) :
    (¬ ∀ w, v.Relays verify w → w.block = v.block ∧ w.epoch = v.epoch ∧ w.height = v.height ∧
        w.mainchainHeight = v.mainchainHeight) ∧
      ∀ w, v.Relays verify w → w.block = v.block ∧ w.epoch = v.epoch ∧
        ∀ hkey : w.key = v.key, w.height = v.height → voteDynasty w = voteDynasty v →
        ∀ (nd : Node) (a : Answers) (s : EngineConf) (tip : ExtendedBlock) (votes : VoteSet),
          syncStatus a s (votes.substitute v w hkey) = syncStatus a s votes ∧
            sameDynasty nd a s.disk tip (votes.substitute v w hkey) =
              sameDynasty nd a s.disk tip votes := by
  constructor
  · intro hall
    have hheight := (hall _ (Vote.relays_alter hv (v.height + 1) v.mainchainHeight)).2.2.1
    exact absurd hheight (by simp)
  · rintro w ⟨hw, hid, hsig⟩
    obtain ⟨hblock, hepoch⟩ := Vote.signed_eq hbind hv hw hid hsig
    exact ⟨hblock, hepoch, fun hkey hheight hdynasty nd a s tip votes =>
      readers_substitute nd a s tip votes hkey hheight hdynasty⟩

def echoNode : Node :=
  { sampleNode with
    verify := fun sig m _ => sig.bytes == m
    sign := fun m => ⟨m⟩ }

def honestVote : Vote :=
  let v : Vote := ⟨7, 1, 10000, 1, 1, none⟩
  { v with signature := some (echoNode.sign v.signBytes) }

def relayedVote : Vote := { honestVote with height := 10, mainchainHeight := 0 }

theorem echoNode_binds : ∀ sig m m' id, echoNode.verify sig m id = true →
    echoNode.verify sig m' id = true → m = m' := by
  intro sig m m' id h h'
  exact (beq_iff_eq.1 h).symm.trans (beq_iff_eq.1 h')

theorem vote_alterable_honest :
    honestVote.Relays echoNode.verify relayedVote ∧
      (¬ ∀ w, honestVote.Relays echoNode.verify w → w.block = honestVote.block ∧
        w.epoch = honestVote.epoch ∧ w.height = honestVote.height ∧
        w.mainchainHeight = honestVote.mainchainHeight) ∧
      relayedVote.block = honestVote.block ∧ relayedVote.epoch = honestVote.epoch := by
  have hv : (honestVote.validate echoNode.verify).isError = false := by decide
  have hrelays : honestVote.Relays echoNode.verify relayedVote := Vote.relays_alter hv 10 0
  obtain ⟨hnot, hall⟩ := vote_alterable echoNode_binds hv
  obtain ⟨hblock, hepoch, -⟩ := hall _ hrelays
  exact ⟨hrelays, hnot, hblock, hepoch⟩

def afterVote (v : Vote) : Bool × Option Bool :=
  let a : Answers := { sampleAnswers 100 with mainchainHeight := some 10000 }
  let s := ((Engine.handleVote echoNode a v).run sampleStart).2
  let tip : ExtendedBlock :=
    ⟨{ sampleRoot with header := { sampleRoot.header with height := 1 } }, [], .valid, false⟩
  (s.mem.hasSynced, Engine.validatorMajorityInTheSameDynasty echoNode a s.disk tip)

/-- The relayed vote is valid with the signature of the honest one, and a node that receives it
instead takes itself for out of sync and the majority for being in an older dynasty. -/
theorem relayed_vote_changes_decisions :
    (honestVote.validate echoNode.verify).isError = false ∧
      honestVote.Relays echoNode.verify relayedVote ∧
      (∀ sig m m' id, echoNode.verify sig m id = true → echoNode.verify sig m' id = true →
        m = m') ∧
      relayedVote.height ≠ honestVote.height ∧
      relayedVote.mainchainHeight ≠ honestVote.mainchainHeight ∧
      afterVote honestVote = (true, some true) ∧ afterVote relayedVote = (false, some false) := by
  exact ⟨by decide, ⟨by decide, rfl, rfl⟩, echoNode_binds, by decide, by decide, by decide,
    by decide⟩

end ThetaSubchain
