/-
When a node moves on to another epoch.

A vote of the current epoch or later moves the node on if the voters whose recorded vote is of the
epoch of that vote or later are a quorum.  The test is made at the epoch of the vote that has just
arrived and at no other.
-/
import ThetaSubchain.Consensus.EpochVotes
import ThetaSubchain.Consensus.Monotonicity

namespace ThetaSubchain

open Durable EngineConf Engine Engine.Action ValidatorSet VoteSet

variable {nd : Node} {a : Answers} {s s' t t' : EngineConf} {v : Vote}

def EngineConf.recorded (s : EngineConf) : VoteSet := s.disk.epochVotes.getD .empty

def recordVote (a : Answers) (s : EngineConf) (v : Vote) : VoteSet :=
  (s.recorded.addVote v).uniqueVoter a.order

def EpochQuorum (vs : ValidatorSet) (votes : Set Vote) (e : UInt64) : Prop :=
  Quorum.IsQuorum vs.members vs.stakeOf vs.totalStake {i | ∃ w ∈ votes, w.id = i ∧ e ≤ w.epoch}

def Accepted (nd : Node) (v : Vote) : Prop := (v.validate nd.verify).isError = false

theorem EpochQuorum.mono {vs : ValidatorSet} (hs : vs.NonNeg) {votes votes' : Set Vote}
    {e e' : UInt64} (h : EpochQuorum vs votes e)
    (hsub : ∀ w ∈ votes, e ≤ w.epoch → w ∈ votes' ∧ e' ≤ w.epoch) : EpochQuorum vs votes' e' := by
  refine Quorum.IsQuorum.mono (fun i _ => stakeOf_nonneg hs i) ?_ h
  rintro i ⟨w, hw, hid, he⟩
  exact ⟨w, (hsub w hw he).1, hid, (hsub w hw he).2⟩

theorem nodup_recordVote (a : Answers) (s : EngineConf) (v : Vote) :
    ((recordVote a s v).entries.map Vote.id).Nodup :=
  (uniqueVoter_spec a.order _).2.1

theorem mem_recordVote {w : Vote} (h : w ∈ recordVote a s v) : w ∈ s.recorded ∨ w = v := by
  have hadd := (uniqueVoter_spec a.order _).1 w h
  rcases mem_addVote.1 hadd with hw | hw
  · exact .inl hw.1
  · exact .inr hw

theorem epochQuorum_iff (vs : ValidatorSet) {votes : VoteSet}
    (hvotes : (votes.entries.map Vote.id).Nodup) (e : UInt64) :
    EpochQuorum vs {w | w ∈ votes} e ↔
      vs.hasMajorityVotes (votes.entries.filter fun w => w.epoch ≥ e) = true := by
  rw [isQuorum_of_hasMajorityVotes (hvotes.sublist (List.filter_sublist.map _))]
  have hset : {i | ∃ w ∈ votes.entries.filter (fun w => decide (w.epoch ≥ e)), w.id = i} =
      {i | ∃ w ∈ {w | w ∈ votes}, w.id = i ∧ e ≤ w.epoch} := by
    ext i
    simp only [List.mem_filter, decide_eq_true_eq, Set.mem_ofPred_eq, mem_def, and_assoc,
      ge_iff_le]
    exact exists_congr fun w => and_congr_right fun _ => and_comm
  rw [hset]
  rfl

theorem hasMajority_recordVote (vs : ValidatorSet) (e : UInt64) :
    vs.hasMajority a.order (empty.addVotes
        (((recordVote a s v).votes a.order).filter fun w => w.epoch ≥ e)) = true ↔
      EpochQuorum vs {w | w ∈ recordVote a s v} e := by
  rw [hasMajority_filter, epochQuorum_iff vs (nodup_recordVote a s v)]

structure Handled (nd : Node) (a : Answers) (v : Vote) (s s' : EngineConf) : Prop where
  accepted : Accepted nd v
  block : s'.disk.block = s.disk.block
  lastFinalized : s'.mem.state.lastFinalizedBlock = s.mem.state.lastFinalizedBlock
  recorded : s'.recorded = recordVote a s v
  epoch : ∃ lfb vs, s.disk.block s.mem.state.lastFinalizedBlock = some lfb ∧
    a.getNextValidatorSet (nd.cfg.hash lfb.header) = some vs ∧
    ((s.mem.state.epoch ≤ v.epoch ∧ EpochQuorum vs {w | w ∈ recordVote a s v} v.epoch ∧
        s'.mem.state.epoch = v.epoch + 1) ∨
      (¬ (s.mem.state.epoch ≤ v.epoch ∧ EpochQuorum vs {w | w ∈ recordVote a s v} v.epoch) ∧
        s'.mem.state.epoch = s.mem.state.epoch))

theorem wp_handleVote_handled (nd : Node) (a : Answers) (v : Vote) (s : EngineConf) :
    (handleVote nd a v).wp (fun _ _ => True)
      (fun _ s' => (¬ Accepted nd v ∧ s' = s) ∨ Handled nd a v s s') s := by
  unfold handleVote
  by_cases hbad : (v.validate nd.verify).isError
  · rw [if_pos hbad]
    exact .inl ⟨by simp [Accepted, hbad], rfl⟩
  have hok : Accepted nd v := Bool.eq_false_of_not_eq_true hbad
  rw [if_neg hbad, Proc.wp_bind, wp_addVote (Vote.validate_block hok)]
  refine ⟨trivial, trivial, ?_⟩
  unfold updateEpoch
  simp only [Proc.wp_bind, wp_getLastFinalizedBlock, Proc.wp_orDie, Proc.wp_mem]
  intro lfb hlfb vs hvs
  have hvotes : ((s.withEpochVote a v).withIndexedVote v).recorded = recordVote a s v := rfl
  have hstay : ¬ (s.mem.state.epoch ≤ v.epoch ∧
      EpochQuorum vs {w | w ∈ recordVote a s v} v.epoch) →
      Handled nd a v s ((s.withEpochVote a v).withIndexedVote v) :=
    fun hno => ⟨hok, rfl, rfl, hvotes, lfb, vs, hlfb, hvs, .inr ⟨hno, rfl⟩⟩
  show (if v.epoch < s.mem.state.epoch then _ else _ : EngineProc Bool).wp _ _ _
  by_cases hepoch : v.epoch < s.mem.state.epoch
  · rw [if_pos hepoch]
    exact .inr (hstay fun h => absurd hepoch (UInt64.not_lt.2 h.1))
  rw [if_neg hepoch]
  simp only [Proc.wp_bind, Proc.wp_disk, Proc.wp_orDie]
  intro all hall
  cases Option.some.inj hall
  by_cases hmaj : vs.hasMajority a.order (empty.addVotes
      (((recordVote a s v).votes a.order).filter fun w => w.epoch ≥ v.epoch)) = true
  · have hquorum := (hasMajority_recordVote vs v.epoch).1 hmaj
    -- moving on to the next epoch, once the relays are out
    have hmove : ∀ s₁ : EngineConf, s₁.mem = s.mem →
        s₁.disk = ((s.withEpochVote a v).withIndexedVote v).disk →
        (do
          let tip ← getTipToExtend nd
          let _ ← Proc.orDie (a.getNextProposer (nd.cfg.hash tip.header) (v.epoch + 1))
          State.setEpoch nd.cfg (v.epoch + 1)
          checkSyncStatus a
          pure true : EngineProc Bool).wp (fun _ _ => True)
            (fun _ s' => (¬ Accepted nd v ∧ s' = s) ∨ Handled nd a v s s') s₁ := by
      intro s₁ hmem hdisk
      rw [Proc.wp_bind, getTipToExtend, wp_getTip]
      intro H _ tip _
      simp only [Proc.wp_bind, Proc.wp_orDie, State.setEpoch, wp_set]
      refine fun proposer _ => ⟨trivial, wp_checkSyncStatus fun synced => .inr ?_⟩
      refine ⟨hok, ?_, ?_, ?_, lfb, vs, hlfb, hvs, .inl ⟨UInt64.not_lt.1 hepoch, hquorum, rfl⟩⟩
      · show s₁.disk.block = s.disk.block
        rw [hdisk]
        rfl
      · show s₁.mem.state.lastFinalizedBlock = s.mem.state.lastFinalizedBlock
        rw [hmem]
      · show s₁.disk.epochVotes.getD .empty = recordVote a s v
        rw [hdisk]
        exact hvotes
    refine (if_pos hmaj).symm ▸ ?_
    by_cases hjump : v.epoch + 1 > s.mem.state.epoch + 1
    · refine (if_pos hjump).symm ▸ ?_
      rw [Proc.wp_bind]
      refine Proc.wp_mono (fun _ s₁ h₁ => hmove s₁ h₁.1 h₁.2)
        (Proc.wp_forEach_const (fun s₁ => s₁.mem = s.mem ∧
          s₁.disk = ((s.withEpochVote a v).withIndexedVote v).disk) _ _ ?_ ⟨rfl, rfl⟩)
      exact fun w s₁ _ h₁ => ⟨trivial, h₁.1, h₁.2⟩
    · refine (if_neg hjump).symm ▸ ?_
      exact hmove _ rfl rfl
  · refine (if_neg hmaj).symm ▸ ?_
    exact .inr (hstay fun h => hmaj ((hasMajority_recordVote vs v.epoch).2 h.2))

theorem handled_of_run {b : Bool} (hr : (handleVote nd a v).run s = (some b, s')) :
    (¬ Accepted nd v ∧ s' = s) ∨ Handled nd a v s s' :=
  Proc.wp_run (wp_handleVote_handled nd a v s) hr

/-- The votes that a message hands to `handleVote`, in their order: the one of a vote message,
and those of the HCC of a block that is pending and passes validation. -/
def Engine.Action.handled (nd : Node) (a : Answers) (s : EngineConf) : Engine.Action → List Vote
  | .vote v => if s.mem.stopped then [] else [v]
  | .block b =>
    if s.mem.stopped then []
    else match s.disk.block (nd.cfg.hash b.header) with
      | none => []
      | some eb =>
        if !eb.status.isPending then []
        else match s.disk.block eb.header.parent,
            s.disk.block s.mem.state.lastFinalizedBlock with
          | some parent, some lfb =>
            match Engine.validateBlock nd a s.disk lfb.header.height eb.block parent with
            | none => []
            | some res =>
              if res.isError then []
              else match eb.header.hcc.votes with
                | none => []
                | some votes => votes.votes a.order
          | _, _ => []
  | _ => []

def handleVotes (nd : Node) (a : Answers) (votes : List Vote) : EngineProc Unit :=
  Proc.forEach votes fun v => do let _ ← Engine.handleVote nd a v

theorem run_handleVotes_cons {votes : List Vote} :
    (handleVotes nd a (v :: votes)).run s = (some (), s') ↔
      ∃ b t, (handleVote nd a v).run s = (some b, t) ∧
        (handleVotes nd a votes).run t = (some (), s') := by
  show ((handleVote nd a v >>= fun _ => pure ()) >>= fun _ =>
    handleVotes nd a votes).run s = _ ↔ _
  rw [Proc.run_bind_eq_some]
  constructor
  · rintro ⟨u, t, hv, hvotes⟩
    obtain ⟨b, t₁, hb, hpure⟩ := Proc.run_bind_eq_some.1 hv
    cases hpure
    exact ⟨b, t, hb, hvotes⟩
  · rintro ⟨b, t, hb, hvotes⟩
    exact ⟨(), t, Proc.run_bind_eq_some.2 ⟨b, t, hb, rfl⟩, hvotes⟩

/-- Apart from the votes it handles, a step leaves the epoch and the recorded votes alone. -/
structure EpochFrame (s s' : EngineConf) : Prop where
  epoch : s'.mem.state.epoch = s.mem.state.epoch
  epochVotes : s'.disk.epochVotes = s.disk.epochVotes

theorem closed_epochFrame (nd : Node) (a : Answers) (s : EngineConf) :
    Closed nd a ⟨∅, Set.univ⟩ (EpochFrame s) (fun _ => True) (fun _ _ => True) where
  effect hw h he := by
    refine ⟨?_, trivial⟩
    cases he with
    | flags e hJ he => exact ⟨by rw [← h.epoch, ← he], h.epochVotes⟩
    | epochVote v hJ hv => exact absurd hv (Set.notMem_empty v)
    | setEpoch v hJ hv => exact absurd hv (Set.notMem_empty v)
    | _ => exact ⟨h.epoch, h.epochVotes⟩
  mid hw h he := by
    cases he with
    | flags e he => exact ⟨by rw [← h.epoch, ← he], h.epochVotes⟩
    | _ => exact ⟨h.epoch, h.epochVotes⟩
  keep _ _ := trivial

abbrev Sound (nd : Node) : EngineConf → Prop := Good nd (fun _ => True) (fun _ => True)

theorem closed_true (nd : Node) (a : Answers) :
    Closed nd a ⟨Set.univ, Set.univ⟩ (fun _ => True) (fun _ => True) (fun _ _ => True) :=
  ⟨fun _ _ _ => ⟨trivial, trivial⟩, fun _ _ _ => trivial, fun _ _ => trivial⟩

theorem Sound.frame (hg : Sound nd s) : Good nd (EpochFrame s) (fun _ => True) s :=
  ⟨⟨hg.wf, rfl, rfl⟩, trivial⟩

def AfterVotes (nd : Node) (a : Answers) (votes : List Vote) (s s' : EngineConf) : Prop :=
  Sound nd s' ∧ ∃ t, (handleVotes nd a votes).run s = (some (), t) ∧ EpochFrame t s'

theorem AfterVotes.of_frame (h : Good nd (EpochFrame s) (fun _ => True) s') :
    AfterVotes nd a [] s s' :=
  ⟨⟨⟨h.wf, trivial⟩, trivial⟩, s, rfl, h.inv⟩

theorem wp_handleVote_sound (hg : Sound nd s) (v : Vote) :
    (handleVote nd a v).wp (fun _ _ => True) (fun _ s' => Sound nd s') s :=
  Proc.wp_mono (fun _ _ h => h.1) (wp_handleVote (closed_true nd a) hg (Set.mem_univ v))

theorem wp_block_afterVotes (hg : Sound nd s) (b : Block) (hrun : s.mem.stopped = false) :
    (handle nd a (.block b)).wp (fun _ _ => True)
      (fun _ => AfterVotes nd a (handled nd a s (.block b)) s) s := by
  have hc := closed_epochFrame nd a s
  rw [handle, handleBlock]
  simp only [Proc.wp_bind, Proc.wp_disk, Proc.wp_orDie, Chain.findBlock]
  intro eb heb
  have hkey := hg.wf.key _ eb heb
  have hb : s.disk.block (nd.cfg.hash eb.header) = some eb := by rw [hkey]; exact heb
  simp only [handled, hrun, heb, Bool.false_eq_true, if_false]
  unfold handleNormalBlock
  by_cases hpending : eb.status = .pending
  swap
  · have hnot : (!eb.status.isPending) = true := by simp [hpending, BlockStatus.isPending]
    rw [if_pos hnot, if_pos hnot]
    exact AfterVotes.of_frame hg.frame
  have hnot : ¬ (!eb.status.isPending) = true := by simp [hpending, BlockStatus.isPending]
  rw [if_neg hnot, if_neg hnot]
  simp only [Proc.wp_bind, Proc.wp_disk, Proc.wp_orDie, wp_getLastFinalizedBlock, Chain.findBlock]
  intro pb hp lb hlb res hres
  simp only [hp, hlb, hres]
  by_cases hbad : res.isError
  · rw [if_pos hbad, if_pos hbad]
    exact Proc.wp_mono (fun _ _ h => AfterVotes.of_frame h)
      (wp_markBlockInvalid hc hg.frame hb hpending)
  rw [if_neg hbad, if_neg hbad]
  simp only [Proc.wp_bind, Proc.wp_orDie]
  intro votes hvotes
  have hok : res.isError = false := by simpa using hbad
  obtain ⟨-, hlow, hheight, -⟩ := validateBlock_ok hres hok
  simp only [hvotes]
  refine Proc.wp_mono ?_ (Proc.wp_and_run
    (wp_hccVotes (closed_true nd a) hg fun v _ => Set.mem_univ v))
  rintro ⟨⟩ s₁ ⟨⟨hg₁, hf₁, hindex⟩, hloop⟩
  have hrest := wp_afterHccVotes (closed_epochFrame nd a s₁) (Sound.frame hg₁) hb hpending hp
    (hg.wf.recent_parent hlb hlow hheight) hres hok hvotes hf₁ hindex
  refine Proc.wp_mono (fun _ s₂ h₂ => ?_) hrest
  exact ⟨⟨⟨h₂.wf, trivial⟩, trivial⟩, s₁, hloop, h₂.inv⟩

theorem wp_step_afterVotes (hg : Sound nd s) (act : Engine.Action) :
    (step nd a act).wp (fun _ _ => True)
      (fun _ => AfterVotes nd a (act.handled nd a s) s) s := by
  have hc := closed_epochFrame nd a s
  have hother : act.delivered nd s.disk ⊆ ∅ → act.handled nd a s = [] →
      (step nd a act).wp (fun _ _ => True)
        (fun _ => AfterVotes nd a (act.handled nd a s) s) s := by
    intro hdelivered hhandled
    rw [hhandled]
    exact Proc.wp_mono (fun _ _ h => AfterVotes.of_frame h)
      (wp_step hc hg.frame act hdelivered (Set.subset_univ _))
  have hstopped : s.mem.stopped = true → act.handled nd a s = [] → (∀ b, act ≠ .addBlock b) →
      (step nd a act).wp (fun _ _ => True)
        (fun _ => AfterVotes nd a (act.handled nd a s) s) s := by
    intro hrun hhandled hact
    rw [hhandled, step, Proc.wp_bind, Proc.wp_mem, hrun]
    · exact AfterVotes.of_frame hg.frame
    · exact hact
  cases act with
  | block b =>
    cases hrun : s.mem.stopped with
    | true => exact hstopped hrun (if_pos hrun) fun _ h => Engine.Action.noConfusion h
    | false =>
      rw [step, Proc.wp_bind, Proc.wp_mem, hrun]
      · exact wp_block_afterVotes hg b hrun
      · exact fun _ h => Engine.Action.noConfusion h
  | vote v =>
    cases hrun : s.mem.stopped with
    | true => exact hstopped hrun (if_pos hrun) fun _ h => Engine.Action.noConfusion h
    | false =>
      have hhandled : handled nd a s (.vote v) = [v] := by
        simp [handled, hrun]
      rw [hhandled]
      show (if s.mem.stopped then pure () else handle nd a (.vote v) : EngineProc Unit).wp _ _ s
      rw [hrun]
      show (handle nd a (.vote v)).wp _ _ s
      rw [handle, Proc.wp_bind]
      refine Proc.wp_mono ?_ (Proc.wp_and_run (wp_handleVote_sound hg v))
      rintro b s₁ ⟨hg₁, hb⟩
      refine Proc.wp_mono ?_ (wp_checkCC (closed_epochFrame nd a s₁) (Sound.frame hg₁) v.block)
      rintro - s₂ ⟨hg₂, -⟩
      exact ⟨⟨⟨hg₂.wf, trivial⟩, trivial⟩, s₁, run_handleVotes_cons.2 ⟨b, s₁, hb, rfl⟩, hg₂.inv⟩
  | addBlock b => exact hother (fun _ h => h) rfl
  | voteTimer => exact hother (fun _ h => h) rfl
  | epochTimer => exact hother (fun _ h => h) rfl
  | enterEpoch => exact hother (fun _ h => h) rfl
  | propose => exact hother (fun _ h => h) rfl
  | stop => exact hother (fun _ h => h) rfl

/-- A node that has processed messages, with the votes that it has accepted so far.  What the
rest of the node answers satisfies `ok`. -/
inductive VoteHistory (nd : Node) (ok : Answers → Prop) (start : EngineConf) :
    EngineConf → Set Vote → Prop where
  | start : VoteHistory nd ok start start ∅
  | step {s s' : EngineConf} {accepted : Set Vote} (h : VoteHistory nd ok start s accepted)
      (a : Answers) (ha : ok a) (act : Engine.Action)
      (hr : (Engine.step nd a act).run s = (some (), s')) :
      VoteHistory nd ok start s' (accepted ∪ {v | v ∈ act.handled nd a s ∧ Accepted nd v})

def careful (signed : Address → Bytes → Prop) : Set Address :=
  {i | ∀ v : Vote, v.id = i → v.epoch = -1 → ¬ signed i v.signBytes}

def CarefulStake (signed : Address → Bytes → Prop) (a : Answers) : Prop :=
  ∀ h vs, a.getNextValidatorSet h = some vs → vs.NonNeg ∧
    vs.totalStake ≤ 3 * Quorum.weight vs.members vs.stakeOf (careful signed)

section Run

variable {signed : Address → Bytes → Prop} {accepted : Set Vote} {votes : List Vote}

def RecordsAccepted (nd : Node) (accepted : Set Vote) (s : EngineConf) : Prop :=
  (∀ v ∈ accepted, Accepted nd v) ∧ ∀ v ∈ s.recorded, v ∈ accepted

theorem toNat_succ_of_ne_last {e : UInt64} (h : e ≠ -1) : (e + 1).toNat = e.toNat + 1 := by
  have hlast : e.toNat ≠ 2 ^ 64 - 1 := fun heq => h (UInt64.toNat_inj.1 heq)
  have := e.toNat_lt
  rw [UInt64.toNat_add]
  show (e.toNat + 1) % 2 ^ 64 = _
  omega

variable (hsigned : ∀ sig bytes id, nd.verify sig bytes id = true → signed id bytes)
include hsigned

theorem EpochQuorum.careful {vs : ValidatorSet} (hvs : vs.NonNeg)
    (hstake : vs.totalStake ≤ 3 * Quorum.weight vs.members vs.stakeOf (careful signed))
    (haccepted : ∀ v ∈ accepted, Accepted nd v) {e : UInt64} (h : EpochQuorum vs accepted e) :
    e ≠ -1 := by
  rintro rfl
  obtain ⟨i, -, ⟨w, hw, hid, hle⟩, hcareful⟩ := Quorum.IsQuorum.exists_mem_third
    (fun i _ => stakeOf_nonneg hvs i) (sum_stakeOf_le hvs) hstake h
  have hlast : w.epoch = -1 := by
    refine UInt64.le_antisymm ?_ hle
    rw [UInt64.le_iff_toNat_le]
    have := w.epoch.toNat_lt
    show w.epoch.toNat ≤ 2 ^ 64 - 1
    omega
  obtain ⟨sig, -, hverify⟩ := Vote.verify_of_validate (haccepted w hw)
  exact hcareful w hid hlast (hid ▸ hsigned sig _ _ hverify)

theorem Handled.epoch_cases (h : Handled nd a v s s') (ha : CarefulStake signed a)
    (hrec : RecordsAccepted nd accepted s) :
    s'.mem.state.epoch = s.mem.state.epoch ∨
      s.mem.state.epoch ≤ v.epoch ∧ s'.mem.state.epoch.toNat = v.epoch.toNat + 1 ∧
        ∃ lfb vs, s.disk.block s.mem.state.lastFinalizedBlock = some lfb ∧
          a.getNextValidatorSet (nd.cfg.hash lfb.header) = some vs ∧
          EpochQuorum vs (accepted ∪ {v}) v.epoch := by
  obtain ⟨lfb, vs, hlfb, hvs, ⟨hle, hquorum, hepoch⟩ | ⟨-, hepoch⟩⟩ := h.epoch
  swap
  · exact .inl hepoch
  obtain ⟨hnonneg, hstake⟩ := ha _ vs hvs
  have hall : EpochQuorum vs (accepted ∪ {v}) v.epoch := by
    refine hquorum.mono hnonneg fun w hw he => ⟨?_, he⟩
    exact (mem_recordVote hw).imp (hrec.2 w) id
  have hne : v.epoch ≠ -1 := by
    refine hall.careful hsigned hnonneg hstake ?_
    rintro w (hw | rfl)
    · exact hrec.1 w hw
    · exact h.accepted
  refine .inr ⟨hle, ?_, lfb, vs, hlfb, hvs, hall⟩
  rw [hepoch]
  exact toNat_succ_of_ne_last hne

omit hsigned in
theorem recordsAccepted_handleVote {b : Bool}
    (hr : (handleVote nd a v).run s = (some b, s')) (hrec : RecordsAccepted nd accepted s) :
    RecordsAccepted nd (accepted ∪ {w | w = v ∧ Accepted nd w}) s' := by
  have hall : ∀ w ∈ accepted ∪ {w | w = v ∧ Accepted nd w}, Accepted nd w := by
    rintro w (hw | hw)
    · exact hrec.1 w hw
    · exact hw.2
  refine ⟨hall, fun w hw => ?_⟩
  rcases handled_of_run hr with ⟨-, rfl⟩ | h
  · exact .inl (hrec.2 w hw)
  · rw [h.recorded] at hw
    rcases mem_recordVote hw with hw | rfl
    · exact .inl (hrec.2 w hw)
    · exact .inr ⟨rfl, h.accepted⟩

theorem run_handleVotes_spec (ha : CarefulStake signed a) (hrec : RecordsAccepted nd accepted s)
    (hr : (handleVotes nd a votes).run s = (some (), s')) :
    RecordsAccepted nd (accepted ∪ {w | w ∈ votes ∧ Accepted nd w}) s' ∧
      s.mem.state.epoch ≤ s'.mem.state.epoch := by
  induction votes generalizing s accepted with
  | nil =>
    cases hr
    exact ⟨by simpa using hrec, UInt64.le_refl _⟩
  | cons v votes ih =>
    obtain ⟨b, t, hv, hvotes⟩ := run_handleVotes_cons.1 hr
    obtain ⟨hrec', hle⟩ := ih (recordsAccepted_handleVote hv hrec) hvotes
    refine ⟨?_, UInt64.le_trans ?_ hle⟩
    · have hset : accepted ∪ {w | w = v ∧ Accepted nd w} ∪ {w | w ∈ votes ∧ Accepted nd w} =
          accepted ∪ {w | w ∈ v :: votes ∧ Accepted nd w} := by
        ext w
        simp only [Set.mem_union, Set.mem_ofPred_eq, List.mem_cons]
        tauto
      exact hset ▸ hrec'
    · rcases handled_of_run hv with ⟨-, rfl⟩ | h
      · exact UInt64.le_refl _
      · rcases h.epoch_cases hsigned ha hrec with heq | ⟨hle, hnext, -⟩
        · rw [heq]
          exact UInt64.le_refl _
        · rw [UInt64.le_iff_toNat_le] at hle ⊢
          omega

theorem VoteHistory.sound {d : Store} (hd : Fresh nd d) (hvotes : d.epochVotes = none)
    (h : VoteHistory nd (CarefulStake signed) ⟨new nd.cfg d, d, []⟩ s accepted) :
    Sound nd s ∧ RecordsAccepted nd accepted s := by
  induction h with
  | start =>
    refine ⟨⟨⟨hd.wellFormed [], trivial⟩, trivial⟩, fun v hv => absurd hv (Set.notMem_empty v), ?_⟩
    intro v hv
    simp [recorded, hvotes] at hv
  | step h a ha act hr ih =>
    obtain ⟨hg, t, ht, hframe⟩ := Proc.wp_run (wp_step_afterVotes ih.1 act) hr
    obtain ⟨hrec, -⟩ := run_handleVotes_spec hsigned ha ih.2 ht
    refine ⟨hg, hrec.1, fun v hv => hrec.2 v ?_⟩
    rw [recorded, hframe.epochVotes] at hv
    exact hv

omit hsigned in
/-- The epoch of a node never falls, and whenever `handleVote` sets it to another epoch, a quorum
of the next validator set of the last finalized block has had votes of the epoch before it or
later accepted by this node. -/
theorem epoch_safety {d : Store} (hd : Fresh nd d) (hvotes : d.epochVotes = none)
    (hsigned : ∀ sig bytes id, nd.verify sig bytes id = true → signed id bytes)
    (h : VoteHistory nd (CarefulStake signed) ⟨Engine.new nd.cfg d, d, []⟩ s accepted)
    (ha : CarefulStake signed a) (act : Engine.Action) :
    (∀ s', (Engine.step nd a act).run s = (some (), s') →
      s.mem.state.epoch ≤ s'.mem.state.epoch) ∧
    ∀ before v after t b t', act.handled nd a s = before ++ v :: after →
      (handleVotes nd a before).run s = (some (), t) →
      (Engine.handleVote nd a v).run t = (some b, t') →
      t'.mem.state.epoch ≠ t.mem.state.epoch →
      ∃ (e : UInt64) (lfb : ExtendedBlock) (vs : ValidatorSet),
        t'.mem.state.epoch.toNat = e.toNat + 1 ∧
        t.disk.block t.mem.state.lastFinalizedBlock = some lfb ∧
        a.getNextValidatorSet (nd.cfg.hash lfb.header) = some vs ∧
        Quorum.IsQuorum vs.members vs.stakeOf vs.totalStake
          {i | ∃ w, (w ∈ accepted ∨ w ∈ before ++ [v]) ∧ Accepted nd w ∧ w.id = i ∧
            e ≤ w.epoch} := by
  obtain ⟨hg, hrec⟩ := h.sound hsigned hd hvotes
  constructor
  · intro s' hr
    obtain ⟨-, t, ht, hframe⟩ := Proc.wp_run (wp_step_afterVotes hg act) hr
    rw [hframe.epoch]
    exact (run_handleVotes_spec hsigned ha hrec ht).2
  · intro before v after t b t' _ hbefore hv hne
    obtain ⟨hrec', -⟩ := run_handleVotes_spec hsigned ha hrec hbefore
    rcases handled_of_run hv with ⟨-, rfl⟩ | h
    · exact absurd rfl hne
    rcases h.epoch_cases hsigned ha hrec' with heq | ⟨-, hnext, lfb, vs, hlfb, hvs, hquorum⟩
    · exact absurd heq hne
    refine ⟨v.epoch, lfb, vs, hnext, hlfb, hvs, ?_⟩
    have hnonneg := (ha _ vs hvs).1
    refine Quorum.IsQuorum.mono (fun i _ => stakeOf_nonneg hnonneg i) ?_ hquorum
    rintro i ⟨w, (hw | ⟨hw, hok⟩) | rfl, hid, hle⟩
    · exact ⟨w, .inl hw, hrec.1 w hw, hid, hle⟩
    · exact ⟨w, .inr (List.mem_append_left _ hw), hok, hid, hle⟩
    · exact ⟨w, .inr (by simp), h.accepted, hid, hle⟩

end Run

def oneVoteNode : Node :=
  { sampleNode with verify := fun _ bytes _ => bytes == sampleVote.signBytes }

def oneVoteStart : EngineConf :=
  ⟨Engine.new oneVoteNode.cfg (rootStore oneVoteNode sampleRoot),
    rootStore oneVoteNode sampleRoot, []⟩

theorem epoch_safety_one_vote :
    let signed : Address → Bytes → Prop := fun _ bytes => bytes = sampleVote.signBytes
    ∃ t', (handleVote oneVoteNode (sampleAnswers 12) sampleVote).run oneVoteStart =
        (some true, t') ∧ t'.mem.state.epoch = 2 ∧ CarefulStake signed (sampleAnswers 12) ∧
      ∃ (e : UInt64) (lfb : ExtendedBlock) (vs : ValidatorSet),
        t'.mem.state.epoch.toNat = e.toNat + 1 ∧
        oneVoteStart.disk.block oneVoteStart.mem.state.lastFinalizedBlock = some lfb ∧
        (sampleAnswers 12).getNextValidatorSet (oneVoteNode.cfg.hash lfb.header) = some vs ∧
        Quorum.IsQuorum vs.members vs.stakeOf vs.totalStake
          {i | ∃ w, (w ∈ (∅ : Set Vote) ∨ w ∈ [] ++ [sampleVote]) ∧ Accepted oneVoteNode w ∧
            w.id = i ∧ e ≤ w.epoch} := by
  intro signed
  have hsigned : ∀ sig bytes id, oneVoteNode.verify sig bytes id = true → signed id bytes :=
    fun _ _ _ h => beq_iff_eq.1 h
  have hcareful : ∀ i, i ∈ careful signed := by
    intro i v _ hlast hv
    have hepoch := Vote.epoch_eq_of_signBytes hv
    rw [hlast] at hepoch
    revert hepoch
    decide
  have hstake : CarefulStake signed (sampleAnswers 12) := by
    intro h vs hvs
    cases Option.some.inj hvs
    refine ⟨by decide, ?_⟩
    have hmembers : (⟨0, [⟨1, 10⟩]⟩ : ValidatorSet).members = {1} := rfl
    rw [Quorum.weight, hmembers, Finset.sum_singleton, Set.indicator_of_mem (hcareful 1)]
    decide
  have hreturns : ((handleVote oneVoteNode (sampleAnswers 12) sampleVote).run
      oneVoteStart).1 = some true := by decide
  have hepoch : ((handleVote oneVoteNode (sampleAnswers 12) sampleVote).run
      oneVoteStart).2.mem.state.epoch = 2 := by decide
  obtain ⟨t', hrun⟩ : ∃ t', (handleVote oneVoteNode (sampleAnswers 12) sampleVote).run
      oneVoteStart = (some true, t') := ⟨_, Prod.ext hreturns rfl⟩
  rw [hrun] at hepoch
  have hsafe := (epoch_safety (fresh_rootStore (by decide)) rfl hsigned
    (VoteHistory.start : VoteHistory oneVoteNode (CarefulStake signed) oneVoteStart oneVoteStart ∅)
    hstake
    (.vote sampleVote)).2 [] sampleVote [] oneVoteStart true t' rfl rfl hrun
  have hbefore : oneVoteStart.mem.state.epoch = 1 := by decide
  refine ⟨t', hrun, hepoch, hstake, hsafe ?_⟩
  rw [hepoch, hbefore]
  decide

/-- The node is past every epoch for which it has recorded a quorum. -/
def CaughtUp (vs : ValidatorSet) (s : EngineConf) : Prop :=
  ∀ e, EpochQuorum vs {w | w ∈ s.recorded} e → e < s.mem.state.epoch

/-- If a vote of the current epoch or later completes a quorum for the current epoch, then it
completes one for its own epoch as well, which is not the last one there is. -/
def InStep (nd : Node) (a : Answers) (vs : ValidatorSet) (s : EngineConf) (v : Vote) : Prop :=
  Accepted nd v → s.mem.state.epoch ≤ v.epoch →
    EpochQuorum vs {w | w ∈ recordVote a s v} s.mem.state.epoch →
    EpochQuorum vs {w | w ∈ recordVote a s v} v.epoch ∧ v.epoch ≠ -1

/-- Votes are handled one after the other.  Each comes with the answers of the rest of the node
and with what it leaves; the next validators of the last finalized block are `vs`. -/
inductive VoteRun (nd : Node) (vs : ValidatorSet) :
    EngineConf → List (Answers × Vote × EngineConf) → Prop where
  | nil (s : EngineConf) : VoteRun nd vs s []
  | cons {s t : EngineConf} {b : Bool} {rest : List (Answers × Vote × EngineConf)} (a : Answers)
      (v : Vote) (hr : (Engine.handleVote nd a v).run s = (some b, t))
      (hvs : ∀ lfb, s.disk.block s.mem.state.lastFinalizedBlock = some lfb →
        a.getNextValidatorSet (nd.cfg.hash lfb.header) = some vs)
      (hrest : VoteRun nd vs t rest) : VoteRun nd vs s ((a, v, t) :: rest)

def AllInStep (nd : Node) (vs : ValidatorSet) :
    EngineConf → List (Answers × Vote × EngineConf) → Prop
  | _, [] => True
  | s, (a, v, t) :: rest => InStep nd a vs s v ∧ AllInStep nd vs t rest

section CatchUp

variable {vs : ValidatorSet}

theorem EpochQuorum.of_recordVote (hs : vs.NonNeg) {e : UInt64} (hlt : v.epoch < e)
    (h : EpochQuorum vs {w | w ∈ recordVote a s v} e) : EpochQuorum vs {w | w ∈ s.recorded} e := by
  refine h.mono hs fun w hw he => ⟨(mem_recordVote hw).resolve_right ?_, he⟩
  rintro rfl
  exact absurd he (UInt64.not_le.2 hlt)

theorem EpochQuorum.antitone (hs : vs.NonNeg) {votes : Set Vote} {e e' : UInt64} (hle : e' ≤ e)
    (h : EpochQuorum vs votes e) : EpochQuorum vs votes e' :=
  h.mono hs fun _ hw he => ⟨hw, UInt64.le_trans hle he⟩

theorem caughtUp_step (hs : vs.NonNeg) (hc : CaughtUp vs s) {b : Bool}
    (hr : (handleVote nd a v).run s = (some b, s'))
    (hvs : ∀ lfb, s.disk.block s.mem.state.lastFinalizedBlock = some lfb →
      a.getNextValidatorSet (nd.cfg.hash lfb.header) = some vs) :
    CaughtUp vs s' ↔ InStep nd a vs s v := by
  rcases handled_of_run hr with ⟨hbad, rfl⟩ | h
  · exact iff_of_true hc fun hok => absurd hok hbad
  obtain ⟨lfb, vs', hlfb, hvs', hepoch⟩ := h.epoch
  rw [hvs lfb hlfb, Option.some.injEq] at hvs'
  subst hvs'
  unfold CaughtUp InStep
  rw [h.recorded]
  rcases hepoch with ⟨hle, hquorum, hepoch⟩ | ⟨hno, hepoch⟩
  · rw [hepoch]
    constructor
    · intro hall _ _ _
      refine ⟨hquorum, fun hlast => ?_⟩
      have hlt := hall v.epoch hquorum
      rw [hlast] at hlt
      revert hlt
      decide
    · intro hin e he
      obtain ⟨-, hne⟩ := hin h.accepted hle (hquorum.antitone hs hle)
      rw [UInt64.lt_iff_toNat_lt, toNat_succ_of_ne_last hne]
      by_cases hgt : v.epoch < e
      · have hold := UInt64.lt_iff_toNat_lt.1 (hc e (he.of_recordVote hs hgt))
        rw [UInt64.le_iff_toNat_le] at hle
        omega
      · rw [UInt64.not_lt, UInt64.le_iff_toNat_le] at hgt
        omega
  · rw [hepoch]
    constructor
    · intro hall _ hle hquorum
      exact absurd (hall _ hquorum) (UInt64.lt_irrefl _)
    · intro hin e he
      by_cases hgt : v.epoch < e
      · exact hc e (he.of_recordVote hs hgt)
      by_contra hlt
      -- the quorum is also one for the current epoch, so it was noticed
      have hcurrent := he.antitone hs (UInt64.not_lt.1 hlt)
      have hle : s.mem.state.epoch ≤ v.epoch :=
        UInt64.le_trans (UInt64.not_lt.1 hlt) (UInt64.not_lt.1 hgt)
      exact hno ⟨hle, (hin h.accepted hle hcurrent).1⟩

/-- The node stays caught up after each vote exactly if every vote is in step. -/
theorem caughtUp_iff_inStep (hs : vs.NonNeg) (hc : CaughtUp vs s)
    {steps : List (Answers × Vote × EngineConf)} (hrun : VoteRun nd vs s steps) :
    (∀ x ∈ steps, CaughtUp vs x.2.2) ↔ AllInStep nd vs s steps := by
  induction hrun with
  | nil s => exact iff_of_true (by simp) trivial
  | cons a v hr hvs hrest ih =>
    rw [List.forall_mem_cons, AllInStep, ← caughtUp_step hs hc hr hvs]
    exact and_congr_right fun ht => ih ht

end CatchUp

def fourValidators : ValidatorSet := ⟨0, [⟨1, 1⟩, ⟨2, 1⟩, ⟨3, 1⟩, ⟨4, 1⟩]⟩

def fourAnswers : Answers :=
  { sampleAnswers 12 with getNextValidatorSet := fun _ => some fourValidators }

def epochVote (id : Address) (epoch : UInt64) : Vote := ⟨5, 0, 0, epoch, id, some ⟨[1]⟩⟩

def calls : EngineConf → List Vote → List (Answers × Vote × EngineConf)
  | _, [] => []
  | s, v :: votes =>
    let t := ((Engine.handleVote sampleNode fourAnswers v).run s).2
    (fourAnswers, v, t) :: calls t votes

def callsReturn : EngineConf → List Vote → Bool
  | _, [] => true
  | s, v :: votes =>
    let (result, t) := (Engine.handleVote sampleNode fourAnswers v).run s
    result.isSome && callsReturn t votes

theorem voteRun_calls {votes : List Vote} (h : callsReturn s votes = true) :
    VoteRun sampleNode fourValidators s (calls s votes) := by
  induction votes generalizing s with
  | nil => exact .nil s
  | cons v votes ih =>
    obtain ⟨hv, hvotes⟩ := Bool.and_eq_true_iff.1 h
    obtain ⟨b, hb⟩ := Option.isSome_iff_exists.1 hv
    exact .cons fourAnswers v (Prod.ext hb rfl) (fun _ _ => rfl) (ih hvotes)

theorem caughtUp_sampleStart : CaughtUp fourValidators sampleStart := by
  intro e he
  have hnodup : (empty.entries.map Vote.id).Nodup := List.nodup_nil
  have hmaj := (epochQuorum_iff fourValidators hnodup e).1 he
  cases hmaj

def lateVotes : List Vote := [epochVote 3 1, epochVote 1 3, epochVote 2 3]

/-- Validators 1, 2 and 3 of 4 have voted in epoch 1 or later, and the node stays in epoch 1. -/
theorem votes_out_of_step :
    CaughtUp fourValidators sampleStart ∧
      VoteRun sampleNode fourValidators sampleStart (calls sampleStart lateVotes) ∧
      ∃ x ∈ calls sampleStart lateVotes, x.2.2.mem.state.epoch = 1 ∧
        EpochQuorum fourValidators {w | w ∈ x.2.2.recorded} 1 ∧
        ¬ CaughtUp fourValidators x.2.2 := by
  have hlast : ((calls sampleStart lateVotes)[2]?.map fun x =>
      (x.2.2.mem.state.epoch, x.2.2.recorded.entries.map Vote.id,
        fourValidators.hasMajorityVotes (x.2.2.recorded.entries.filter fun w => w.epoch ≥ 1))) =
      some (1, [3, 1, 2], true) := by decide
  obtain ⟨x, hx, heq⟩ := Option.map_eq_some_iff.1 hlast
  obtain ⟨hepoch, hrest⟩ := Prod.mk.inj heq
  obtain ⟨hids, hmaj⟩ := Prod.mk.inj hrest
  have hnodup : (x.2.2.recorded.entries.map Vote.id).Nodup := by
    rw [hids]
    decide
  have hquorum := (epochQuorum_iff fourValidators hnodup 1).2 hmaj
  refine ⟨caughtUp_sampleStart, voteRun_calls (by decide), x, List.mem_of_getElem? hx,
    hepoch, hquorum, fun h => ?_⟩
  have hlt := h 1 hquorum
  rw [hepoch] at hlt
  exact UInt64.lt_irrefl 1 hlt

theorem inStep_of_majority
    (h : fourValidators.hasMajorityVotes ((recordVote fourAnswers s v).entries.filter fun w =>
        w.epoch ≥ s.mem.state.epoch) = true →
      fourValidators.hasMajorityVotes ((recordVote fourAnswers s v).entries.filter fun w =>
        w.epoch ≥ v.epoch) = true ∧ v.epoch ≠ -1) :
    InStep sampleNode fourAnswers fourValidators s v := by
  intro _ _ hquorum
  have hnodup := nodup_recordVote fourAnswers s v
  obtain ⟨hmaj, hlast⟩ := h ((epochQuorum_iff fourValidators hnodup _).1 hquorum)
  exact ⟨(epochQuorum_iff fourValidators hnodup _).2 hmaj, hlast⟩

def firstVotes : List Vote := [epochVote 3 1, epochVote 1 1, epochVote 2 1]

/-- The third vote completes a quorum, and the node goes on to epoch 2. -/
theorem caughtUp_iff_inStep_quorum :
    VoteRun sampleNode fourValidators sampleStart (calls sampleStart firstVotes) ∧
      ((calls sampleStart firstVotes).map fun x => x.2.2.mem.state.epoch) = [1, 1, 2] ∧
      ∀ x ∈ calls sampleStart firstVotes, CaughtUp fourValidators x.2.2 := by
  have hrun : VoteRun sampleNode fourValidators sampleStart (calls sampleStart firstVotes) :=
    voteRun_calls (by decide)
  refine ⟨hrun, by decide, (caughtUp_iff_inStep (by decide) caughtUp_sampleStart hrun).2 ?_⟩
  exact ⟨inStep_of_majority (by decide), inStep_of_majority (by decide),
    inStep_of_majority (by decide), trivial⟩

end ThetaSubchain
