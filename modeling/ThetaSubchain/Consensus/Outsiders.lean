/-
The node with and without the votes of outsiders.

Two runs of a node are compared that differ in votes of addresses in no validator set.  These show
in three places: the votes that are counted when a vote arrives, the highest vote, and the number
of voters whose votes are stored.
-/
import ThetaSubchain.Consensus.OutsiderVotes
import ThetaSubchain.Lib.TwoRuns

namespace ThetaSubchain

open Durable Engine Chain BlockStatus VoteSet ValidatorSet List
open Durable.Proc (Together Respects)

namespace Outsiders

/-! ## What the two runs have in common -/

def stored (s : EngineConf) : VoteSet := s.disk.epochVotes.getD .empty

structure Counted (voters : Finset Address) (s : VoteSet) : Prop where
  distinct : (s.entries.map Vote.id).Nodup
  known : ∀ v ∈ s, v.id ∈ voters

def ownOutputs (outs : List Output) : List Output :=
  outs.filter fun
    | .relay _ => false
    | _ => true

structure Alike (out voters : Finset Address) (s t : EngineConf) : Prop where
  mem : s.mem = t.mem
  block : s.disk.block = t.disk.block
  blocksByHeight : s.disk.blocksByHeight = t.disk.blocksByHeight
  stub : s.disk.stub = t.disk.stub
  votes : ∀ h, (Chain.findVotesByHash s.disk h).Alike out (Chain.findVotesByHash t.disk h)
  epochVotes : (stored s).Alike out (stored t)
  left : Counted voters (stored s)
  right : Counted voters (stored t)
  outs : ownOutputs s.outs = ownOutputs t.outs

/-- The relation that is kept within a step.  While the epoch votes are not the same in both
runs, the level separates the votes of the outsiders from those of the others. -/
structure AlikeAt (out voters : Finset Address) (level : Option UInt64) (s t : EngineConf) : Prop
    extends Alike out voters s t where
  levelled : s.disk.epochVotes = t.disk.epochVotes ∨
    ∃ l ∈ level, Overtopped out l (stored s) ∧ Overtopped out l (stored t)

/-- The answers of a step.  The validators are no outsiders, and the presence of outsiders
does not change the order in which the other votes are visited. -/
structure Apart (out : Finset Address) (a : Answers) : Prop where
  order : a.order.Steady out
  validators : ∀ h vs, a.getValidatorSet h = some vs → Disjoint vs.members out
  nextValidators : ∀ h vs, a.getNextValidatorSet h = some vs → Disjoint vs.members out

abbrev Blind (out voters : Finset Address) (level : Option UInt64) {α : Type} (m : EngineProc α) :
    Prop :=
  Respects (AlikeAt out voters level) m

section Readers

variable {d d' : Store}

theorem findBlock_congr (h : d.block = d'.block) : findBlock d = findBlock d' := by
  funext hash
  rw [findBlock, findBlock, h]

theorem tipLoop_congr (h : d.block = d'.block) (leaf : Bool) (n : ℕ) (stack : List ExtendedBlock)
    (candidate : ExtendedBlock) :
    tipLoop d leaf n stack candidate = tipLoop d' leaf n stack candidate := by
  have hfind := findBlock_congr h
  induction n generalizing stack candidate with
  | zero => rfl
  | succ n ih =>
    cases stack with
    | nil => rfl
    | cons curr stack => simp only [tipLoop, ih, hfind]

theorem isDescendant_congr (h : d.block = d'.block) (ascendant descendant : Hash) :
    isDescendant d ascendant descendant = isDescendant d' ascendant descendant := by
  unfold isDescendant
  induction maxDistance generalizing descendant with
  | zero => rfl
  | succ n ih => simp only [isDescendantLoop, ih, findBlock, h]

theorem validateBlock_congr (h : d.block = d'.block) (nd : Node) (a : Answers) (height : UInt64)
    (block : Block) (parent : ExtendedBlock) :
    validateBlock nd a d height block parent =
      validateBlock nd a d' height block parent := by
  have hhcc : validateHCC nd a d block parent = validateHCC nd a d' block parent := by
    simp only [validateHCC, isDescendant_congr h, findBlock, h]
  simp only [validateBlock, hhcc]

theorem findBlocksByHeight_congr (h : d.block = d'.block)
    (hindex : d.blocksByHeight = d'.blocksByHeight) (height : UInt64) :
    findBlocksByHeight d height = findBlocksByHeight d' height := by
  rw [findBlocksByHeight, findBlocksByHeight, hindex, findBlock_congr h]

end Readers

section Steps

variable {out voters : Finset Address} {level : Option UInt64} {nd : Node} {a : Answers}

theorem Alike.findBlock {s t : EngineConf} (h : Alike out voters s t) :
    findBlock s.disk = findBlock t.disk := findBlock_congr h.block

theorem respects_modifyMem (f : Engine → Engine) : Blind out voters level (Proc.modifyMem f) :=
  .modifyMem fun _ _ h => { h with mem := congrArg f h.mem }

theorem respects_saveBlock (eb : ExtendedBlock) : Blind out voters level (saveBlock nd.cfg eb) :=
  .modifyDisk fun s t h => { h with block := by simp only [Chain.Store.setBlock, h.block] }

theorem respects_addBlockByHeightIndex (height : UInt64) (hash : Hash) :
    Blind out voters level
      (addBlockByHeightIndex height hash : EngineProc Unit) := by
  refine .disk (fun s t h => by rw [h.blocksByHeight]) fun d => .ite (.pure ()) ?_
  refine .modifyDisk fun s t h => { h with blocksByHeight := ?_ }
  simp only [h.blocksByHeight]

theorem respects_updateBlock (hash : Hash) (f : ExtendedBlock → ExtendedBlock) :
    Blind out voters level (updateBlock nd.cfg hash f) :=
  .disk (fun s t h => by rw [h.findBlock]) fun d =>
    (Respects.orDie _).bind fun _ => respects_saveBlock _

theorem respects_addBlock (block : Block) (isSnapshotRoot : Bool) :
    Blind out voters level
      (addBlock nd.cfg block isSnapshotRoot : EngineProc (Except String ExtendedBlock)) := by
  unfold addBlock
  refine .ite (.pure _) (.disk (fun s t h => by rw [h.findBlock]) fun d => .ite (.pure _) ?_)
  -- the parent is updated, and then the block is saved and indexed
  have hrest : ∀ u : Unit, Blind out voters level (do
      let children := (findBlocksByHeight (← .disk) (block.header.height + 1)).filter
        fun c => c.header.parent = nd.cfg.hash block.header
      let extendedBlock : ExtendedBlock :=
        ⟨block, children.map fun c => nd.cfg.hash c.header, .pending, false⟩
      saveBlock nd.cfg extendedBlock
      addBlockByHeightIndex block.header.height (nd.cfg.hash block.header)
      pure (.ok extendedBlock) : EngineProc (Except String ExtendedBlock)) := by
    intro u
    refine .disk (fun s t h => by rw [findBlocksByHeight_congr h.block h.blocksByHeight]) fun d => ?_
    exact (respects_saveBlock _).bind fun _ =>
      (respects_addBlockByHeightIndex _ _).bind fun _ => .pure _
  refine .ite (.disk (fun s t h => by rw [h.findBlock]) fun d => ?_) (hrest ())
  cases findBlock d block.header.parent with
  | none => exact hrest ()
  | some parent => exact (respects_saveBlock _).bind fun _ => hrest ()

theorem respects_finalizeLoop (n : ℕ) (hash : Hash) (status : BlockStatus) :
    Blind out voters level
      (finalizeLoop nd.cfg n hash status : EngineProc (Except String Unit)) := by
  induction n generalizing hash status with
  | zero => exact .die
  | succ n ih =>
    unfold finalizeLoop
    refine .ite (.pure _) (.disk (fun s t h => by rw [h.findBlock]) fun d => ?_)
    cases findBlock d hash with
    | none => exact .pure _
    | some b =>
      exact .ite (.pure _) (.ite (.pure _) ((respects_saveBlock _).bind fun _ => ih _ _))

theorem respects_set (f : State → State) : Blind out voters level (State.set nd.cfg f) := by
  refine (respects_modifyMem _).bind fun _ => .mem (fun _ _ h => h.mem) fun e => ?_
  exact .modifyDisk fun _ _ h => { h with stub := rfl }

theorem respects_getHighestCCBlock : Blind out voters level State.getHighestCCBlock := by
  intro s t h
  refine Together.orDie h ?_
  rw [h.findBlock, h.mem]

theorem respects_getLastFinalizedBlock : Blind out voters level State.getLastFinalizedBlock := by
  intro s t h
  refine Together.orDie h ?_
  rw [h.findBlock, h.mem]

/-- A vote that is delivered in both runs: of a known voter, and on the right side of the
level. -/
def Known (out voters : Finset Address) (level : Option UInt64) (v : Vote) : Prop :=
  (∀ l ∈ level, AtLevel out l v) ∧ v.id ∈ voters

variable {v : Vote}

theorem Counted.addVote {s : VoteSet} (h : Counted voters s) (hv : v.id ∈ voters) (ord : MapOrder) :
    Counted voters ((s.addVote v).uniqueVoter ord) := by
  obtain ⟨hsub, hnodup, -⟩ := uniqueVoter_spec ord (s.addVote v)
  refine ⟨hnodup, fun w hw => ?_⟩
  rcases mem_addVote.1 (hsub w hw) with ⟨hmem, -⟩ | rfl
  · exact h.known w hmem
  · exact hv

theorem respects_addEpochVote {ord : MapOrder} (hord : ord.Steady out)
    (hv : Known out voters level v) : Blind out voters level (State.addEpochVote ord v) := by
  refine .modifyDisk fun s t h =>
    { h with epochVotes := ?_, left := h.left.addVote hv.2 ord, right := h.right.addVote hv.2 ord
             levelled := ?_ }
  · exact List.Perm.of_eq (others_uniqueVoter hord (h.epochVotes.addVote v))
  · rcases h.levelled with heq | ⟨l, hl, htop, htop'⟩
    · exact .inl (by simp only [heq])
    · exact .inr ⟨l, hl, htop.addVote h.left.distinct (hv.1 l hl) ord,
        htop'.addVote h.right.distinct (hv.1 l hl) ord⟩

theorem findVotesByHash_addVote (d : Store) (v : Vote) (h : Hash) :
    findVotesByHash { d with
      votes := Function.update d.votes v.block (some ((findVotesByHash d v.block).addVote v)) } h =
      if h = v.block then (findVotesByHash d h).addVote v else findVotesByHash d h := by
  by_cases hh : h = v.block
  · simp [findVotesByHash, hh]
  · simp [findVotesByHash, hh]

theorem respects_addVoteToIndex (v : Vote) : Blind out voters level (addVoteToIndex v) := by
  refine .ite (.pure ()) (.modifyDisk fun s t h => { h with votes := fun hash => ?_ })
  rw [findVotesByHash_addVote, findVotesByHash_addVote]
  by_cases hh : hash = v.block
  · rw [if_pos hh, if_pos hh]
    exact (h.votes hash).addVote v
  · rw [if_neg hh, if_neg hh]
    exact h.votes hash

theorem respects_addVote {ord : MapOrder} (hord : ord.Steady out) (hv : Known out voters level v) :
    Blind out voters level (State.addVote ord v) :=
  (respects_addEpochVote hord hv).bind fun _ => respects_addVoteToIndex v

theorem AlikeAt.maxVoteHeight {s t : EngineConf} (h : AlikeAt out voters level s t)
    (ord : MapOrder) :
    maxVoteHeight ((stored s).votes ord) = maxVoteHeight ((stored t).votes ord) := by
  rcases h.levelled with heq | ⟨l, -, htop, htop'⟩
  · rw [stored, stored, heq]
  · exact maxVoteHeight_alike ord h.epochVotes htop htop'

theorem Overtopped.exists_some {s : EngineConf} {l : UInt64} (h : Overtopped out l (stored s)) :
    ∃ e, s.disk.epochVotes = some e := by
  obtain ⟨v, hv, -⟩ := h.top
  rw [stored] at hv
  cases he : s.disk.epochVotes with
  | none =>
    rw [he] at hv
    exact absurd hv (not_mem_empty v)
  | some e => exact ⟨e, rfl⟩

theorem AlikeAt.epochVotes_cases {s t : EngineConf} (h : AlikeAt out voters level s t) :
    (s.disk.epochVotes = none ∧ t.disk.epochVotes = none) ∨
      ∃ e e', s.disk.epochVotes = some e ∧ t.disk.epochVotes = some e' ∧ e.Alike out e' := by
  rcases h.levelled with heq | ⟨l, -, htop, htop'⟩
  · cases he : s.disk.epochVotes with
    | none => exact .inl ⟨rfl, heq ▸ he⟩
    | some e => exact .inr ⟨e, e, rfl, heq ▸ he, .refl out e⟩
  · obtain ⟨e, he⟩ := Overtopped.exists_some htop
    obtain ⟨e', he'⟩ := Overtopped.exists_some htop'
    have halike := h.epochVotes
    rw [stored, stored, he, he'] at halike
    exact .inr ⟨e, e', he, he', halike⟩

theorem respects_checkSyncStatus (a : Answers) : Blind out voters level (checkSyncStatus a) := by
  intro s t h
  unfold checkSyncStatus
  apply Together.disk
  rcases h.epochVotes_cases with ⟨he, he'⟩ | ⟨e, e', he, he', -⟩
  · rw [he, he']
    exact Respects.pure () s t h
  · have hmax := h.maxVoteHeight a.order
    rw [stored, stored, he, he'] at hmax
    simp only [he, he', Option.getD_some] at hmax ⊢
    rw [hmax]
    refine Respects.bind respects_getLastFinalizedBlock (fun lfb => ?_) s t h
    exact (Respects.orDie _).bind fun _ => respects_modifyMem _

theorem respects_getTip (leaf : Bool) : Blind out voters level (getTip nd leaf) := by
  refine respects_getHighestCCBlock.bind fun hcc => .disk (fun s t h => ?_) fun d => .orDie _
  rw [tipLoop_congr h.block]

theorem respects_finalizeBlock (a : Answers) (block : ExtendedBlock) :
    Blind out voters level (finalizeBlock nd a block) := by
  unfold finalizeBlock
  refine .mem (fun _ _ h => h.mem) fun e => .ite (.pure _) ?_
  refine respects_getLastFinalizedBlock.bind fun lfb => .ite (.pure _) ?_
  exact (respects_set _).bind fun _ => (respects_checkSyncStatus a).bind fun _ =>
    respects_finalizeLoop _ _ _

theorem respects_finalizeParent (a : Answers) (ccBlock : ExtendedBlock) :
    Blind out voters level (finalizeParent nd a ccBlock) := by
  unfold finalizeParent
  refine .ite (.pure _) (.disk (fun s t h => by rw [h.findBlock]) fun d => ?_)
  cases findBlock d ccBlock.header.parent with
  | none => exact .pure _
  | some parent =>
    refine (respects_finalizeBlock a parent).bind fun r => ?_
    cases r with
    | error e => exact .pure _
    | ok u => exact .pure _

theorem respects_processCCBlock (a : Answers) (ccBlock : ExtendedBlock) :
    Blind out voters level (processCCBlock nd a ccBlock) := by
  unfold processCCBlock
  refine respects_getHighestCCBlock.bind fun hcc => .ite (.pure _) ?_
  refine (respects_finalizeParent a ccBlock).bind fun ok => .ite ?_ (.pure _)
  exact (respects_set _).bind fun _ => respects_updateBlock _ _

variable {vs : ValidatorSet} {hash : Hash}

theorem Alike.hasMajority {s t : EngineConf} (h : Alike out voters s t) (ha : Apart out a)
    (hvs : a.getValidatorSet hash = some vs) :
    vs.hasMajority a.order ((findVotesByHash s.disk hash).uniqueVoter a.order) =
      vs.hasMajority a.order ((findVotesByHash t.disk hash).uniqueVoter a.order) :=
  hasMajority_alike (ha.validators hash vs hvs) a.order
    (List.Perm.of_eq (others_uniqueVoter ha.order (h.votes hash)))

variable (ha : Apart out a)
include ha

theorem respects_checkCC (hash : Hash) : Blind out voters level (checkCC nd a hash) := by
  unfold checkCC
  refine .ite (.pure _) (.disk (fun s t h => by rw [h.findBlock]) fun d => ?_)
  cases findBlock d hash with
  | none => exact .pure _
  | some block =>
    refine .ite (.pure _) (.ite (.pure _) (.ite (.pure _)
      (.ite (respects_processCCBlock a block) ?_)))
    refine respects_getHighestCCBlock.bind fun hcc => .ite (.pure _) ?_
    -- the votes are not the same in the two runs, but their majority is
    refine fun s t h => Together.orDie_bind h fun vs hvs => ?_
    show Together _ (if _ then _ else _) (if _ then _ else _) s t
    rw [h.hasMajority ha hvs]
    exact Respects.ite (respects_processCCBlock a block) (.pure _) s t h

omit ha

theorem respects_output {o : Output} : Blind out voters level (Proc.output o) := by
  refine .output fun s t h => { h with outs := ?_ }
  rw [ownOutputs, ownOutputs, filter_append, filter_append]
  exact congrArg (· ++ _) h.outs

theorem respects_chooseVote (tip : ExtendedBlock) : Blind out voters level (chooseVote nd tip) := by
  unfold chooseVote
  refine .mem (fun _ _ h => h.mem) fun e => respects_getHighestCCBlock.bind fun hcc => ?_
  refine .ite (.disk (fun s t h => by rw [h.findBlock]) fun d => ?_) (.pure _)
  exact (Respects.orDie _).bind fun _ => .pure _

theorem respects_vote (a : Answers) : Blind out voters level (vote nd a) := by
  unfold vote
  refine (respects_getTip true).bind fun tip => (Respects.orDie _).bind fun vs => ?_
  refine .ite (.pure _) ((respects_chooseVote tip).bind fun choice => ?_)
  refine .mem (fun _ _ h => h.mem) fun e => .ite ?_ respects_output
  exact (respects_set _).bind fun _ => respects_output

theorem together_relay {s t : EngineConf} (h : AlikeAt out voters level s t) (l l' : List Vote) :
    Together (AlikeAt out voters level) (Proc.forEach l fun w => Proc.output (.relay w))
      (Proc.forEach l' fun w => Proc.output (.relay w)) s t := by
  have hown : ∀ outs w, ownOutputs (outs ++ [.relay w]) = ownOutputs outs := by
    intro outs w
    rw [ownOutputs, filter_append]
    exact append_nil _
  refine Together.forEach_output (fun s t w h => ?_) (fun s t w h => ?_) h
  · exact { h with outs := (hown _ w).trans h.outs }
  · exact { h with outs := h.outs.trans (hown _ w).symm }

theorem respects_nextEpoch (a : Answers) (epoch : UInt64) :
    Blind out voters level (do
      let tip ← getTipToExtend nd
      let _ ← Proc.orDie (a.getNextProposer (nd.cfg.hash tip.header) epoch)
      State.setEpoch nd.cfg epoch
      checkSyncStatus a
      pure true) :=
  (respects_getTip false).bind fun _ => (Respects.orDie _).bind fun _ => (respects_set _).bind fun _ =>
    (respects_checkSyncStatus a).bind fun _ => .pure _

include ha

theorem respects_updateEpoch (v : Vote) : Blind out voters level (updateEpoch nd a v) := by
  unfold updateEpoch
  refine respects_getLastFinalizedBlock.bind fun lfb s t h => Together.orDie_bind h fun vs hvs => ?_
  refine Respects.mem (fun _ _ h => h.mem) (fun e => .ite (.pure _) fun s t h => ?_) s t h
  show Together _ (Proc.orDie s.disk.epochVotes >>= fun _ => _)
    (Proc.orDie t.disk.epochVotes >>= fun _ => _) s t
  rcases h.epochVotes_cases with ⟨he, he'⟩ | ⟨e₁, e₂, he, he', halike⟩
  · rw [he, he']
    exact Together.die h
  · rw [he, he']
    show Together _ (if _ then _ else _) (if _ then _ else _) s t
    have hmajority := hasMajority_filter_alike (ha.nextValidators _ vs hvs) a.order
      halike fun w => decide (w.epoch ≥ v.epoch)
    rw [hmajority]
    by_cases hreached : vs.hasMajority a.order (empty.addVotes
        ((e₂.votes a.order).filter fun w => decide (w.epoch ≥ v.epoch))) = true
    · rw [if_pos hreached, if_pos hreached]
      by_cases hjump : v.epoch + 1 > e.state.epoch + 1
      · show Together _ (if _ then _ else _) (if _ then _ else _) s t
        rw [if_pos hjump, if_pos hjump]
        exact (together_relay h _ _).bind fun _ s' t' h' => respects_nextEpoch a _ s' t' h'
      · show Together _ (if _ then _ else _) (if _ then _ else _) s t
        rw [if_neg hjump, if_neg hjump]
        exact respects_nextEpoch a _ s t h
    · rw [if_neg hreached, if_neg hreached]
      exact Respects.pure _ s t h

theorem respects_handleVote (hv : Known out voters level v) :
    Blind out voters level (handleVote nd a v) := by
  unfold handleVote
  exact .ite (.pure _) ((respects_addVote ha.order hv).bind fun _ => respects_updateEpoch ha v)

theorem respects_acceptBlock (block : Block) (update : Option Bool) :
    Blind out voters level (acceptBlock nd a block update) := by
  unfold acceptBlock
  have hvote : Blind out voters level (do
      let e ← Proc.mem
      if block.header.epoch = e.state.epoch - 1 || block.header.epoch = e.state.epoch then
        Proc.modifyMem fun e => { e with blockProcessed := true }
        if e.voteTimerReady then vote nd a
      checkCC nd a (nd.cfg.hash block.header)) := by
    have hcheck : Blind out voters level
        (checkCC nd a (nd.cfg.hash block.header)) := respects_checkCC ha _
    refine .mem (fun _ _ h => h.mem) fun e => .ite ?_ hcheck
    exact (respects_modifyMem _).bind fun _ =>
      .ite ((respects_vote a).bind fun _ => hcheck) hcheck
  refine .ite ?_ ((respects_updateBlock _ _).bind fun _ => hvote)
  exact (respects_updateBlock _ _).bind fun _ => (respects_updateBlock _ _).bind fun _ => hvote

theorem respects_applyBlock (block : Block) (parent : ExtendedBlock) :
    Blind out voters level (applyBlock nd a block parent) := by
  unfold applyBlock
  refine .ite (respects_updateBlock _ _) (.ite (respects_updateBlock _ _) (.ite (.pure _) ?_))
  exact respects_acceptBlock ha block _

theorem respects_handleNormalBlock (eb : ExtendedBlock)
    (hvotes : ∀ votes v, eb.header.hcc.votes = some votes → v ∈ votes → Known out voters level v) :
    Blind out voters level (handleNormalBlock nd a eb) := by
  unfold handleNormalBlock
  refine .ite (.pure _) (.disk (fun s t h => by rw [h.findBlock]) fun d => ?_)
  refine (Respects.orDie _).bind fun parent => respects_getLastFinalizedBlock.bind fun lfb => ?_
  refine .disk (fun s t h => by rw [validateBlock_congr h.block]) fun d => ?_
  refine (Respects.orDie _).bind fun res => .ite (respects_updateBlock _ _) ?_
  cases hhcc : eb.block.header.hcc.votes with
  | none => exact fun s t h => Together.die h
  | some votes =>
    have hall : Blind out voters level (Proc.forEach (votes.votes a.order) fun v => do
        let _ ← handleVote nd a v) :=
      .forEach fun v hv => (respects_handleVote ha (hvotes votes v hhcc (mem_votes.1 hv))).bind
        fun _ => .pure _
    have happly : Blind out voters level (applyBlock nd a eb.block parent) :=
      respects_applyBlock ha eb.block parent
    refine hall.bind fun _ => respects_getHighestCCBlock.bind fun localHCC => .ite ?_ happly
    exact (respects_checkCC ha _).bind fun _ => happly

omit ha

theorem AlikeAt.sameDynasty {s t : EngineConf} (h : AlikeAt out voters level s t) (ha : Apart out a)
    (tip : ExtendedBlock) : validatorMajorityInTheSameDynasty nd a s.disk tip =
      validatorMajorityInTheSameDynasty nd a t.disk tip := by
  unfold validatorMajorityInTheSameDynasty
  rcases h.epochVotes_cases with ⟨he, he'⟩ | ⟨e, e', he, he', halike⟩
  · rw [he, he']
  · rw [he, he']
    cases hvs : a.getNextValidatorSet (nd.cfg.hash tip.header) with
    | none => rfl
    | some vs =>
      have hfilter := hasMajority_filter_alike (ha.nextValidators _ vs hvs) a.order
        halike
      show (if _ then _ else _) = (if _ then _ else _)
      rw [hfilter]
      cases a.mainchainHeight with
      | none => rfl
      | some height =>
        show (if _ then _ else some _) = (if _ then _ else some _)
        rw [hfilter]

theorem Alike.proposedVotes {s t : EngineConf} (h : Alike out voters s t) (ha : Apart out a)
    (hvs : a.getValidatorSet hash = some vs) :
    (((findVotesByHash s.disk hash).uniqueVoter a.order).filterByValidators vs =
      ((findVotesByHash t.disk hash).uniqueVoter a.order).filterByValidators vs) ∧
    ((((findVotesByHash s.disk hash).merge a.order
        (stored s)).uniqueVoterAndBlock a.order).filterByValidators vs =
      (((findVotesByHash t.disk hash).merge a.order
        (stored t)).uniqueVoterAndBlock a.order).filterByValidators vs) := by
  have hdisjoint := ha.validators hash vs hvs
  constructor
  · exact filterByValidators_congr hdisjoint
      (others_uniqueVoter ha.order (h.votes hash))
  · exact filterByValidators_congr hdisjoint
      (others_uniqueVoterAndBlock ha.order
        (List.Perm.of_eq (others_merge ha.order (h.votes hash) h.epochVotes)))

include ha

theorem respects_createProposal (sameDynasty : Bool) :
    Blind out voters level (createProposal nd a sameDynasty) := by
  unfold createProposal
  refine (respects_getTip false).bind fun tip => .ite .die fun s t h => ?_
  show Together _ (Proc.orDie (findBlock s.disk _) >>= _)
    (Proc.orDie (findBlock t.disk _) >>= _) s t
  refine (Together.orDie h (by rw [h.findBlock])).bind fun parentBlock s₁ t₁ h₁ => ?_
  refine (Respects.orDie _ s₁ t₁ h₁).bind fun parentTimestamp s₂ t₂ h₂ => ?_
  refine (respects_getHighestCCBlock s₂ t₂ h₂).bind fun lastCC s₃ t₃ h₃ => ?_
  refine Together.orDie_bind h₃ fun vs hvs => ?_
  -- the votes are read from the stores of the beginning
  obtain ⟨hcc, hproposed⟩ := h.proposedVotes ha hvs
  rw [stored, stored] at hproposed
  simp only [hcc, hproposed]
  exact Respects.mem (fun _ _ h => h.mem) (fun e => .ite (.pure _) (.pure _)) s₃ t₃ h₃

theorem respects_proposeNew (sameDynasty : Bool) :
    Blind out voters level (propose.proposeNew nd a sameDynasty) := by
  unfold propose.proposeNew
  refine (respects_createProposal ha sameDynasty).bind fun proposal => ?_
  cases proposal with
  | none => exact .pure _
  | some proposal =>
    refine (respects_modifyMem _).bind fun _ => (Respects.orDie _).bind fun block => ?_
    refine (respects_addBlock block false).bind fun added => ?_
    cases added with
    | error e => exact .die
    | ok eb => exact respects_output

theorem respects_propose : Blind out voters level (propose nd a) := by
  unfold propose
  refine (respects_getTip false).bind fun tip => .mem (fun _ _ h => h.mem) fun e => ?_
  refine (Respects.orDie _).bind fun turn => .ite (.pure _) ?_
  refine .disk (fun s t h => by rw [h.sameDynasty ha tip]) fun d => ?_
  refine (Respects.orDie _).bind fun sameDynasty => ?_
  cases e.state.lastProposal.block with
  | none => exact respects_proposeNew ha sameDynasty
  | some block => exact .ite respects_output (respects_proposeNew ha sameDynasty)

theorem together_handle {s t : EngineConf} (h : AlikeAt out voters level s t)
    (act : Engine.Action) (hv : ∀ v ∈ act.delivered nd s.disk, Known out voters level v) :
    Together (AlikeAt out voters level) (handle nd a act) (handle nd a act) s t := by
  cases act with
  | addBlock b => exact Respects.bind (respects_addBlock b false) (fun _ => .pure _) s t h
  | block b =>
    show Together _ (Proc.orDie (findBlock s.disk _) >>= _)
      (Proc.orDie (findBlock t.disk _) >>= _) s t
    rw [h.findBlock]
    cases hb : findBlock t.disk (nd.cfg.hash b.header) with
    | none => exact Together.die h
    | some eb =>
      refine respects_handleNormalBlock ha eb (fun votes v hvotes hmem => ?_) s t h
      exact hv v ⟨eb, votes, by rw [h.block]; exact hb, hvotes, hmem⟩
  | vote v =>
    refine Respects.bind (respects_handleVote ha (hv v rfl)) (fun _ => ?_) s t h
    exact respects_checkCC ha _
  | voteTimer =>
    refine Respects.bind (respects_modifyMem _) (fun _ => ?_) s t h
    exact .mem (fun _ _ h => h.mem) fun e => .ite (respects_vote a) (.pure _)
  | epochTimer => exact respects_vote a s t h
  | enterEpoch => exact respects_modifyMem _ s t h
  | propose => exact respects_propose ha s t h
  | stop => exact respects_modifyMem _ s t h

theorem together_step {s t : EngineConf} (h : AlikeAt out voters level s t)
    (act : Engine.Action) (hv : ∀ v ∈ act.delivered nd s.disk, Known out voters level v) :
    Together (AlikeAt out voters level) (step nd a act) (step nd a act) s t := by
  have hhandle := together_handle ha h act hv
  have hrunning : Together (AlikeAt out voters level)
      (Proc.mem >>= fun e => if e.stopped then pure () else handle nd a act)
      (Proc.mem >>= fun e => if e.stopped then pure () else handle nd a act) s t := by
    show Together _ (if s.mem.stopped then _ else _) (if t.mem.stopped then _ else _) s t
    rw [h.mem]
    by_cases hstopped : t.mem.stopped = true
    · rw [if_pos hstopped]
      exact Respects.pure _ s t h
    · rw [if_neg hstopped]
      exact hhandle
  cases act with
  | addBlock b => exact hhandle
  | _ => exact hrunning

omit ha

/-- A vote that makes the engine count nothing that has a majority.  The votes of its epoch or
later have none, unless the epoch is over.  The block it is for has no commit certificate
above the highest one. -/
structure Harmless (nd : Node) (a : Answers) (s : EngineConf) (w : Vote) : Prop where
  epoch : ∃ lfb vs, Chain.findBlock s.disk s.mem.state.lastFinalizedBlock = some lfb ∧
    a.getNextValidatorSet (nd.cfg.hash lfb.header) = some vs ∧
    (s.mem.state.epoch ≤ w.epoch → vs.hasMajority a.order (VoteSet.empty.addVotes
      (((stored s).votes a.order).filter fun v => v.epoch ≥ w.epoch)) = false)
  block : ∃ hcc, Chain.findBlock s.disk s.mem.state.highestCCBlock = some hcc ∧
    ∀ eb, Chain.findBlock s.disk w.block = some eb →
      (eb.status = .trusted → eb.header.height ≤ hcc.header.height) ∧
      (eb.status = .valid → ∃ vs, a.getValidatorSet w.block = some vs ∧
        (hcc.header.height < eb.header.height → vs.hasMajority a.order
          ((Chain.findVotesByHash s.disk w.block).uniqueVoter a.order) = false))

def withVote (a : Answers) (s : EngineConf) (w : Vote) : EngineConf :=
  ((State.addVote a.order w).run s).2

variable {s t : EngineConf} {w : Vote}

theorem run_addVote (s : EngineConf) (w : Vote) :
    (State.addVote a.order w).run s = (some (), withVote a s w) := by
  unfold withVote State.addVote addVoteToIndex
  by_cases hb : w.block.isEmpty
  · simp [State.addEpochVote, hb]
  · simp [State.addEpochVote, hb]

theorem stored_withVote (s : EngineConf) (w : Vote) :
    (withVote a s w).disk.epochVotes = some (((stored s).addVote w).uniqueVoter a.order) := by
  unfold withVote State.addVote addVoteToIndex
  by_cases hb : w.block.isEmpty
  · simp [State.addEpochVote, hb, stored]
  · simp [State.addEpochVote, hb, stored]

theorem findVotesByHash_withVote (s : EngineConf) (w : Vote) (h : Hash) :
    findVotesByHash (withVote a s w).disk h = findVotesByHash s.disk h ∨
      findVotesByHash (withVote a s w).disk h = (findVotesByHash s.disk h).addVote w := by
  unfold withVote State.addVote addVoteToIndex
  by_cases hb : w.block.isEmpty
  · exact .inl (by simp [State.addEpochVote, hb, findVotesByHash])
  · by_cases hh : h = w.block
    · exact .inr (by simp [State.addEpochVote, hb, findVotesByHash, hh])
    · exact .inl (by simp [State.addEpochVote, hb, findVotesByHash, hh])

theorem frame_withVote (s : EngineConf) (w : Vote) :
    (withVote a s w).mem = s.mem ∧ (withVote a s w).disk.block = s.disk.block ∧
      (withVote a s w).disk.blocksByHeight = s.disk.blocksByHeight ∧
      (withVote a s w).disk.stub = s.disk.stub ∧ (withVote a s w).outs = s.outs := by
  unfold withVote State.addVote addVoteToIndex
  by_cases hb : w.block.isEmpty
  · simp [State.addEpochVote, hb]
  · simp [State.addEpochVote, hb]

theorem Alike.withVote (h : Alike out voters s t) (hout : w.id ∈ out) (hvoter : w.id ∈ voters) :
    Alike out voters s (withVote a t w) := by
  obtain ⟨hmem, hblock, hindex, hstub, houts⟩ := frame_withVote (a := a) t w
  have hstored : stored (Outsiders.withVote a t w) = ((stored t).addVote w).uniqueVoter a.order := by
    rw [stored, stored_withVote, Option.getD_some]
  -- one vote for each of the others is left as it is by the consolidation
  have hadd : (stored t).Alike out ((stored t).addVote w) :=
    List.Perm.of_eq (others_addVote_of_mem hout _).symm
  have hnodup : ((others out ((stored t).addVote w).entries).map Vote.id).Nodup := by
    rw [others_addVote_of_mem hout]
    exact h.right.distinct.sublist (filter_sublist.map _)
  refine ⟨h.mem.trans hmem.symm, h.block.trans hblock.symm, h.blocksByHeight.trans hindex.symm,
    h.stub.trans hstub.symm, fun hash => ?_, ?_, h.left, ?_, ?_⟩
  · rcases findVotesByHash_withVote (a := a) t w hash with heq | heq
    · rw [heq]
      exact h.votes hash
    · rw [heq, VoteSet.Alike, others_addVote_of_mem hout]
      exact h.votes hash
  · rw [hstored]
    exact List.Perm.trans h.epochVotes (List.Perm.trans hadd (alike_uniqueVoter _ hnodup))
  · rw [hstored]
    exact h.right.addVote hvoter a.order
  · rw [houts]
    exact h.outs

theorem run_updateEpoch_of_noMajority {lfb : ExtendedBlock} {e : VoteSet}
    (hlfb : findBlock s.disk s.mem.state.lastFinalizedBlock = some lfb)
    (hvs : a.getNextValidatorSet (nd.cfg.hash lfb.header) = some vs)
    (he : s.disk.epochVotes = some e)
    (hno : s.mem.state.epoch ≤ w.epoch → vs.hasMajority a.order (empty.addVotes ((e.votes
      a.order).filter fun v => v.epoch ≥ w.epoch)) = false) :
    (updateEpoch nd a w).run s = (some false, s) := by
  unfold updateEpoch State.getLastFinalizedBlock
  by_cases hold : w.epoch < s.mem.state.epoch
  · simp [Proc.orDie, Proc.mem, Proc.run, hlfb, hvs, hold]
  · have hcount := hno (UInt64.not_lt.1 hold)
    simp [Proc.orDie, Proc.mem, Proc.run, hlfb, hvs, hold, he, hcount]

theorem run_processCCBlock_of_le {hcc eb : ExtendedBlock}
    (hhcc : findBlock s.disk s.mem.state.highestCCBlock = some hcc)
    (hle : eb.header.height ≤ hcc.header.height) :
    (processCCBlock nd a eb).run s = (some (), s) := by
  simp [processCCBlock, State.getHighestCCBlock, Proc.orDie, Proc.mem, Proc.run, hhcc, hle]

theorem run_checkCC_of_noMajority {hcc : ExtendedBlock}
    (hhcc : findBlock s.disk s.mem.state.highestCCBlock = some hcc)
    (hno : ∀ eb, findBlock s.disk hash = some eb → (eb.status = .trusted → eb.header.height ≤
      hcc.header.height) ∧ (eb.status = .valid → ∃ vs, a.getValidatorSet hash = some vs ∧
      (hcc.header.height < eb.header.height → vs.hasMajority a.order ((findVotesByHash s.disk
      hash).uniqueVoter a.order) = false))) : (checkCC nd a hash).run s = (some (), s) := by
  unfold checkCC
  by_cases hempty : hash.isEmpty
  · simp [hempty]
  cases hb : findBlock s.disk hash with
  | none => simp [hempty, hb]
  | some eb =>
    obtain ⟨htrusted, hvalid⟩ := hno eb hb
    have hskip : ∀ h : eb.header.height ≤ hcc.header.height,
        (processCCBlock nd a eb).run s = (some (), s) := run_processCCBlock_of_le hhcc
    cases hstatus : eb.status with
    | trusted =>
      have hrun := hskip (htrusted hstatus)
      simp [hempty, hb, hstatus, isInvalid, isPending,
        isCommitted, isDirectlyFinalized, isIndirectlyFinalized,
        isTrusted, hrun]
    | valid =>
      obtain ⟨vs, hvs, hcount⟩ := hvalid hstatus
      -- a majority at the height of the highest CC block is counted, but changes nothing
      have hrun : (if vs.hasMajority a.order
          ((findVotesByHash s.disk hash).uniqueVoter a.order) = true then
            processCCBlock nd a eb else pure ()).run s = (some (), s) := by
        by_cases hle : eb.header.height ≤ hcc.header.height
        · split
          · exact hskip hle
          · rfl
        · rw [hcount (UInt64.not_le.1 hle)]
          rfl
      by_cases hlow : eb.header.height < hcc.header.height
      · simp [hempty, hb, hstatus, isInvalid, isPending,
          isCommitted, isDirectlyFinalized,
          isIndirectlyFinalized, isTrusted, State.getHighestCCBlock,
          Proc.orDie, Proc.mem, Proc.run, hhcc, hlow]
      · simpa [hempty, hb, hstatus, isInvalid, isPending,
          isCommitted, isDirectlyFinalized,
          isIndirectlyFinalized, isTrusted, State.getHighestCCBlock,
          Proc.orDie, Proc.mem, Proc.run, hhcc, hlow, hvs] using hrun
    | _ =>
      simp [hempty, hb, hstatus, isInvalid, isPending,
        isCommitted, isDirectlyFinalized, isIndirectlyFinalized]

include ha

theorem run_vote_of_harmless (hcounted : Counted voters (stored t))
    (hout : w.id ∈ out) (hvoter : w.id ∈ voters) (hvalid : (w.validate nd.verify).isError = false)
    (hw : Harmless nd a t w) : (handle nd a (.vote w)).run t = (some (), withVote a t w) := by
  obtain ⟨lfb, vs, hlfb, hvs, hepoch⟩ := hw.epoch
  obtain ⟨hcc, hhcc, hblock⟩ := hw.block
  have hself : Alike out voters t t :=
    ⟨rfl, rfl, rfl, rfl, fun _ => .refl out _, .refl out _, hcounted, hcounted, rfl⟩
  have halike : Alike out voters t (withVote a t w) := hself.withVote hout hvoter
  have hupdate : (updateEpoch nd a w).run (withVote a t w) =
      (some false, withVote a t w) := by
    refine run_updateEpoch_of_noMajority ?_ hvs (stored_withVote t w) fun hle => ?_
    · rw [← halike.findBlock, ← halike.mem]
      exact hlfb
    · rw [← halike.mem] at hle
      have hstored := halike.epochVotes
      rw [stored.eq_1 (withVote a t w), stored_withVote, Option.getD_some] at hstored
      rw [← hasMajority_filter_alike (ha.nextValidators _ vs hvs) a.order hstored]
      exact hepoch hle
  have hcheck : (checkCC nd a w.block).run (withVote a t w) =
      (some (), withVote a t w) := by
    rw [halike.findBlock, halike.mem] at hhcc
    refine run_checkCC_of_noMajority hhcc fun eb heb => ?_
    rw [← halike.findBlock] at heb
    obtain ⟨htrusted, hvalid⟩ := hblock eb heb
    refine ⟨htrusted, fun hstatus => ?_⟩
    obtain ⟨vs, hvs, hcount⟩ := hvalid hstatus
    refine ⟨vs, hvs, fun hlt => ?_⟩
    rw [← halike.hasMajority ha hvs]
    exact hcount hlt
  have hhandle : (handleVote nd a w).run t = (some false, withVote a t w) := by
    rw [handleVote, hvalid, if_neg Bool.false_ne_true, Proc.run_bind, run_addVote]
    exact hupdate
  rw [handle, Proc.run_bind, hhandle]
  exact hcheck

omit ha

theorem Alike.extraVote (h : Alike out voters s t) (ha : Apart out a) (hout : w.id ∈ out)
    (hvoter : w.id ∈ voters) (hvalid : (w.validate nd.verify).isError = false)
    (hw : Harmless nd a t w) :
    ((step nd a (.vote w)).run t).1 = some () ∧
      Alike out voters s ((step nd a (.vote w)).run t).2 := by
  show ((if t.mem.stopped then pure () else handle nd a (.vote w)).run t).1 = some () ∧
    Alike out voters s ((if t.mem.stopped then pure () else handle nd a (.vote w)).run t).2
  by_cases hstopped : t.mem.stopped = true
  · rw [if_pos hstopped]
    exact ⟨rfl, h⟩
  · rw [if_neg hstopped, run_vote_of_harmless ha h.right hout hvoter hvalid hw]
    exact ⟨rfl, h.withVote hout hvoter⟩

end Steps

/-- The environment of a step.  All validators are among those that the chain ever has. -/
structure Environment (ever out : Finset Address) (a : Answers) : Prop where
  order : a.order.Steady out
  validators : ∀ h vs, a.getValidatorSet h = some vs → vs.members ⊆ ever
  nextValidators : ∀ h vs, a.getNextValidatorSet h = some vs → vs.members ⊆ ever

theorem Environment.apart {ever out : Finset Address} {a : Answers} (h : Environment ever out a)
    (hdisjoint : Disjoint ever out) : Apart out a :=
  ⟨h.order, fun hash vs hvs => hdisjoint.mono_left (h.validators hash vs hvs),
    fun hash vs hvs => hdisjoint.mono_left (h.nextValidators hash vs hvs)⟩

/-- The votes of outsiders are overtopped when a step is taken: in the two stores, which may
differ otherwise, and among the votes that the step delivers. -/
def StepLevel (out : Finset Address) (s t : EngineConf) (delivered : Set Vote) : Prop :=
  s.disk.epochVotes = t.disk.epochVotes ∨
    ∃ l, Overtopped out l (stored s) ∧ Overtopped out l (stored t) ∧ ∀ v ∈ delivered, AtLevel out l v

/-- Two runs of a node from one store.  Both take the same steps with the same answers, but
the second receives votes of outsiders at any positions in between. -/
inductive Twin (nd : Node) (ever out voters : Finset Address) (d : Store) :
    EngineConf → EngineConf → Prop
  | start : Twin nd ever out voters d ⟨Engine.new nd.cfg d, d, []⟩ ⟨Engine.new nd.cfg d, d, []⟩
  | both {s t : EngineConf} (h : Twin nd ever out voters d s t) (a : Answers) (act : Engine.Action)
      (ha : Environment ever out a) (hvoters : ∀ v ∈ act.delivered nd s.disk, v.id ∈ voters)
      (hlevel : StepLevel out s t (act.delivered nd s.disk))
      (hreturns : ((Engine.step nd a act).run s).1 = some ()) :
      Twin nd ever out voters d ((Engine.step nd a act).run s).2 ((Engine.step nd a act).run t).2
  | extra {s t : EngineConf} (h : Twin nd ever out voters d s t) (a : Answers) (w : Vote)
      (ha : Environment ever out a) (hout : w.id ∈ out) (hvoter : w.id ∈ voters)
      (hvalid : (w.validate nd.verify).isError = false) (hw : Harmless nd a t w) :
      Twin nd ever out voters d s ((Engine.step nd a (.vote w)).run t).2

section Runs

variable {nd : Node} {ever out voters : Finset Address} {d : Store} {s t : EngineConf}

theorem Alike.bothStep {a : Answers} {act : Engine.Action} (h : Alike out voters s t)
    (ha : Apart out a) (hvoters : ∀ v ∈ act.delivered nd s.disk, v.id ∈ voters)
    (hlevel : StepLevel out s t (act.delivered nd s.disk)) :
    ((step nd a act).run s).1 = ((step nd a act).run t).1 ∧
      Alike out voters ((step nd a act).run s).2 ((step nd a act).run t).2 := by
  rcases hlevel with heq | ⟨l, htop, htop', hdelivered⟩
  · -- without a level the two stores hold the same epoch votes all along
    have hat : AlikeAt out voters none s t := ⟨h, .inl heq⟩
    obtain ⟨hresult, hrel⟩ := together_step ha hat act fun v hv => ⟨nofun, hvoters v hv⟩
    exact ⟨hresult, hrel.toAlike⟩
  · have hat : AlikeAt out voters (some l) s t := ⟨h, .inr ⟨l, rfl, htop, htop'⟩⟩
    obtain ⟨hresult, hrel⟩ := together_step ha hat act fun v hv =>
      ⟨fun l' hl' => Option.some.inj hl' ▸ hdelivered v hv, hvoters v hv⟩
    exact ⟨hresult, hrel.toAlike⟩

theorem Twin.alike (hdisjoint : Disjoint ever out) (hd : d.epochVotes = none)
    (h : Twin nd ever out voters d s t) : Alike out voters s t := by
  induction h with
  | start =>
    have hcounted : Counted voters (stored ⟨new nd.cfg d, d, []⟩) := by
      rw [stored, hd]
      exact ⟨nodup_nil, fun v hv => absurd hv (not_mem_empty v)⟩
    exact ⟨rfl, rfl, rfl, rfl, fun _ => .refl out _, .refl out _, hcounted, hcounted, rfl⟩
  | both _ a act ha hvoters hlevel _ ih =>
    exact (ih.bothStep (ha.apart hdisjoint) hvoters hlevel).2
  | extra _ a w ha hout hvoter hvalid hw ih =>
    exact (ih.extraVote (ha.apart hdisjoint) hout hvoter hvalid hw).2

theorem Counted.length_le {e : VoteSet} (h : Counted voters e) : e.entries.length ≤ voters.card := by
  rw [← length_map Vote.id, ← toFinset_card_of_nodup h.distinct]
  refine Finset.card_le_card fun i hi => ?_
  obtain ⟨v, hv, rfl⟩ := mem_map.1 (mem_toFinset.1 hi)
  exact h.known v hv

/-- Harmless votes of outsiders that are overtopped do not show.  At any time the two runs are
in the same epoch, with the same highest CC block, last finalized block, last vote and
synchronisation status, and have sent the same votes and proposals.  The next step returns in
both or in none, and one more vote of an outsider is handled without panic. -/
theorem same_without_outsiders (hdisjoint : Disjoint ever out) (hcard : voters.card ≤ ever.card)
    (hd : d.epochVotes = none) (h : Twin nd ever out voters d s t) :
    (s.mem.state.epoch = t.mem.state.epoch ∧
      s.mem.state.highestCCBlock = t.mem.state.highestCCBlock ∧
      s.mem.state.lastFinalizedBlock = t.mem.state.lastFinalizedBlock ∧
      s.mem.state.lastVote = t.mem.state.lastVote ∧ s.mem.hasSynced = t.mem.hasSynced ∧
      ownOutputs s.outs = ownOutputs t.outs) ∧ (stored t).entries.length ≤ ever.card ∧
    (∀ a act, Environment ever out a → (∀ v ∈ act.delivered nd s.disk, v.id ∈ voters) →
      StepLevel out s t (act.delivered nd s.disk) →
        ((Engine.step nd a act).run s).1 = ((Engine.step nd a act).run t).1) ∧
    ∀ a w, Environment ever out a → w.id ∈ out → w.id ∈ voters →
      (w.validate nd.verify).isError = false → Harmless nd a t w →
        ((Engine.step nd a (.vote w)).run t).1 = some () := by
  have halike := h.alike hdisjoint hd
  refine ⟨?_, halike.right.length_le.trans hcard, fun a act ha hvoters hlevel => ?_,
    fun a w ha hout hvoter hvalid hw => ?_⟩
  · rw [halike.mem]
    exact ⟨rfl, rfl, rfl, rfl, rfl, halike.outs⟩
  · exact (halike.bothStep (ha.apart hdisjoint) hvoters hlevel).1
  · exact (halike.extraVote (ha.apart hdisjoint) hout hvoter hvalid hw).1

end Runs

def pairAnswers (ids : List Address) : Answers :=
  { sampleAnswers 100 with
    order := MapOrder.sorted
    getValidatorSet := fun _ => some ⟨0, ids.map fun i => ⟨i, 10⟩⟩
    getNextValidatorSet := fun _ => some ⟨0, ids.map fun i => ⟨i, 10⟩⟩ }

def pairVote (id : Address) (epoch height : UInt64) : Vote :=
  let v : Vote := ⟨7, height, 0, epoch, id, none⟩
  { v with signature := some (echoNode.sign v.signBytes) }

def pairStart : EngineConf :=
  ⟨Engine.new echoNode.cfg (rootStore echoNode sampleRoot), rootStore echoNode sampleRoot, []⟩

def pairStep (ids : List Address) (w : Vote) (s : EngineConf) : EngineConf :=
  ((Engine.step echoNode (pairAnswers ids) (.vote w)).run s).2

/-- The votes of the validators 1 and 2 have no majority in any epoch that one of them has voted
in.  A vote of the outsider 3 for an earlier epoch makes the node count both and enter a new
epoch, its height makes the node take itself for out of sync when the next epoch has a
majority, and it is stored as a third epoch vote. -/
theorem outsider_moves_node :
    let s := pairStep [1, 2] (pairVote 2 9 1) (pairStep [1, 2] (pairVote 1 7 1) pairStart)
    let t := pairStep [1, 2] (pairVote 3 6 100) s
    let s' := pairStep [1, 2] (pairVote 1 9 2) s
    let t' := pairStep [1, 2] (pairVote 1 9 2) t
    ((pairVote 3 6 100).validate echoNode.verify).isError = false ∧
      s.mem.state.epoch = 1 ∧ t.mem.state.epoch = 7 ∧
      s'.mem.hasSynced = true ∧ t'.mem.hasSynced = false ∧
      (stored s').entries.length = 2 ∧ (stored t').entries.length = 3 := by
  decide

theorem environment_pair {ever : Finset Address} {ids : List Address} (h : ids.toFinset ⊆ ever) :
    Environment ever {3} (pairAnswers ids) := by
  have hmembers : ∀ vs, some (⟨0, ids.map fun i => ⟨i, 10⟩⟩ : ValidatorSet) = some vs →
      vs.members ⊆ ever := by
    rintro vs ⟨rfl⟩
    have hids : (ids.map fun i => (⟨i, 10⟩ : Validator)).map Validator.address = ids := by
      rw [map_map]
      exact map_id ids
    show ((ids.map fun i => (⟨i, 10⟩ : Validator)).map Validator.address).toFinset ⊆ ever
    rw [hids]
    exact h
  exact ⟨MapOrder.steady_sorted _, fun _ => hmembers, fun _ => hmembers⟩

theorem Twin.pairStep {s t : EngineConf} {d : Store} (h : Twin echoNode {1, 2, 4} {3} {1, 2, 3} d s t)
    (v : Vote) (hleft : Overtopped {3} 5 (stored s)) (hright : Overtopped {3} 5 (stored t))
    (hid : v.id = 1 ∨ v.id = 2) (hheight : 5 ≤ v.height)
    (hret : ((step echoNode (pairAnswers [1, 2]) (.vote v)).run s).1 = some ()) :
    Twin echoNode {1, 2, 4} {3} {1, 2, 3} d (pairStep [1, 2] v s) (pairStep [1, 2] v t) := by
  have hvoter : v.id ∈ ({1, 2, 3} : Finset Address) ∧ v.id ∉ ({3} : Finset Address) := by
    rcases hid with h | h
    · rw [h]
      decide
    · rw [h]
      decide
  refine h.both (pairAnswers [1, 2]) (.vote v) (environment_pair (by decide)) ?_
    (.inr ⟨5, hleft, hright, ?_⟩) hret
  · rintro _ rfl
    exact hvoter.1
  · rintro _ rfl
    exact ⟨fun hmem => absurd hmem hvoter.2, fun _ => hheight⟩

def pairBase : EngineConf := pairStep [1, 2, 4] (pairVote 1 7 5) pairStart

theorem harmless_pairVote : Harmless echoNode (pairAnswers [1, 2]) pairBase (pairVote 3 7 5) := by
  constructor
  · exact ⟨⟨sampleRoot, [], .directlyFinalized, false⟩, ⟨0, [⟨1, 10⟩, ⟨2, 10⟩]⟩,
      by decide +kernel, rfl, by decide⟩
  · refine ⟨⟨sampleRoot, [], .directlyFinalized, false⟩, by decide +kernel, fun eb heb => ?_⟩
    have hnone : findBlock pairBase.disk (pairVote 3 7 5).block = none := by decide
    rw [hnone] at heb
    cases heb

theorem twin_pairVote : Twin echoNode {1, 2, 4} {3} {1, 2, 3} (rootStore echoNode sampleRoot)
    pairBase (pairStep [1, 2] (pairVote 3 7 5) pairBase) := by
  have hbase : Twin echoNode {1, 2, 4} {3} {1, 2, 3} (rootStore echoNode sampleRoot)
      pairBase pairBase := by
    refine Twin.both .start (pairAnswers [1, 2, 4]) (.vote (pairVote 1 7 5))
      (environment_pair (by decide)) ?_ (.inl rfl) (by decide)
    rintro v rfl
    decide
  exact hbase.extra (pairAnswers [1, 2]) (pairVote 3 7 5) (environment_pair (by decide)) (by decide)
    (by decide) (by decide) harmless_pairVote

def pairNext (s : EngineConf) : EngineConf :=
  pairStep [1, 2] (pairVote 1 9 7) (pairStep [1, 2] (pairVote 2 9 6) s)

theorem twin_pairNext : Twin echoNode {1, 2, 4} {3} {1, 2, 3} (rootStore echoNode sampleRoot)
    (pairNext pairBase) (pairNext (pairStep [1, 2] (pairVote 3 7 5) pairBase)) := by
  -- the vote of validator 1 is as high as that of the outsider, until a higher one replaces it
  have hnext := twin_pairVote.pairStep (pairVote 2 9 6) (by decide) (by decide)
    (by decide) (by decide) (by decide)
  exact hnext.pairStep (pairVote 1 9 7) (by decide) (by decide) (by decide)
    (by decide) (by decide)

/-- A vote of the outsider in the epoch and at the height of a validator changes nothing when
the next epoch has a majority.  The validator 4 has left the chain, which leaves room for one
more voter. -/
theorem same_without_outsiders_pair :
    (pairNext pairBase).mem.state.epoch = 10 ∧
      (pairNext pairBase).mem.state.epoch =
        (pairNext (pairStep [1, 2] (pairVote 3 7 5) pairBase)).mem.state.epoch ∧
      (pairNext pairBase).mem.hasSynced =
        (pairNext (pairStep [1, 2] (pairVote 3 7 5) pairBase)).mem.hasSynced ∧
      (stored (pairNext (pairStep [1, 2] (pairVote 3 7 5) pairBase))).entries.length ≤ 3 := by
  have hsame := same_without_outsiders (by decide) (by decide) rfl twin_pairNext
  exact ⟨by decide, hsame.1.1, hsame.1.2.2.2.2.1, hsame.2.1⟩

end Outsiders

end ThetaSubchain
