/-
The consensus engine (consensus/engine.go).

The table of hardcoded block hashes is empty, so the engine never rewinds.  What the engine asks
others is answered by an `Answers` record, one for each step of the main loop.
-/
import ThetaSubchain.Consensus.State
import ThetaSubchain.Core.BlockBody

namespace ThetaSubchain

open Durable

structure Node where
  cfg : ChainConfig
  verify : Verifier
  sign : Bytes → Signature
  id : Address
  trieRoot : TrieContent → Hash

/-- What the environment answers during one step.  `none` is a panic of the callee,
except for the height of the mainchain, where it is an error. -/
structure Answers where
  order : MapOrder
  resetState : Block → Result
  applyBlockTxs : Block → Result × Option Bool
  proposeBlockTxs : Block → Bool → Hash × List Bytes × Result
  getValidatorSet : Hash → Option ValidatorSet
  getNextValidatorSet : Hash → Option ValidatorSet
  getNextProposer : Hash → UInt64 → Option Validator
  mainchainHeight : Option Nat
  now : Nat

namespace Engine

open State (getHighestCCBlock getLastFinalizedBlock)

/-! ## Synchronisation status -/

def isSyncing (now timestamp : Nat) (lastFinalizedHeight currentHeight : UInt64) : Bool :=
  if (timestamp : Int) < (now : Int) - 30 then
    -- the clock of the node may be off, so the heights are compared as well
    decide (currentHeight - lastFinalizedHeight > 5)
  else false

def maxVoteHeight (votes : List Vote) : UInt64 :=
  votes.foldl (fun m v => if v.height > m then v.height else m) 0

variable (nd : Node) (a : Answers) (block : Block)

def checkSyncStatus : EngineProc Unit := do
  match (← .disk).epochVotes with
  | none => pure ()
  | some epochVotes =>
    let currentHeight := maxVoteHeight (epochVotes.votes a.order) - 1
    let lfb ← getLastFinalizedBlock
    let timestamp ← .orDie lfb.header.timestamp
    let synced := !isSyncing a.now timestamp lfb.header.height currentHeight
    .modifyMem fun e => { e with hasSynced := synced }

/-! ## Tip -/

def tipLoop (d : Store) (includePendingBlockingLeaf : Bool) :
    Nat → List ExtendedBlock → ExtendedBlock → Option ExtendedBlock
  | 0, _, _ => none
  | _ + 1, [], candidate => some candidate
  | n + 1, curr :: stack, candidate =>
    if !curr.status.isValid then tipLoop d includePendingBlockingLeaf n stack candidate
    else if !includePendingBlockingLeaf && curr.hasValidatorUpdate then
      -- proposing on this branch would violate the two direct confirmations rule
      tipLoop d includePendingBlockingLeaf n stack candidate
    else
      let candidate := if curr.header.height > candidate.header.height then curr else candidate
      match curr.children.mapM (Chain.findBlock d) with
      | none => none
      | some children =>
        tipLoop d includePendingBlockingLeaf n (children.reverse ++ stack) candidate

def getTip (includePendingBlockingLeaf : Bool) : EngineProc ExtendedBlock := do
  let hcc ← getHighestCCBlock
  .orDie (tipLoop (← .disk) includePendingBlockingLeaf nd.cfg.fuel [hcc] hcc)

def getTipToVote : EngineProc ExtendedBlock := getTip nd true

def getTipToExtend : EngineProc ExtendedBlock := getTip nd false

/-! ## Validation -/

def shouldProposeByID (previousBlock : Hash) (epoch : UInt64) (id : Address) : Option Bool :=
  if epoch = 0 then some false  -- special handling for genesis epoch
  else do
    let proposer ← a.getNextProposer previousBlock epoch
    pure (decide (proposer.address = id))

def validateHCC (d : Store) (block : Block) (parent : ExtendedBlock) : Option Result :=
  if !Chain.isDescendant d block.header.hcc.blockHash (nd.cfg.hash block.header) then
    some (.error "HCC is not ancestor")
  else match Chain.findBlock d block.header.hcc.blockHash with
    | none => some (.error "HCC block not found")
    | some hccBlock => do
      let hccOK ← if hccBlock.status.isFinalized then pure true
        else do
          let hccValidators ← a.getValidatorSet block.header.hcc.blockHash
          pure (block.header.hcc.isValid nd.verify a.order hccValidators)
      if !hccOK then pure (.error "Invalid HCC")
      -- Blocks with validator changes must be followed by two direct confirmation blocks.
      else if parent.hasValidatorUpdate && block.header.hcc.blockHash ≠ block.header.parent then
        pure (.error "HCC incorrect: parent has validator changes")
      else if parent.header.parent.isEmpty then pure .ok
      else match Chain.findBlock d parent.header.parent with
        | none => pure (.error "Grandparent not found")
        | some grandParent =>
          if grandParent.hasValidatorUpdate && block.header.hcc.blockHash ≠ block.header.parent
          then pure (.error "HCC incorrect: grandparent has validator changes")
          else pure .ok

/-- `validateBlock`, given the height of the last finalized block.  `none` is a panic
or a nil dereference. -/
def validateBlock (d : Store) (lastFinalizedHeight : UInt64)
    (block : Block) (parent : ExtendedBlock) : Option Result :=
  if block.header.height ≤ lastFinalizedHeight then
    some (.error "Block is older than last finalized block")
  else if parent.header.height + 1 ≠ block.header.height then
    some (.error "Block height is incorrect")
  else do
    let parentTimestamp ← parent.header.timestamp
    let timestamp ← block.header.timestamp
    if timestamp < parentTimestamp + 1 then
      pure (.error "Block timestamp needs to increase monotonically")
    else if parent.header.epoch ≥ block.header.epoch then
      pure (.error "Block epoch must be greater than parent epoch")
    else if !parent.status.isValid then
      if parent.status.isPending then none else pure (.error "Parent block is invalid")
    else do
      let res ← validateHCC nd a d block parent
      if res.isError then pure res
      else do
        let proposes ← shouldProposeByID a block.header.parent block.header.epoch
          block.header.proposer
        if !proposes then pure (.error "Invalid proposer") else pure .ok

/-! ## Finalization -/

def finalizeBlock (block : ExtendedBlock) : EngineProc (Except String Unit) := do
  if (← .mem).stopped then pure (.ok ())
  else
    let lfb ← getLastFinalizedBlock
    -- Skip blocks that have already published.
    if nd.cfg.hash block.header = nd.cfg.hash lfb.header then pure (.ok ())
    else
      State.setLastFinalizedBlock nd.cfg block
      checkSyncStatus a
      Chain.finalizePreviousBlocks nd.cfg (nd.cfg.hash block.header)

def finalizeParent (ccBlock : ExtendedBlock) : EngineProc Bool := do
  if ccBlock.header.parent ≠ ccBlock.header.hcc.blockHash then pure true
  else
    match Chain.findBlock (← .disk) ccBlock.header.parent with
    | none => pure false
    | some parent =>
      match ← finalizeBlock nd a parent with
      | .error _ => pure false
      | .ok () => pure true

/-- A block is finalized iff it has a committed child whose parent and whose HCC it is. -/
def processCCBlock (ccBlock : ExtendedBlock) : EngineProc Unit := do
  let hcc ← getHighestCCBlock
  if ccBlock.header.height ≤ hcc.header.height then pure ()
  else
    if ← finalizeParent nd a ccBlock then
      State.setHighestCCBlock nd.cfg ccBlock
      Chain.commitBlock nd.cfg (nd.cfg.hash ccBlock.header)

def checkCC (hash : Hash) : EngineProc Unit := do
  if hash.isEmpty then pure ()
  else
    match Chain.findBlock (← .disk) hash with
    | none => pure ()
    | some block =>
      if block.status.isInvalid then pure ()
      else if block.status.isPending then pure ()
      -- Skip if block already has CC.
      else if block.status.isCommitted || block.status.isDirectlyFinalized
          || block.status.isIndirectlyFinalized then pure ()
      else if block.status.isTrusted then processCCBlock nd a block
      else
        let hcc ← getHighestCCBlock
        -- Ignore outdated votes.
        if block.header.height < hcc.header.height then pure ()
        else
          let votes := (Chain.findVotesByHash (← .disk) hash).uniqueVoter a.order
          let validators ← .orDie (a.getValidatorSet hash)
          if validators.hasMajority a.order votes then processCCBlock nd a block
          else pure ()

/-! ## Voting -/

def createVote (epoch : UInt64) (block : Block) : Vote :=
  let vote : Vote :=
    { block := nd.cfg.hash block.header
      height := block.header.height
      mainchainHeight := UInt64.ofNat (a.mainchainHeight.getD 0)
      epoch := epoch
      id := nd.id
      signature := none }
  { vote with signature := some (nd.sign vote.signBytes) }

/-- The block to vote for, and whether it is a new vote: the heights of the votes
increase, and the HCC of the tip must be the local highest CC block except for the
first vote. -/
def chooseVote (tip : ExtendedBlock) : EngineProc (Block × Bool) := do
  let lastVote := (← .mem).state.lastVote
  let hcc ← getHighestCCBlock
  if lastVote.height ≠ 0 && (lastVote.height ≥ tip.header.height
      || tip.header.hcc.blockHash ≠ nd.cfg.hash hcc.header) then
    let block ← .orDie (Chain.findBlock (← .disk) lastVote.block)
    pure (block.block, false)
  else pure (tip.block, true)

def vote (nd : Node) (a : Answers) : EngineProc Unit := do
  let tip ← getTipToVote nd
  let validators ← .orDie (a.getValidatorSet (nd.cfg.hash tip.header))
  if (validators.getValidator nd.id).isNone then pure ()
  else
    let (block, isNew) ← chooseVote nd tip
    -- A repeated vote is created again so that it has the current epoch.
    let v := createVote nd a (← .mem).state.epoch block
    if isNew then State.setLastVote nd.cfg v
    .output (.vote v)

def updateEpoch (v : Vote) : EngineProc Bool := do
  let lfb ← getLastFinalizedBlock
  let nextValidators ← .orDie (a.getNextValidatorSet (nd.cfg.hash lfb.header))
  let epoch := (← .mem).state.epoch
  if v.epoch < epoch then pure false
  else
    let allEpochVotes ← .orDie (← .disk).epochVotes
    let currentEpochVotes := VoteSet.empty.addVotes
      ((allEpochVotes.votes a.order).filter fun w => w.epoch ≥ v.epoch)
    if nextValidators.hasMajority a.order currentEpochVotes then
      let nextEpoch := v.epoch + 1
      -- Broadcast epoch votes when jumping epoch.
      if nextEpoch > epoch + 1 then
        Proc.forEach (currentEpochVotes.votes a.order) fun w => .output (.relay w)
      let tip ← getTipToExtend nd
      -- The proposer is only logged, but the lookup may panic.
      let _ ← Proc.orDie (a.getNextProposer (nd.cfg.hash tip.header) nextEpoch)
      State.setEpoch nd.cfg nextEpoch
      checkSyncStatus a
      pure true
    else pure false

def handleVote (v : Vote) : EngineProc Bool := do
  if (v.validate nd.verify).isError then pure false
  else
    State.addVote a.order v
    updateEpoch nd a v

/-! ## Blocks -/

def acceptBlock (hasValidatorUpdate : Option Bool) : EngineProc Unit := do
  let hash := nd.cfg.hash block.header
  if hasValidatorUpdate = some true then Chain.markBlockHasValidatorUpdate nd.cfg hash
  Chain.markBlockValid nd.cfg hash
  -- Allow block with one epoch behind since votes are processed first and might
  -- advance the epoch before the block is processed.
  let e ← .mem
  if block.header.epoch = e.state.epoch - 1 || block.header.epoch = e.state.epoch then
    .modifyMem fun e => { e with blockProcessed := true }
    if e.voteTimerReady then vote nd a
  checkCC nd a hash

def applyBlock (parent : ExtendedBlock) : EngineProc Unit := do
  let hash := nd.cfg.hash block.header
  if (a.resetState parent.block).isError then Chain.markBlockInvalid nd.cfg hash
  else
    let (result, hasValidatorUpdate) := a.applyBlockTxs block
    if result.isError then Chain.markBlockInvalid nd.cfg hash
    -- An undecided block stays pending and can be processed again.
    else if result.isUndecided then pure ()
    else acceptBlock nd a block hasValidatorUpdate

def handleNormalBlock (eb : ExtendedBlock) : EngineProc Unit := do
  let block := eb.block
  if !eb.status.isPending then pure ()
  else
    let parent ← .orDie (Chain.findBlock (← .disk) block.header.parent)
    let lfb ← getLastFinalizedBlock
    let res ← .orDie (validateBlock nd a (← .disk) lfb.header.height block parent)
    if res.isError then Chain.markBlockInvalid nd.cfg (nd.cfg.hash block.header)
    else
      let hccVotes ← .orDie block.header.hcc.votes
      Proc.forEach (hccVotes.votes a.order) fun v => do let _ ← handleVote nd a v
      let localHCC ← getHighestCCBlock
      if nd.cfg.hash localHCC.header ≠ block.header.hcc.blockHash then
        checkCC nd a block.header.hcc.blockHash
      applyBlock nd a block parent

def handleBlock : EngineProc Unit := do
  let eb ← .orDie (Chain.findBlock (← .disk) (nd.cfg.hash block.header))
  handleNormalBlock nd a eb

/-! ## Proposals -/

def shouldPropose (tip : ExtendedBlock) (epoch : UInt64) : Option Bool :=
  if epoch ≤ tip.header.epoch then some false
  else shouldProposeByID a (nd.cfg.hash tip.header) epoch nd.id

/-- The dynasty of a vote; the height is converted to a signed integer first. -/
def voteDynasty (v : Vote) : Int := calculateDynasty v.mainchainHeight.toInt64.toInt

def validatorMajorityInTheSameDynasty (d : Store) (tip : ExtendedBlock) : Option Bool :=
  match d.epochVotes with
  | none => some true
  | some epochVotes => do
    let validators ← a.getNextValidatorSet (nd.cfg.hash tip.header)
    -- Check if majority has greater block height.
    let higher := VoteSet.empty.addVotes
      ((epochVotes.votes a.order).filter fun v => v.height ≥ tip.header.height + 1)
    if validators.hasMajority a.order higher then pure false
    else match a.mainchainHeight with
      | none => pure false
      | some height =>
        -- Check if the majority votes have dynasties at least as large as the local one.
        let dynastyVotes := VoteSet.empty.addVotes
          ((epochVotes.votes a.order).filter fun v => voteDynasty v ≥ calculateDynasty height)
        pure (validators.hasMajority a.order dynastyVotes)

def proposalHeader (epoch : UInt64) (tip : ExtendedBlock)
    (parentTimestamp : Nat) (hcc : CommitCertificate) : BlockHeader where
  chainID := nd.cfg.chainID
  epoch := epoch
  height := tip.header.height + 1
  parent := nd.cfg.hash tip.header
  hcc := hcc
  txHash := 0
  receiptHash := 0
  bloom := 0
  stateHash := 0
  timestamp := some (max a.now (parentTimestamp + 1))
  proposer := nd.id
  signature := none

/-- `none` is an error: the block would be invalid or undecided. -/
def createProposal (sameDynasty : Bool) : EngineProc (Option Proposal) := do
  let tip ← getTipToExtend nd
  if (a.resetState tip.block).isError then .die
  else
    let d ← .disk
    let parentBlock ← .orDie (Chain.findBlock d (nd.cfg.hash tip.header))
    let parentTimestamp ← .orDie parentBlock.header.timestamp
    let lastCC ← getHighestCCBlock
    let hccHash := nd.cfg.hash lastCC.header
    let hccValidators ← .orDie (a.getValidatorSet hccHash)
    let hccVotes := ((Chain.findVotesByHash d hccHash).uniqueVoter a.order).filterByValidators
      hccValidators
    let header := proposalHeader nd a (← .mem).state.epoch tip parentTimestamp
      ⟨some hccVotes, hccHash⟩
    let (newRoot, txs, result) := a.proposeBlockTxs ⟨header, []⟩ sameDynasty
    if result.isError || result.isUndecided then pure none
    else
      let header := { header with
        txHash := calculateRootHash nd.trieRoot txs
        receiptHash := calculateRootHash nd.trieRoot []
        stateHash := newRoot }
      let header := { header with signature := some (nd.sign (header.signBytes a.order)) }
      -- Add votes that might help peers progress.
      let epochVotes := d.epochVotes.getD .empty
      let votes := (((Chain.findVotesByHash d hccHash).merge a.order epochVotes).uniqueVoterAndBlock
        a.order).filterByValidators hccValidators
      pure (some ⟨some ⟨header, txs⟩, nd.id, some votes⟩)

def propose : EngineProc Unit := do
  let tip ← getTipToExtend nd
  let state := (← .mem).state
  let turn ← .orDie (shouldPropose nd a tip state.epoch)
  if !turn then pure ()
  else
    let sameDynasty ← .orDie (validatorMajorityInTheSameDynasty nd a (← .disk) tip)
    match state.lastProposal.block with
    | some block =>
      if state.epoch = block.header.epoch then .output (.proposal state.lastProposal)
      else proposeNew sameDynasty
    | none => proposeNew sameDynasty
where
  proposeNew (sameDynasty : Bool) : EngineProc Unit := do
    match ← createProposal nd a sameDynasty with
    | none => pure ()
    | some proposal =>
      .modifyMem fun e => { e with state := { e.state with lastProposal := proposal } }
      let block ← .orDie proposal.block
      match ← Chain.addBlock nd.cfg block false with
      | .error _ => .die
      | .ok _ => .output (.proposal proposal)

/-! ## The main loop -/

/-- What can happen to a node: the sync layer stores a block, a message arrives, a
timer fires, an epoch starts, a proposal is due, or the node is stopped. -/
inductive Action where
  | addBlock (b : Block)
  | block (b : Block)
  | vote (v : Vote)
  | voteTimer
  | epochTimer
  | enterEpoch
  | propose
  | stop

def handle : Action → EngineProc Unit
  | .addBlock b => do let _ ← Chain.addBlock nd.cfg b false
  | .block b => handleBlock nd a b
  | .vote v => do
    let _ ← handleVote nd a v
    checkCC nd a v.block
  | .voteTimer => do
    .modifyMem fun e => { e with voteTimerReady := true }
    if (← .mem).blockProcessed then vote nd a
  | .epochTimer => vote nd a
  | .enterEpoch => .modifyMem fun e => { e with voteTimerReady := false, blockProcessed := false }
  | .propose => propose nd a
  | .stop => .modifyMem fun e => { e with stopped := true }

/-- One step of a node.  Once stopped, only the sync layer keeps storing blocks. -/
def step (action : Action) : EngineProc Unit := do
  match action with
  | .addBlock _ => handle nd a action
  | _ => if (← .mem).stopped then pure () else handle nd a action

end Engine

end ThetaSubchain
