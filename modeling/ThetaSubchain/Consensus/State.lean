/-
The consensus state and its durable record (consensus/state.go).

The memory of a running engine is its consensus state and four flags.  Each setter
changes the memory and commits the whole state in one write.
-/
import ThetaSubchain.Blockchain.Chain

namespace ThetaSubchain

open Durable

structure State where
  highestCCBlock : Hash
  lastFinalizedBlock : Hash
  lastProposal : Proposal
  lastVote : Vote
  epoch : UInt64

structure Engine where
  state : State
  voteTimerReady : Bool
  blockProcessed : Bool
  hasSynced : Bool
  stopped : Bool

inductive Output where
  | vote (v : Vote)
  | relay (v : Vote)
  | proposal (p : Proposal)
deriving DecidableEq

abbrev EngineProc := Proc Engine Store Output

namespace State

def getSummary (root : Hash) (s : State) : StateStub :=
  ⟨root, s.highestCCBlock, s.lastFinalizedBlock, s.lastProposal, s.lastVote, s.epoch⟩

variable (cfg : ChainConfig)

def commit : EngineProc Unit := do
  let stub := (← .mem).state.getSummary cfg.root
  .modifyDisk fun d => { d with stub := some stub }

def load (d : Store) : State :=
  let fresh : State := ⟨cfg.root, cfg.root, .zero, .zero,
    match Chain.findBlock d cfg.root with
    | some eb => eb.header.epoch
    | none => 0⟩
  match d.stub with
  | none => fresh
  | some stub =>
    if stub.root ≠ cfg.root then fresh
    else ⟨stub.highestCCBlock, stub.lastFinalizedBlock, stub.lastProposal, stub.lastVote,
      stub.epoch⟩

def set (f : State → State) : EngineProc Unit := do
  .modifyMem fun e => { e with state := f e.state }
  commit cfg

def setEpoch (epoch : UInt64) : EngineProc Unit :=
  set cfg fun s => { s with epoch := epoch }

def setLastVote (v : Vote) : EngineProc Unit :=
  set cfg fun s => { s with lastVote := v }

def setHighestCCBlock (eb : ExtendedBlock) : EngineProc Unit :=
  set cfg fun s => { s with highestCCBlock := cfg.hash eb.header }

def setLastFinalizedBlock (eb : ExtendedBlock) : EngineProc Unit :=
  set cfg fun s => { s with lastFinalizedBlock := cfg.hash eb.header }

def getHighestCCBlock : EngineProc ExtendedBlock := do
  .orDie (Chain.findBlock (← .disk) (← .mem).state.highestCCBlock)

def getLastFinalizedBlock : EngineProc ExtendedBlock := do
  .orDie (Chain.findBlock (← .disk) (← .mem).state.lastFinalizedBlock)

def addEpochVote (ord : MapOrder) (v : Vote) : EngineProc Unit :=
  .modifyDisk fun d =>
    { d with epochVotes := some (((d.epochVotes.getD .empty).addVote v).uniqueVoter ord) }

def addVote (ord : MapOrder) (v : Vote) : EngineProc Unit := do
  addEpochVote ord v
  Chain.addVoteToIndex v

end State

def Engine.new (cfg : ChainConfig) (d : Store) : Engine :=
  ⟨State.load cfg d, false, false, false, false⟩

end ThetaSubchain
