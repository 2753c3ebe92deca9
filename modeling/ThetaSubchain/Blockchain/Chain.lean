/-
The chain store (blockchain/chain.go, blockchain/vote.go).

The key-value store is kept by kind of key.  Every `Put` is one atomic write.
-/
import ThetaSubchain.Core.Block
import ThetaSubchain.Lib.Process

namespace ThetaSubchain

open Durable

structure StateStub where
  root : Hash
  highestCCBlock : Hash
  lastFinalizedBlock : Hash
  lastProposal : Proposal
  lastVote : Vote
  epoch : UInt64

structure Store where
  block : Hash → Option ExtendedBlock
  blocksByHeight : UInt64 → Option (List Hash)
  votes : Hash → Option VoteSet
  stub : Option StateStub
  epochVotes : Option VoteSet

def Store.empty : Store := ⟨fun _ => none, fun _ => none, fun _ => none, none, none⟩

/-- What a chain is configured with.  `fuel` bounds the loops over parent and child
links, which the source leaves unbounded: a loop that needs more never returns. -/
structure ChainConfig where
  /-- What `Hash` computes in one call.  It depends on a map order where a certificate holds two
  votes of one voter (`headerHash`), so it is one function in all calls only for headers with
  distinct voters. -/
  hash : BlockHeader → Hash
  chainID : Bytes
  root : Hash
  fuel : Nat

namespace Chain

variable {μ ο : Type}

def maxDistance : Nat := 2000

variable (d : Store) (cfg : ChainConfig) (h : Hash)

def findBlock : Option ExtendedBlock := d.block h

def findBlocksByHeight (height : UInt64) : List ExtendedBlock :=
  ((d.blocksByHeight height).getD []).filterMap (findBlock d)

def findVotesByHash : VoteSet := (d.votes h).getD VoteSet.empty

def isDescendantLoop (d : Store) (ascendant : Hash) : Nat → Hash → Bool
  | 0, _ => false
  | n + 1, hash =>
    if hash = ascendant then true
    else match findBlock d hash with
      | none => false
      | some curr => isDescendantLoop d ascendant n curr.header.parent

def isDescendant (ascendant descendant : Hash) : Bool :=
  isDescendantLoop d ascendant maxDistance descendant

def Store.setBlock (eb : ExtendedBlock) : Store :=
  { d with block := Function.update d.block h (some eb) }

def saveBlock (eb : ExtendedBlock) : Proc μ Store ο Unit :=
  .modifyDisk fun d => Store.setBlock d (cfg.hash eb.header) eb

/-- A block already in the index is not added again, and nothing is written. -/
def addBlockByHeightIndex (height : UInt64) (h : Hash) : Proc μ Store ο Unit := do
  let blocks := ((← .disk).blocksByHeight height).getD []
  if h ∈ blocks then pure ()
  else .modifyDisk fun d =>
    { d with blocksByHeight := Function.update d.blocksByHeight height (some (blocks ++ [h])) }

def addBlock (block : Block) (isSnapshotRoot : Bool) :
    Proc μ Store ο (Except String ExtendedBlock) := do
  let hash := cfg.hash block.header
  if block.header.chainID ≠ cfg.chainID then pure (.error "ChainID mismatch")
  else if (findBlock (← .disk) hash).isSome then pure (.error "Block has already been added")
  else
    -- Update parent if present.
    if !block.header.parent.isEmpty && !isSnapshotRoot then
      match findBlock (← .disk) block.header.parent with
      | some parent => saveBlock cfg { parent with children := parent.children ++ [hash] }
      | none => pure ()
    -- Update children if present.
    let children := (findBlocksByHeight (← .disk) (block.header.height + 1)).filter
      fun c => c.header.parent = hash
    let extendedBlock : ExtendedBlock :=
      ⟨block, children.map fun c => cfg.hash c.header, .pending, false⟩
    saveBlock cfg extendedBlock
    addBlockByHeightIndex block.header.height hash
    pure (.ok extendedBlock)

def updateBlock (f : ExtendedBlock → ExtendedBlock) : Proc μ Store ο Unit := do
  let block ← .orDie (findBlock (← .disk) h)
  saveBlock cfg (f block)

def markBlockValid : Proc μ Store ο Unit :=
  updateBlock cfg h fun b => { b with status := .valid }

def markBlockInvalid : Proc μ Store ο Unit :=
  updateBlock cfg h fun b => { b with status := .invalid }

def markBlockHasValidatorUpdate : Proc μ Store ο Unit :=
  updateBlock cfg h fun b => { b with hasValidatorUpdate := true }

def commitBlock : Proc μ Store ο Unit :=
  updateBlock cfg h fun b => { b with status := .committed }

/-- The loop of `FinalizePreviousBlocks`.  Only the first block is marked as directly
finalized. -/
def finalizeLoop (cfg : ChainConfig) :
    Nat → Hash → BlockStatus → Proc μ Store ο (Except String Unit)
  | 0, _, _ => .die
  | n + 1, hash, status =>
    if hash.isEmpty then pure (.ok ())
    else do
      match findBlock (← .disk) hash with
      | none => pure (.ok ())
      | some block =>
        if block.status.isFinalized then pure (.ok ())
        else if block.status = .disposed then pure (.error "Cannot finalize disposed branch")
        else
          saveBlock cfg { block with status := status }
          finalizeLoop cfg n block.header.parent .indirectlyFinalized

def finalizePreviousBlocks : Proc μ Store ο (Except String Unit) :=
  finalizeLoop cfg cfg.fuel h .directlyFinalized

def addVoteToIndex (v : Vote) : Proc μ Store ο Unit :=
  if v.block.isEmpty then pure ()
  else .modifyDisk fun d =>
    { d with votes := Function.update d.votes v.block (some ((findVotesByHash d v.block).addVote v)) }

end Chain

end ThetaSubchain
