/-
Writing a snapshot (snapshot/snapshot_export.go).

Version 2 writes the entries of each state, and the storage of an account between markers right
after the account; version 3 writes the nodes of each trie, leaving out those of a state written
before.  The iterators of the trie library are parameters.
-/
import ThetaSubchain.Snapshot.Import

namespace ThetaSubchain

open Ending (NilPointer deref)

structure SnapshotExporter extends SnapshotConfig where
  lastCheckPointHeight : UInt64 → UInt64
  traverse : NodeStore.Store Hash Bytes → Hash → List (Bytes × Bytes)
  nodeIterator : NodeStore.Store Hash Bytes → Hash → List Hash
  /-- `NewDifferenceIterator`: the nodes of the second trie that are not in the first. -/
  differenceIterator : NodeStore.Store Hash Bytes → Hash → Hash → List Hash
  prove : NodeStore.Store Hash Bytes → Hash → Bytes → Option ValidatorSetProof

namespace Snapshot

variable (x : SnapshotExporter) (d : Store) (db : Database)

def itobytes (n : UInt64) : Bytes := (Rlp.fixedBytes 8 n.toNat).reverse

/-! ## The state section -/

def trieExists (root : Hash) : Bool :=
  root.isEmpty || root == x.emptyRoot || (db.nodes root).isSome

def storageOf (entry : Bytes × Bytes) : Except Refusal (Option Hash) :=
  if accountKeyStart.isPrefixOf entry.1 then
    match x.accountRoot entry.2 with
    | none => .error (.panicked "Failed to parse account for %v")
    | some root => .ok (if root.isEmpty then none else some root)
  else .ok none

def entryRecords (entries : List (Bytes × Bytes)) : List SnapshotTrieRecord :=
  entries.map fun e => ⟨e.1, e.2⟩

variable (lastFinalizedBlock : Hash) (height : UInt64) (block : ExtendedBlock)

def bracketed (records : List SnapshotTrieRecord) : List SnapshotTrieRecord :=
  ⟨svStart, itobytes height⟩ :: records ++ [⟨svEnd, itobytes height⟩]

def writeEntry (needAccountStorage : Bool) (entry : Bytes × Bytes) :
    Except Refusal (List SnapshotTrieRecord) := do
  let record : SnapshotTrieRecord := ⟨entry.1, entry.2⟩
  if needAccountStorage then
    match ← storageOf x entry with
    | none => return [record]
    | some root =>
      if trieExists x db root then
        return record :: bracketed height (entryRecords (x.traverse db.nodes root))
      else .error NilPointer.nilPointer
  else return [record]

def writeStoreView (sv : StateView) (needAccountStorage : Bool) :
    Except Refusal (List SnapshotTrieRecord) := do
  let body ← (x.traverse db.nodes sv.root).mapM (writeEntry x db sv.height needAccountStorage)
  return bracketed sv.height body.flatten

def writeNode (h : Hash) : Except Refusal SnapshotTrieRecord :=
  match db.nodes h with
  | none => .error (.panicked "%v")
  | some val => .ok ⟨h.bytes, val⟩

def writeTrie (root base : Hash) : Except Refusal (List SnapshotTrieRecord) :=
  if !trieExists x db root || !trieExists x db base then .error (.panicked "%v")
  else
    let hashes :=
      if base.isEmpty then x.nodeIterator db.nodes root
      else x.differenceIterator db.nodes base root
    (hashes.filter fun h => !h.isEmpty).mapM (writeNode db)

def writeStorage (entry : Bytes × Bytes) : Except Refusal (List SnapshotTrieRecord) := do
  match ← storageOf x entry with
  | none => return []
  | some root => writeTrie x db root 0

def writeStoreViewV3 (sv : StateView) (needAccountStorage : Bool) (base : Hash) :
    Except Refusal (List SnapshotTrieRecord) := do
  let state ← writeTrie x db sv.root base
  if needAccountStorage then do
    let storage ← (x.traverse db.nodes sv.root).mapM (writeStorage x db)
    return state ++ storage.flatten
  else return state

/-- The states that are exported.  The last checkpoint is left out if it is the snapshot
block. -/
structure ExportViews where
  genesis : StateView
  checkpoint : Option StateView
  parent : StateView
  snapshot : StateView

def writeStatesV2 (v : ExportViews) : Except Refusal (List SnapshotTrieRecord) := do
  let genesis ← writeStoreView x db v.genesis false
  let checkpoint ← v.checkpoint.toList.mapM fun sv => writeStoreView x db sv true
  let parent ← writeStoreView x db v.parent true
  let snapshot ← writeStoreView x db v.snapshot true
  return genesis ++ checkpoint.flatten ++ parent ++ snapshot

def writeStatesV3 (v : ExportViews) : Except Refusal (List SnapshotTrieRecord) := do
  let genesis ← writeStoreViewV3 x db v.genesis false 0
  let checkpoint ← v.checkpoint.toList.mapM fun sv =>
    writeStoreViewV3 x db sv false v.genesis.root
  let parent ← writeStoreViewV3 x db v.parent false v.genesis.root
  let snapshot ← writeStoreViewV3 x db v.snapshot true v.parent.root
  return genesis ++ checkpoint.flatten ++ parent ++ snapshot

/-! ## The blocks -/

def findSnapshotBlock : Except Refusal ExtendedBlock :=
  if height ≠ 0 then
    match (Chain.findBlocksByHeight d height).find? (fun b => b.status.isDirectlyFinalized) with
    | none => .error (.error "Can't find finalized block at height %v")
    | some block => .ok block
  else match Chain.findBlock d lastFinalizedBlock with
    | none => .error (.error "%v")
    | some block => .ok block

/-- The loop back to the last checkpoint: the checkpoint block, and the headers of the blocks
on the way.  A loop that needs more iterations never returns. -/
def checkpointLoop (lastCheckpointHeight : UInt64) :
    Nat → ExtendedBlock → Except Refusal (ExtendedBlock × List BlockHeader)
  | n, curr =>
    if curr.header.height ≤ lastCheckpointHeight then .ok (curr, [])
    else match n with
      | 0 => .error (.panicked "no end")
      | n + 1 =>
        match Chain.findBlock d curr.header.parent with
        | none => .error (.error "%v")
        | some parent => do
          let (checkpoint, headers) ← checkpointLoop lastCheckpointHeight n parent
          return (checkpoint, parent.header :: headers)

def getChild (good : BlockStatus → Bool) : List Hash → Except Refusal (Option ExtendedBlock)
  | [] => .ok none
  | h :: children =>
    match Chain.findBlock d h with
    | none => .error (.error "%v")
    | some b => if good b.status then .ok (some b) else getChild good children

def getFinalizedChild : Except Refusal (Option ExtendedBlock) :=
  getChild d BlockStatus.isFinalized block.children

def getAtLeastCommittedChild : Except Refusal (Option ExtendedBlock) :=
  getChild d (fun s => s.isFinalized || s.isCommitted) block.children

def stateOf (header : BlockHeader) : Except Refusal StateView :=
  deref (newStoreView x.toSnapshotConfig db header.height header.stateHash)

def proveValidatorSet (header : BlockHeader) : Except Refusal ValidatorSetProof := do
  let sv ← stateOf x db header
  match x.prove db.nodes sv.root currentValidatorSetKey with
  | none => .error (.error "failed to get VS Proof")
  | some proof => return proof

def nilHeader : BlockHeader where
  chainID := []
  epoch := 0
  height := 0
  parent := 0
  hcc := ⟨none, 0⟩
  txHash := 0
  receiptHash := 0
  bloom := 0
  stateHash := 0
  timestamp := some 0
  proposer := 0
  signature := some ⟨[]⟩

def genesisTrio (genesis : BlockHeader) : SnapshotBlockTrio :=
  ⟨⟨nilHeader, []⟩, ⟨genesis⟩, ⟨nilHeader, .empty⟩⟩

def finalizedTrio : Except Refusal SnapshotBlockTrio := do
  match ← getFinalizedChild d block with
  | none => .error (.error <|
      "Can't find finalized child block. " ++
        "Likely the last finalized block also contains stake change transactions. " ++
        "Please try again in 30 seconds.")
  | some child =>
    match ← getFinalizedChild d child with
    | none => .error (.error <|
        "Can't find finalized grandchild block. " ++
          "Likely the last finalized block also contains stake change transactions. " ++
          "Please try again in 30 seconds.")
    | some grandChild =>
      if child.header.hcc.blockHash ≠ x.hash block.header ||
          grandChild.header.hcc.blockHash ≠ x.hash child.header then
        .error (.error "Invalid block HCC link for validator set changes")
      else do
        let votes ← deref grandChild.header.hcc.votes
        if votes.isEmpty then .error (.error "Missing block HCC votes for validator set changes")
        else if (votes.votes x.ord).any fun v => v.block ≠ x.hash child.header then
          .error (.error "Invalid block HCC votes for validator set changes")
        else do
          let vsProof ← proveValidatorSet x db block.header
          return ⟨⟨block.header, vsProof⟩, ⟨child.header⟩, ⟨grandChild.header, .empty⟩⟩

/-- The proof trio for a height: one that is stored, that of the genesis block, or one made of
finalized blocks. -/
def proofTrio : Except Refusal SnapshotBlockTrio :=
  match db.getTrio x.toSnapshotConfig height with
  | some trio => .ok trio
  | none =>
    if height = genesisBlockHeight then
      match (Chain.findBlocksByHeight d genesisBlockHeight).head? with
      | none => .error (.panicked "index out of range")
      | some genesis => .ok (genesisTrio genesis.header)
    else
      match (Chain.findBlocksByHeight d height).find? fun b => b.status.isDirectlyFinalized with
      | none => .error (.error "Finalized block not found for height %v")
      | some block => finalizedTrio x d db block

def genesisHeaderOf (trios : List (UInt64 × SnapshotBlockTrio)) : Option BlockHeader :=
  (trios.reverse.find? fun t => t.1 = genesisBlockHeight).map fun t => t.2.second.header

/-! ## The file -/

def findParent : Except Refusal ExtendedBlock :=
  match Chain.findBlock d block.header.parent with
  | none => .error (.error "Failed to find last finalized block's parent, %v")
  | some parent => .ok parent

def checkTailLinks (parent : ExtendedBlock) (child : Option ExtendedBlock) :
    Except Refusal ExtendedBlock :=
  if block.header.hcc.blockHash ≠ x.hash parent.header then
    .error (.error "Parent block hash mismatch: %v vs %v")
  else do
    let child ← deref child
    if child.header.hcc.blockHash ≠ x.hash block.header then
      .error (.error "Finalized block hash mismatch: %v vs %v")
    else return child

def checkpointView (checkpoint : ExtendedBlock) : Except Refusal (Option StateView) :=
  if block.header.height ≠ x.lastCheckPointHeight block.header.height then
    some <$> stateOf x db checkpoint.header
  else .ok none

def exportSnapshot (version : Nat)
    (writeStates : ExportViews → Except Refusal (List SnapshotTrieRecord))
    (lastFinalizedBlock : Hash) (height : UInt64) : Except Refusal SnapshotFile := do
  let block ← findSnapshotBlock d lastFinalizedBlock height
  let sv ← stateOf x db block.header
  let (checkpoint, intermediateHeaders) ← checkpointLoop d
    (x.lastCheckPointHeight block.header.height) block.header.height.toNat block
  let hl ← deref (← sv.getValidatorSetUpdateTxHeightList)
  let proofTrios ← hl.mapM (proofTrio x d db)
  let parent ← findParent d block
  let child ← checkTailLinks x block parent (← getAtLeastCommittedChild d block)
  let vsProof ← proveValidatorSet x db parent.header
  let genesis ← deref (genesisHeaderOf (hl.zip proofTrios))
  let genesisSV ← stateOf x db genesis
  let checkpointSV ← checkpointView x db block checkpoint
  let parentSV ← stateOf x db parent.header
  let records ← writeStates ⟨genesisSV, checkpointSV, parentSV, sv⟩
  return {
    version := version
    lastCheckpoint := ⟨checkpoint.header, intermediateHeaders⟩
    metadata := {
      proofTrios := proofTrios
      tailTrio := {
        first := ⟨parent.header, vsProof⟩
        second := ⟨block.header⟩
        third := ⟨child.header, Chain.findVotesByHash d (x.hash child.header)⟩ } }
    records := records }

def exportSnapshotV2 : Except Refusal SnapshotFile :=
  exportSnapshot x d db 2 (writeStatesV2 x db) lastFinalizedBlock height

def exportSnapshotV3 : Except Refusal SnapshotFile :=
  exportSnapshot x d db 3 (writeStatesV3 x db) lastFinalizedBlock height

end Snapshot

end ThetaSubchain
