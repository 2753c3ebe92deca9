/-
Loading a snapshot (snapshot/snapshot_import.go).

From version 3 on the state is a sequence of raw records that are written as they are.  The
reference counts of the nodes are left out.
-/
import ThetaSubchain.Snapshot.File

namespace ThetaSubchain

open Ending

namespace Snapshot

variable (cfg : SnapshotConfig)

/-! ## The state section -/

def svStart : Bytes := [0]

def svEnd : Bytes := [1]

/-- `Bytestoi`: little endian; too few bytes are a panic. -/
def bytestoi (b : Bytes) : Except Refusal UInt64 :=
  if b.length < 8 then .error (.panicked "index out of range")
  else .ok (UInt64.ofNat (Rlp.toNat (b.take 8).reverse))

structure OpenView where
  height : UInt64
  content : TrieContent

structure StateLoad where
  db : Database
  svStack : List OpenView := []
  sv : Option StateView := none
  account : Option Hash := none

variable (sv : StateView) (metadata : SnapshotMetadata) (db : Database)

def save (content : TrieContent) : Database :=
  (cfg.trieNodes content).foldl (fun db n => db.put (cfg.trie.hash n).bytes n) db

def loadRecordV2 (l : StateLoad) (record : SnapshotTrieRecord) : Except Refusal StateLoad :=
  if record.k = svStart then do
    let height ← bytestoi record.v
    return { l with svStack := ⟨height, fun _ => none⟩ :: l.svStack }
  else if record.k = svEnd then
    match l.svStack with
    | [] => .error (.error "Missing storeview to handle")
    | view :: rest => do
      let height ← bytestoi record.v
      if height ≠ view.height then .error (.error "Storeview start and end heights don't match")
      else
        let hash := cfg.trieRoot view.content
        let closed : StateLoad :=
          { db := save cfg l.db view.content, svStack := rest,
            sv := some ⟨height, hash, view.content⟩, account := none }
        -- a view inside a view of the same height is the storage of an account
        if rest.head?.map OpenView.height = some height then do
          let root ← deref l.account
          if root ≠ hash then .error (.error "Account storage root doesn't match")
          else return closed
        else return closed
  else
    match l.svStack with
    | [] => .error (.error "Missing storeview to handle")
    | view :: rest =>
      let set := { l with
        svStack := { view with content := updateTrie view.content record.k record.v } :: rest }
      if l.account.isNone && accountKeyStart.isPrefixOf record.k then
        match cfg.accountRoot record.v with
        | none => .error (.error "Failed to parse account, %v")
        | some root => .ok { set with account := if root.isEmpty then none else some root }
      else .ok set

variable (records : List SnapshotTrieRecord) (file : SnapshotFile)

def loadStateV2 :
    Except Refusal (Option StateView × Database) := do
  let l ← records.foldlM (loadRecordV2 cfg) { db := db }
  if l.svStack.isEmpty then return (l.sv, l.db)
  else .error (.error "Still some storeview unhandled")

def loadStateV3 : Database :=
  records.foldl (fun db r => db.put r.k r.v) db

/-! ## Validity checks -/

/-- `checkGenesisBlock`: the hash that is expected depends on the chain of the header. -/
def checkGenesisBlock (block : BlockHeader) (db : Database) : Except Refusal ValidatorSet :=
  let expectedGenesisHash :=
    if block.chainID = mainnetChainID then mainnetGenesisBlockHash else cfg.genesisHash
  if block.height ≠ genesisBlockHeight then .error (.error "Invalid genesis block height: %v")
  else if cfg.hash block ≠ expectedGenesisHash then
    .error (.error "Genesis block hash mismatch, expected: %v, calculated: %v")
  else do
    let gsv ← deref (newStoreView cfg db block.height block.stateHash)
    getValidatorSetFromSV gsv

def getValidatorSetFromVSProof (stateHash : Hash) (proof : ValidatorSetProof) :
    Except Refusal ValidatorSet :=
  match cfg.verifyProof stateHash currentValidatorSetKey proof with
  | none => .error (.error "%v")
  | some serializedVS =>
    match decodeValidatorSet serializedVS with
    | none => .error (.error "%v")
    | some vs => .ok (ValidatorSelection.filterValidators vs)

def validateVote (vs : ValidatorSet) (block : BlockHeader) (vote : Vote) : Except Refusal Unit :=
  if !(vote.validate cfg.verify).isOK then .error (.error "vote is not valid, %v")
  else if vote.block ≠ cfg.hash block then .error (.error "vote is not for corresponding block")
  else if (vs.getValidator vote.id).isNone then .error (.error "can't find validator for vote")
  else .ok ()

def validateVotes (vs : ValidatorSet) (block : BlockHeader) (voteSet : VoteSet) :
    Except Refusal Unit :=
  if !vs.hasMajority cfg.ord voteSet then .error (.error "block doesn't have majority votes")
  else (voteSet.votes cfg.ord).forM (validateVote cfg vs block)

def parentLinked (t : SnapshotBlockTrio) : Bool :=
  t.second.header.parent == cfg.hash t.first.header &&
    t.third.header.parent == cfg.hash t.second.header

def hccLinked (t : SnapshotBlockTrio) : Bool :=
  t.second.header.hcc.blockHash == cfg.hash t.first.header &&
    t.third.header.hcc.blockHash == cfg.hash t.second.header

def checkProofTrio (provenValSet : ValidatorSet) (t : SnapshotBlockTrio) :
    Except Refusal ValidatorSet :=
  if !parentLinked cfg t then .error (.error "block trio has invalid Parent link")
  else if !hccLinked cfg t then
    .error (.error "block trio has invalid HCC link: %v, %v; %v, %v")
  else do
    -- the certificate of the third block holds the votes for the second
    let votes ← deref t.third.header.hcc.votes
    (validateVotes cfg provenValSet t.second.header votes).mapError
      (.wrap "Failed to validate voteSet, %v")
    (getValidatorSetFromVSProof cfg t.first.header.stateHash t.first.proof).mapError
      (.wrap "Failed to retrieve validator set from VS proof: %v")

def checkProofTrios :
    List SnapshotBlockTrio → Except Refusal (Option ValidatorSet)
  | [] => .ok none
  | genesis :: trios => do
    let genesisValSet ← (checkGenesisBlock cfg genesis.second.header db).mapError
      (.wrap "Invalid genesis block: %v")
    some <$> trios.foldlM (checkProofTrio cfg) genesisValSet

def checkTailTrio (provenValSet : Option ValidatorSet)
    (tailTrio : SnapshotBlockTrio) : Except Refusal Unit :=
  if tailTrio.second.header.height = genesisBlockHeight then do
    let _ ← checkGenesisBlock cfg tailTrio.second.header db
    return ()
  else do
    let provenValSet ← deref provenValSet
    -- the result of the validation is not used
    let _ := validateVotes cfg provenValSet tailTrio.third.header tailTrio.third.voteSet
    let retrievedValSet ← getValidatorSetFromSV sv
    if !provenValSet.equals retrievedValSet then
      .error (.error "The latest proven and retrieved validator set does not match")
    else return ()

def checkSnapshot : Except Refusal Unit :=
  let secondBlock := metadata.tailTrio.second.header
  if sv.root ≠ secondBlock.stateHash then .error (.error "StateHash not matching: %v vs %s")
  else if secondBlock.height ≠ genesisBlockHeight then do
    let provenValSet ← checkProofTrios cfg db metadata.proofTrios
    checkTailTrio cfg sv db provenValSet metadata.tailTrio
  else checkTailTrio cfg sv db none metadata.tailTrio

def checkSnapshotV4 : Except Refusal Unit :=
  let secondBlock := metadata.tailTrio.second.header
  let first := metadata.tailTrio.first
  if sv.root ≠ secondBlock.stateHash then .error (.error "StateHash not matching: %v vs %s")
  else do
    let valSet ← (getValidatorSetFromVSProof cfg first.header.stateHash first.proof).mapError
      (.wrap "Failed to retrieve validator set from VS proof: %v")
    checkTailTrio cfg sv db (some valSet) metadata.tailTrio

def checkVersion (version : Nat) (sv : StateView) (metadata : SnapshotMetadata) (db : Database) :
    Except Refusal Unit :=
  if version ≥ 4 then checkSnapshotV4 cfg sv metadata db else checkSnapshot cfg sv metadata db

def descendsLoop (db : Database) (checkpoint : Hash) : Nat → Hash → Except Refusal Bool
  | 0, _ => .ok false
  | n + 1, hash =>
    if hash = checkpoint then .ok true
    else match db.getBlock cfg hash with
      | none => .error (.error
          "Failed to find block when verifying the last checkpoint, block hash: %v")
      | some block => descendsLoop db checkpoint n block.header.parent

def checkLastCheckpoint (snapshotBlockHeader : BlockHeader)
    (lastCheckpoint : LastCheckpoint) : Except Refusal Unit := do
  let isDescendent ← descendsLoop cfg db (cfg.hash lastCheckpoint.checkpointHeader)
    cfg.checkpointInterval (cfg.hash snapshotBlockHeader)
  if isDescendent then return ()
  else .error (.error "Snapshot block %v is not a descendant of the last checkpoint %v")

/-! ## Loading -/

/-- The checkpoint block and the blocks after it are saved without transactions. -/
def saveLastCheckpoint (lastCheckpoint : LastCheckpoint) : Database :=
  let db := db.putNewBlock cfg ⟨⟨lastCheckpoint.checkpointHeader, []⟩, [], .trusted, false⟩
  lastCheckpoint.intermediateHeaders.foldl
    (fun db h => db.putNewBlock cfg ⟨⟨h, []⟩, [], .pending, false⟩) db

def saveTailBlocks (sv : StateView) (db : Database) : Except Refusal (BlockHeader × Database) := do
  let first := metadata.tailTrio.first.header
  let second := metadata.tailTrio.second.header
  let hl ← deref (← sv.getValidatorSetUpdateTxHeightList)
  let firstExt : ExtendedBlock :=
    ⟨⟨first, []⟩, [cfg.hash second], .trusted, hl.contains first.height⟩
  let secondExt : ExtendedBlock := ⟨⟨second, []⟩, [], .trusted, hl.contains second.height⟩
  let db := if second.height ≠ genesisBlockHeight then db.putNewBlock cfg firstExt else db
  return (second, db.putNewBlock cfg secondExt)

structure LoadedState where
  sv : StateView
  db : Database

/-- The state section of a file, read over a database.  A store view that cannot be opened
is a nil pointer, used by the first check. -/
def loadState : Except Refusal LoadedState :=
  let second := file.metadata.tailTrio.second.header
  if file.version ≥ 3 then do
    let db := loadStateV3 db file.records
    let sv ← deref (newStoreView cfg db second.height second.stateHash)
    return ⟨sv, db⟩
  else do
    let (sv, db) ← loadStateV2 cfg db file.records
    let sv ← deref sv
    return ⟨sv, db⟩

def saveCheckpoint : Database :=
  if file.version ≥ 2 then saveLastCheckpoint cfg db file.lastCheckpoint else db

def checkCheckpoint (second : BlockHeader) (file : SnapshotFile) : Except Refusal Unit :=
  if file.version ≥ 2 then
    (checkLastCheckpoint cfg db second file.lastCheckpoint).mapError
      (.wrap "Snapshot last checkpoint validation failed: %v")
  else .ok ()

def saveProofTrios (metadata : SnapshotMetadata) : Database :=
  metadata.proofTrios.foldl (fun db t => db.putTrio cfg t) db

def loadSnapshot : Except Refusal (BlockHeader × LoadedState) := do
  let loaded ← loadState cfg (saveCheckpoint cfg db file) file
  (checkVersion cfg file.version loaded.sv file.metadata loaded.db).mapError
    (.wrap "Snapshot state validation failed: %v")
  let (second, db) ← saveTailBlocks cfg file.metadata loaded.sv
    (saveProofTrios cfg loaded.db file.metadata)
  checkCheckpoint cfg db second file
  let _ ← deref (← loaded.sv.getValidatorSet)
  return (second, ⟨loaded.sv, db⟩)

variable {cfg}

theorem loadSnapshot_eq_ok {db : Database} {file : SnapshotFile} {header : BlockHeader}
    {loaded : LoadedState} :
    loadSnapshot cfg db file = .ok (header, loaded) ↔
      ∃ state, loadState cfg (saveCheckpoint cfg db file) file = .ok state ∧
        checkVersion cfg file.version state.sv file.metadata state.db = .ok () ∧
        saveTailBlocks cfg file.metadata state.sv
          (saveProofTrios cfg state.db file.metadata) = .ok (header, loaded.db) ∧
        checkCheckpoint cfg loaded.db header file = .ok () ∧
        (∃ vs, state.sv.getValidatorSet = .ok (some vs)) ∧ loaded.sv = state.sv := by
  unfold loadSnapshot
  constructor
  · intro h
    obtain ⟨state, hstate, h₁⟩ := bind_eq_ok.1 h
    obtain ⟨_, hcheck, h₂⟩ := bind_eq_ok.1 h₁
    obtain ⟨⟨second, db'⟩, htail, h₃⟩ := bind_eq_ok.1 h₂
    obtain ⟨_, hcheckpoint, h₄⟩ := bind_eq_ok.1 h₃
    obtain ⟨found, hfound, h₅⟩ := bind_eq_ok.1 h₄
    obtain ⟨vs, hvs, hreturn⟩ := bind_eq_ok.1 h₅
    cases hreturn
    rw [deref_eq_ok] at hvs
    exact ⟨state, hstate, mapError_eq_ok.1 hcheck, htail, hcheckpoint,
      ⟨vs, hvs ▸ hfound⟩, rfl⟩
  · rintro ⟨state, hstate, hcheck, htail, hcheckpoint, ⟨vs, hvs⟩, hsv⟩
    refine bind_eq_ok.2 ⟨state, hstate, ?_⟩
    refine bind_eq_ok.2 ⟨(), mapError_eq_ok.2 hcheck, ?_⟩
    refine bind_eq_ok.2 ⟨(header, loaded.db), htail, ?_⟩
    refine bind_eq_ok.2 ⟨(), hcheckpoint, ?_⟩
    refine bind_eq_ok.2 ⟨some vs, hvs, ?_⟩
    refine bind_eq_ok.2 ⟨vs, rfl, ?_⟩
    rw [← hsv]
    rfl

end Snapshot

end ThetaSubchain
