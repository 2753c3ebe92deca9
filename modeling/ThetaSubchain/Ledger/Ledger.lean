/-
The ledger: proposing the transactions of a block and applying them (ledger/ledger.go,
ledger/state/state.go).
-/
import ThetaSubchain.Core.Block
import ThetaSubchain.Ledger.Execution
import ThetaSubchain.Lib.Ending

namespace ThetaSubchain

open Vm (Halt)
open Ending (bind_eq_ok)

/-- What the ledger is connected to.  `none` is a panic of the validator manager, an error of
the witness and an error of the signer. -/
structure LedgerConfig where
  exec : Executor
  rootHash : LedgerContent → Hash
  blockHash : BlockHeader → Hash
  findBlock : Hash → Option Block
  getNextProposer : Hash → UInt64 → Option Validator
  getMainchainBlockHeight : Option Nat
  sign : Bytes → Option Signature
  reapUnsafe : Nat → List Bytes

structure Ledger where
  parentBlock : Block
  delivered : StoreView
  checked : StoreView
  screened : StoreView
  db : Hash → Option LedgerContent
  receipts : List (Hash × TxReceipt) := []

namespace Ledger

variable (cfg : LedgerConfig)

/-! ## The ledger state -/

def newStoreView (l : Ledger) (height : UInt64) (root : Hash) : Option StoreView :=
  (l.db root).map fun content => { height := height, store := content }

/-- The parent block is set even if its state cannot be loaded. -/
def resetState (l : Ledger) (block : Block) : Ledger × Result :=
  match l.newStoreView block.header.height block.header.stateHash with
  | none => ({ l with parentBlock := block }, .error "Failed to set state root: %v")
  | some view =>
    ({ l with
        parentBlock := block
        delivered := view
        checked := view.copy
        screened := view.copy }, .ok)

def commit (l : Ledger) : Ledger :=
  let delivered := l.delivered.incrementHeight
  { l with
    db := Function.update l.db (cfg.rootHash l.delivered.store) (some l.delivered.store)
    delivered := delivered
    checked := delivered.copy
    screened := delivered.copy }

def view (l : Ledger) : ViewSelector → StoreView
  | .delivered => l.delivered
  | .checked => l.checked
  | .screened => l.screened

def setView (l : Ledger) (sel : ViewSelector) (view : StoreView) : Ledger :=
  match sel with
  | .delivered => { l with delivered := view }
  | .checked => { l with checked := view }
  | .screened => { l with screened := view }

/-! ## Transactions -/

def position (l : Ledger) (block : Block) : Position where
  height := l.delivered.height
  parentBlock :=
    let pb := l.parentBlock.header
    ⟨pb.height, pb.timestamp.getD 0, cfg.exec.lib.mapChainID pb.chainID (pb.height + 1)⟩
  currentParent := block.header.parent

/-- `processTx` on a view of the ledger; a receipt is stored under the hash of the block. -/
def processTx (l : Ledger) (block : Block) (sel : ViewSelector) (tx : Tx) :
    Except Halt (Ledger × Result) :=
  match cfg.exec.processTx (l.position cfg block) sel (l.view sel) tx with
  | .error h => .error h
  | .ok out =>
    let receipts := out.receipt.toList.map fun r => (cfg.blockHash block.header, r)
    .ok ({ l.setView sel out.view with receipts := l.receipts ++ receipts }, out.result)

theorem processTx_eq_ok {cfg : LedgerConfig} {l l' : Ledger} {block : Block} {sel : ViewSelector}
    {tx : Tx} {res : Result} (h : l.processTx cfg block sel tx = .ok (l', res)) :
    ∃ out, cfg.exec.processTx (l.position cfg block) sel (l.view sel) tx = .ok out ∧
      res = out.result ∧
      l' = { l.setView sel out.view with
        receipts := l.receipts ++ out.receipt.toList.map fun r => (cfg.blockHash block.header, r) } := by
  unfold processTx at h
  split at h
  · cases h
  next out hout =>
    cases h
    exact ⟨out, hout, rfl, rfl⟩

def executeTx (l : Ledger) (block : Block) (tx : Tx) : Except Halt (Ledger × Result) :=
  l.processTx cfg block .delivered tx

def checkTx (l : Ledger) (block : Block) (tx : Tx) : Except Halt (Ledger × Result) :=
  l.processTx cfg block .checked tx

/-! ## Special transactions -/

def signTransaction (tx : Tx) : Option Signature :=
  cfg.sign (cfg.exec.lib.signBytes cfg.exec.chainID tx)

def coinbaseTx (l : Ledger) (proposer : Validator) : List Bytes :=
  let tx (sig : Option Signature) : Tx :=
    .coinbase ⟨{ address := proposer.address, signature := sig }, [], l.delivered.height⟩
  match signTransaction cfg (tx none) with
  | none => []
  | some sig => (cfg.exec.codec.encode (tx (some sig))).toList

/-- The dynasty the mainchain has entered and its validators, if it is a new one.  The
outer `none` is a panic. -/
def getNewDynastyAndValidatorSet (view : StoreView) : Option (Option (Int × ValidatorSet)) := do
  let currentDynasty ← view.getDynasty
  return do
    let mainchainBlockHeight ← cfg.getMainchainBlockHeight
    let witnessedDynasty := calculateDynasty mainchainBlockHeight
    let witnessedValidatorSet ← cfg.exec.getValidatorSetByDynasty witnessedDynasty
    if witnessedDynasty ≤ currentDynasty then none
    else some (witnessedDynasty, witnessedValidatorSet)

/-- The validator set update; a proposer without an account is fatal, and so is a transaction
that cannot be signed or encoded. -/
def subchainValidatorSetUpdateTx (view : StoreView) (proposer : Validator) (newDynasty : Int)
    (newValidatorSet : ValidatorSet) : Option Bytes := do
  let proposerAccount ← view.getAccount proposer.address
  let tx (sig : Option Signature) : Tx :=
    .subchainValidatorSetUpdate
      { proposer :=
          { address := proposer.address
            sequence := proposerAccount.sequence + 1
            signature := sig }
        dynasty := newDynasty
        validators := newValidatorSet.validators }
  let sig ← signTransaction cfg (tx none)
  cfg.exec.codec.encode (tx (some sig))

def specialTransactions (l : Ledger) (block : Block) (validatorMajorityInTheSameDynasty : Bool) :
    Option (List Bytes) := do
  let proposer ← cfg.getNextProposer block.header.parent block.header.epoch
  let _currentValidatorSet ← cfg.exec.getNextValidatorSet block.header.parent
  let coinbase := l.coinbaseTx cfg proposer
  match ← getNewDynastyAndValidatorSet cfg l.checked with
  | some (newDynasty, newValidatorSet) =>
    if validatorMajorityInTheSameDynasty then
      let update ← subchainValidatorSetUpdateTx cfg l.checked proposer newDynasty newValidatorSet
      return coinbase ++ [update]
    else return coinbase
  | none => return coinbase

/-! ## Proposing -/

def maxNumRegularTxsPerBlock : Nat := 1024

def candidates (l : Ledger) (block : Block) (validatorMajorityInTheSameDynasty : Bool) :
    Option (List Bytes) :=
  (l.specialTransactions cfg block validatorMajorityInTheSameDynasty).map
    (· ++ cfg.reapUnsafe maxNumRegularTxsPerBlock)

def checkTxs (block : Block) : Ledger → List Bytes → Except Halt (Ledger × List Bytes)
  | l, [] => .ok (l, [])
  | l, raw :: rest =>
    match txFromBytes cfg.exec.codec raw with
    | none => checkTxs block l rest
    | some tx => do
      let (l, res) ← l.checkTx cfg block tx
      let (l, blockRawTxs) ← checkTxs block l rest
      return (l, if res.isError then blockRawTxs else raw :: blockRawTxs)

def proposeBlockTxs (l : Ledger) (block : Block) (validatorMajorityInTheSameDynasty : Bool) :
    Except Halt (Ledger × Hash × List Bytes × Result) := do
  match l.candidates cfg block validatorMajorityInTheSameDynasty with
  | none => throw .panic
  | some rawTxCandidates =>
    let (l, blockRawTxs) ← checkTxs cfg block l rawTxCandidates
    return (l, cfg.rootHash l.checked.store, blockRawTxs, .ok)

/-! ## Applying -/

def isValidatorStake : Tx → Bool
  | .depositStake forValidator | .withdrawStake forValidator => forValidator
  | _ => false

/-- Execute the transactions up to the first one that fails.  The result is the flag
`hasValidatorUpdate`, or the failure. -/
def executeTxs (block : Block) : Ledger → Bool → List Bytes →
    Except Halt (Ledger × Except Result Bool)
  | l, hasValidatorUpdate, [] => .ok (l, .ok hasValidatorUpdate)
  | l, hasValidatorUpdate, raw :: rest =>
    match txFromBytes cfg.exec.codec raw with
    | none => .ok (l, .error (.error "Failed to parse transaction: %v"))
    | some tx => do
      let (l, res) ← l.executeTx cfg block tx
      if res.isError || res.isUndecided then return (l, .error res)
      else executeTxs block l (hasValidatorUpdate || isValidatorStake tx) rest

section ExecuteTxs

variable {cfg : LedgerConfig} {block : Block} {l l' : Ledger} {flag flag' : Bool}

theorem executeTxs_cons_eq_ok {raw : Bytes} {rest : List Bytes} :
    executeTxs cfg block l flag (raw :: rest) = .ok (l', .ok flag') ↔
      ∃ tx l₁, txFromBytes cfg.exec.codec raw = some tx ∧
        l.executeTx cfg block tx = .ok (l₁, .ok) ∧
        executeTxs cfg block l₁ (flag || isValidatorStake tx) rest = .ok (l', .ok flag') := by
  rw [executeTxs]
  constructor
  · intro h
    cases htx : txFromBytes cfg.exec.codec raw with
    | none =>
      rw [htx] at h
      cases h
    | some tx =>
      rw [htx] at h
      obtain ⟨⟨l₁, res⟩, hstep, h⟩ := bind_eq_ok.mp h
      cases res with
      | ok => exact ⟨tx, l₁, rfl, hstep, h⟩
      | error message => cases h
      | undecided message => cases h
  · rintro ⟨tx, l₁, htx, hstep, h⟩
    rw [htx]
    dsimp only
    rw [hstep]
    exact h

/-- What every transaction keeps, whatever its result, the transactions of a block keep. -/
theorem executeTxs_spec {P : Ledger → Prop}
    (hstep : ∀ l tx l' res, P l → l.executeTx cfg block tx = .ok (l', res) → P l')
    {raws : List Bytes} {verdict : Except Result Bool}
    (h : executeTxs cfg block l flag raws = .ok (l', verdict)) (hl : P l) :
    P l' ∧ verdict ≠ .error .ok := by
  induction raws generalizing l flag with
  | nil =>
    cases h
    exact ⟨hl, by simp⟩
  | cons raw rest ih =>
    rw [executeTxs] at h
    cases htx : txFromBytes cfg.exec.codec raw with
    | none =>
      rw [htx] at h
      cases h
      exact ⟨hl, by simp⟩
    | some tx =>
      rw [htx] at h
      obtain ⟨⟨l₁, res⟩, hexec, h⟩ := bind_eq_ok.mp h
      have hl₁ : P l₁ := hstep l tx l₁ res hl hexec
      dsimp only at h
      split at h
      next hbad =>
        cases h
        refine ⟨hl₁, fun hres => ?_⟩
        rw [Except.error.inj hres] at hbad
        exact absurd hbad (by decide)
      · exact ih h hl₁

theorem executeTxs_failure_ne_ok {raws : List Bytes} {res : Result}
    (h : executeTxs cfg block l flag raws = .ok (l', .error res)) : res ≠ .ok := by
  rintro rfl
  exact (executeTxs_spec (P := fun _ => True) (fun _ _ _ _ _ _ => trivial) h trivial).2 rfl

end ExecuteTxs

/-- The result and `Info["hasValidatorUpdate"]`.  The state is reset to the parent if the
block cannot be applied. -/
def applyBlockTxs (l : Ledger) (block : Block) : Except Halt (Ledger × Result × Option Bool) := do
  match cfg.findBlock block.header.parent with
  | none => throw .panic
  | some parentBlock =>
    match ← executeTxs cfg block l false block.txs with
    | (l, .error res) => return ((l.resetState parentBlock).1, res, none)
    | (l, .ok hasValidatorUpdate) =>
      if cfg.rootHash l.delivered.store ≠ block.header.stateHash then
        return ((l.resetState parentBlock).1,
          .error "State root mismatch! root: %v, exptected: %v", none)
      else return (l.commit cfg, .ok, some hasValidatorUpdate)

theorem applyBlockTxs_eq_ok {cfg : LedgerConfig} {block : Block} {l l' : Ledger}
    {update : Option Bool} (h : l.applyBlockTxs cfg block = .ok (l', .ok, update)) :
    ∃ l₁ flag, executeTxs cfg block l false block.txs = .ok (l₁, .ok flag) ∧
      update = some flag ∧ l' = l₁.commit cfg := by
  unfold applyBlockTxs at h
  split at h
  · cases h
  next pb _ =>
    obtain ⟨⟨l₁, verdict⟩, hexec, h⟩ := bind_eq_ok.mp h
    cases verdict with
    | error res =>
      cases h
      exact absurd rfl (executeTxs_failure_ne_ok hexec)
    | ok flag =>
      dsimp only at h
      split at h
      · cases h
      · cases h
        exact ⟨l₁, flag, hexec, rfl, rfl⟩

end Ledger

end ThetaSubchain
