/-
The executors of the transactions (ledger/execution).

Processing may change the view and still fail, and what it has written then stays.  A message is
the format string of the source.
-/
import ThetaSubchain.Lib.Ending
import ThetaSubchain.Vm.Evm

namespace ThetaSubchain

open Vm (Halt BlockInfo ExecuteResult VmError)
open Ending (NilPointer deref)

inductive TokenType where
  | tfuel
  | tnt20
  | tnt721
  | tnt1155
deriving DecidableEq, Repr

inductive ViewSelector where
  | delivered
  | checked
  | screened
deriving DecidableEq, Repr

structure TxLibrary where
  verify : Verifier
  signBytes : Bytes → Tx → Bytes
  changeEthereumTxWrapper : Bytes → Bytes
  ethSigningHash : Bytes → SmartContractTx → UInt64 → Hash
  validateEthSignature : Address → Hash → Option Signature → Bool
  validateInput : TxInput → Result
  validateOutput : TxOutput → Result
  updateToHeight : UInt64 → Account → Account
  mapChainID : Bytes → UInt64 → Int
  maxAccountsAffectedPerTx : Nat
  sendTxMinimumFee : Nat → UInt64 → Int
  heightEnableSmartContract : UInt64
  heightTxWrapperExtension : UInt64
  heightRPCCompatibility : UInt64

/-- The executor, with what the parts of the node it asks answer.  `none` is an error of the
witness, a panic of the validator manager and a nil bank address. -/
structure Executor where
  lib : TxLibrary
  vmParams : Vm.Params
  vmLib : Vm.Library
  codec : TxCodec
  fuel : Nat
  chainID : Bytes
  getValidatorSetByDynasty : Int → Option ValidatorSet
  getNextValidatorSet : Hash → Option ValidatorSet
  getTokenBankContractAddress : TokenType → Option Address

/-- What the executor reads of the ledger state: its height, the block it is based on, and
the parent of the block that is being processed. -/
structure Position where
  height : UInt64
  parentBlock : BlockInfo
  currentParent : Hash

structure TxReceipt where
  txHash : Hash
  logs : List Log
  balanceChanges : List BalanceChange
  evmRet : Bytes
  contractAddress : Address
  gasUsed : UInt64
  evmErr : Option VmError
deriving DecidableEq

inductive Stop where
  | halt (h : Halt)
  | fail (message : String)
deriving DecidableEq

abbrev CheckM := Except Stop

def require (cond : Bool) (message : String) : CheckM Unit :=
  if cond then .ok () else .error (.fail message)

instance : NilPointer Stop := ⟨.halt .panic⟩

theorem require_eq_ok {cond : Bool} {message : String} {u : Unit} :
    require cond message = .ok u ↔ cond = true := by
  cases cond <;> simp [require]

structure Outcome where
  view : StoreView
  result : Result
  receipt : Option TxReceipt := none

namespace Account

variable (acc : Account)

def isGTE (c : Coins) : Bool :=
  decide (c.theta ≤ acc.thetaWei) && decide (c.tfuel ≤ acc.tfuelWei)

/-- A new balance; storing a negative one panics. -/
def setBalance (theta tfuel : Int) : Option Account :=
  if 0 ≤ theta ∧ 0 ≤ tfuel then
    some { acc with thetaWei := theta.toNat, tfuelWei := tfuel.toNat }
  else none

def minus (c : Coins) : Option Account :=
  acc.setBalance (acc.thetaWei - c.theta) (acc.tfuelWei - c.tfuel)

def plus (c : Coins) : Option Account :=
  acc.setBalance (acc.thetaWei + c.theta) (acc.tfuelWei + c.tfuel)

def isASmartContract : Bool := acc.codeHash != emptyCodeHash

end Account

namespace Executor

variable (x : Executor)

/-! ## Utilities (executils.go) -/

def verify (sig : Option Signature) (bytes : Bytes) (addr : Address) : Bool :=
  match sig with
  | some s => x.lib.verify s bytes addr
  | none => false

def getValidatorAddresses (vs : ValidatorSet) : List Address := vs.validators.map Validator.address

def isAValidator (addr : Address) (validators : List Address) : Bool := validators.contains addr

variable (pos : Position) (sel : ViewSelector) (view : StoreView)

def getOrMakeAccountImpl (addr : Address) (makeNewAccount : Bool) : Option Account :=
  match view.getAccount addr with
  | some acc => some (x.lib.updateToHeight view.height acc)
  | none =>
    if makeNewAccount then
      some (x.lib.updateToHeight view.height
        { Account.new addr with lastUpdatedBlockHeight := view.height })
    else none

variable (input : TxInput) (acc : Account) (tx : SmartContractTx)

def getInput : Option Account :=
  x.getOrMakeAccountImpl view input.address false

def getOrMakeInput : CheckM Account :=
  deref (x.getOrMakeAccountImpl view input.address true)

abbrev Accounts := List (Address × Account)

def getInputs (view : StoreView) (ins : List TxInput) : CheckM Accounts :=
  ins.foldlM (fun accounts input => do
    require (accounts.lookup input.address).isNone "getInputs - Duplicated address: %v"
    match x.getOrMakeAccountImpl view input.address false with
    | none => throw (.fail "getInputs - Unknown address: %v")
    | some acc => pure (accounts ++ [(input.address, acc)])) []

def getOrMakeOutputs (view : StoreView) (accounts : Accounts) (outs : List TxOutput) :
    CheckM Accounts :=
  outs.foldlM (fun accounts out => do
    require (accounts.lookup out.address).isNone "getOrMakeOutputs - Duplicated address: %v"
    let acc ← deref (x.getOrMakeAccountImpl view out.address true)
    pure (accounts ++ [(out.address, acc)])) accounts

def checked : Result → CheckM Unit
  | .error message => throw (.fail message)
  | _ => pure ()

theorem checked_eq_ok {res : Result} {u : Unit} : checked res = .ok u ↔ res.isError = false := by
  cases res <;> simp [checked, Result.isError, throw, throwThe, MonadExceptOf.throw, pure,
    Except.pure]

def validateInputsBasic (ins : List TxInput) : CheckM Unit :=
  ins.forM fun input => do
    checked (x.lib.validateInput input)
    require (input.coins.theta == 0) "Subchain should not transfer native Theta coin: %v"

def validateOutputsBasic (outs : List TxOutput) : CheckM Unit :=
  outs.forM fun out => checked (x.lib.validateOutput out)

/-- A signature on the bytes, or from a certain height on also on the bytes in the second
wrapper. -/
def signatureValid (sig : Option Signature) (signBytes : Bytes) (addr : Address)
    (blockHeight : UInt64) : Bool :=
  x.verify sig signBytes addr ||
    (decide (x.lib.heightTxWrapperExtension ≤ blockHeight) &&
      x.verify sig (x.lib.changeEthereumTxWrapper signBytes) addr)

def validateInputAdvanced (signBytes : Bytes) (input : TxInput)
    (blockHeight : UInt64) : CheckM Unit := do
  require (acc.sequence + 1 == input.sequence)
    "ValidateInputAdvanced: Got %v, expected %v. (acc.seq=%v)"
  require (acc.isGTE input.coins) "Insufficient fund: balance is %v, tried to send %v"
  require (x.signatureValid input.signature signBytes acc.address blockHeight)
    "Signature verification failed, SignBytes: %v"

def validateInputsAdvanced (accounts : Accounts) (signBytes : Bytes) (ins : List TxInput)
    (blockHeight : UInt64) : CheckM Coins :=
  ins.foldlM (fun total input => do
    let acc ← deref (accounts.lookup input.address)
    x.validateInputAdvanced acc signBytes input blockHeight
    pure (total.plus input.coins)) ⟨some 0, some 0⟩

def sumOutputs (outs : List TxOutput) : Coins :=
  outs.foldl (fun total out => total.plus out.coins) ⟨some 0, some 0⟩

def adjust (change : Account → Option Account) (s : StoreView × Accounts) (addr : Address) :
    Option (StoreView × Accounts) := do
  let acc ← s.2.lookup addr
  let acc ← change acc
  pure (s.1.setAccount addr acc, s.2.map fun p => if p.1 = addr then (addr, acc) else p)

def adjustByInput : Option Account := do
  if acc.isGTE input.coins then
    let acc ← acc.minus input.coins
    pure { acc with sequence := acc.sequence + 1 }
  else none

def adjustByInputs (s : StoreView × Accounts) (ins : List TxInput) :
    Option (StoreView × Accounts) :=
  ins.foldlM (fun s input => adjust (adjustByInput input) s input.address) s

def adjustByOutputs (s : StoreView × Accounts) (outs : List TxOutput) :
    Option (StoreView × Accounts) :=
  outs.foldlM (fun s out => adjust (Account.plus · out.coins) s out.address) s

def whitelistedMethodSignatures : TokenType → List String
  | .tfuel => ["mintVouchers(string,address,uint256,uint256,uint256)"]
  | .tnt20 =>
    ["mintVouchers(string,string,string,uint8,address,uint256,uint256,uint256)",
      "unlockTokens(uint256,string,address,uint256,uint256,uint256)"]
  | .tnt721 =>
    ["mintVouchers(string,string,string,address,uint256,string,uint256,uint256)",
      "unlockTokens(uint256,string,address,uint256,uint256,uint256)"]
  | .tnt1155 =>
    ["mintVouchers(string,address,uint256,uint256,string,uint256,uint256)",
      "unlockTokens(uint256,string,address,uint256,uint256,uint256,uint256)"]

def findBank (contractAddr : Address) : List TokenType → CheckM (Option TokenType)
  | [] => pure none
  | t :: ts => do
    let bank ← deref (x.getTokenBankContractAddress t)
    if contractAddr = bank then pure (some t) else findBank contractAddr ts

def funcSelector (signature : String) : Bytes :=
  (Rlp.fixedBytes 32 (x.vmLib.keccak signature.toUTF8.toList).toNat).take 4

def isVotingForInterchainEvents (contractAddr : Address) (calldata : Bytes) : CheckM Bool := do
  if calldata.length < 4 then pure false
  else
    match ← x.findBank contractAddr [.tfuel, .tnt20, .tnt721, .tnt1155] with
    | none => pure false
    | some t => pure ((whitelistedMethodSignatures t).any fun wms =>
        x.funcSelector wms == calldata.take 4)

def isWhitelistedOperation (fromAddr contractAddr : Address) (calldata : Bytes) : CheckM Bool := do
  let validatorSet ← deref view.getValidatorSet
  if isAValidator fromAddr (getValidatorAddresses validatorSet) then
    x.isVotingForInterchainEvents contractAddr calldata
  else pure false

def minimumGasPrice : Int := 100000000

def sanityCheckForGasPrice (fromAddr contractAddr : Address)
    (calldata : Bytes) : Option Int → CheckM Bool
  | none => pure false
  | some gasPrice => do
    let whitelisted ← x.isWhitelistedOperation view fromAddr contractAddr calldata
    if whitelisted && gasPrice == 0 then pure true
    else pure (decide (minimumGasPrice ≤ gasPrice))

def sanityCheckForSendTxFee (fee : Coins) (numAccountsAffected : Nat) (blockHeight : UInt64) :
    Bool :=
  fee.theta == 0 && decide (x.lib.sendTxMinimumFee numAccountsAffected blockHeight ≤ fee.tfuel)

def chargeFee (fee : Coins) : CheckM (Option Account) :=
  if acc.isGTE fee then do
    let acc ← deref (acc.minus fee)
    pure (some acc)
  else pure none

/-! ## The proposer of a special transaction -/

def checkProposer (proposer : TxInput) (processed : Bool)
    (processedMessage : String) (signBytes : Bytes) : CheckM Unit := do
  let validatorSet ← deref (x.getNextValidatorSet pos.currentParent)
  checked (x.lib.validateInput proposer)
  require (!processed) processedMessage
  require (isAValidator proposer.address (getValidatorAddresses validatorSet))
    "The coinbaseTx proposer is not a validator"
  let proposerAccount ← x.getOrMakeInput view proposer
  require (x.verify proposer.signature signBytes proposerAccount.address) "SignBytes: %X"

/-! ## Coinbase transactions -/

def coinbaseProcessed : String :=
  "Another coinbase transaction has been processed for the current block"

def sanityCheckCoinbase (tx : CoinbaseTx) : CheckM Unit := do
  x.checkProposer pos view tx.proposer view.coinbaseTransactinProcessed coinbaseProcessed
    (x.lib.signBytes x.chainID (.coinbase tx))
  require (tx.blockHeight == pos.height)
    "invalid block height for the coinbase transaction, tx_block_height = %v, state_height = %v"

def processCoinbase : Outcome :=
  if view.coinbaseTransactinProcessed then ⟨view, .error coinbaseProcessed, none⟩
  else ⟨{ view with coinbaseTransactinProcessed := true }, .ok, none⟩

/-! ## Validator set updates -/

def validatorSetProcessed : String :=
  "Another subchain validator set update transaction has been processed for the current block"

def sanityCheckValidatorSetUpdate (tx : SubchainValidatorSetUpdateTx) : CheckM Unit :=
  x.checkProposer pos view tx.proposer view.subchainValidatorSetTransactinProcessed
    validatorSetProcessed (x.lib.signBytes x.chainID (.subchainValidatorSetUpdate tx))

def makeValidatorAccount (v : Validator) : StoreView :=
  match view.getAccount v.address with
  | some _ => view
  | none => view.setAccount v.address
      { Account.new v.address with lastUpdatedBlockHeight := view.height }

def makeValidatorAccounts (validators : List Validator) : StoreView :=
  validators.foldl makeValidatorAccount view

def newValidatorSet (tx : SubchainValidatorSetUpdateTx) : ValidatorSet :=
  tx.validators.foldl ValidatorSet.addValidator (ValidatorSet.new tx.dynasty)

/-- `MapChainID`, which maps as at a sufficiently large height of the mainchain. -/
def selfChainID : Int := x.lib.mapChainID x.chainID 1000000000

def processValidatorSetUpdate (tx : SubchainValidatorSetUpdateTx) : Except Halt Outcome :=
  if view.subchainValidatorSetTransactinProcessed then
    .ok ⟨view, .error validatorSetProcessed, none⟩
  else
    -- The accounts are made before the update is checked.
    let view := makeValidatorAccounts view tx.validators
    match view.getDynasty with
    | none => .error .panic
    | some currentDynasty =>
      if tx.dynasty ≤ currentDynasty then
        .ok ⟨view, .error ("new dynasty needs to be strictly larger than the current dynasty " ++
          "(new: %v, current: %v)"), none⟩
      else
        match x.getValidatorSetByDynasty tx.dynasty with
        | none => .ok ⟨view, .undecided "", none⟩
        | some witnessedValidatorSet =>
          if !(newValidatorSet tx).equals witnessedValidatorSet then
            .ok ⟨view, .error "validator set mismatch: %v vs %v", none⟩
          else
            .ok ⟨{ view.updateValidatorSet x.selfChainID (newValidatorSet tx) with
              subchainValidatorSetTransactinProcessed := true }, .ok, none⟩

/-! ## Send transactions -/

def sanityCheckSend (tx : SendTx) : CheckM Unit := do
  x.validateInputsBasic tx.inputs
  x.validateOutputsBasic tx.outputs
  require (!tx.inputs.isEmpty && !tx.outputs.isEmpty)
    "Invalid sendTx, Inputs and/or Outputs are empty"
  let numAccountsAffected := tx.inputs.length + tx.outputs.length
  require (decide (numAccountsAffected ≤ x.lib.maxAccountsAffectedPerTx))
    ("Trasaction modifying too many accounts. " ++
      "At most %v accounts are allowed per transaction")
  let accounts ← x.getInputs view tx.inputs
  require (tx.inputs.all fun input => input.coins.theta == 0)
    "Subchain does not support native THETA"
  let accounts ← x.getOrMakeOutputs view accounts tx.outputs
  let blockHeight := view.height + 1
  require (decide (blockHeight < x.lib.heightEnableSmartContract) ||
      accounts.all fun p => !p.2.isASmartContract)
    ("Sending Theta/TFuel to a smart contract (%v) through a SendTx transaction " ++
      "is not allowed")
  let inTotal ← x.validateInputsAdvanced accounts (x.lib.signBytes x.chainID (.send tx))
    tx.inputs blockHeight
  require (x.sanityCheckForSendTxFee tx.fee numAccountsAffected blockHeight)
    "Insufficient fee. Transaction fee needs to be at least %v TFuelWei"
  require (inTotal.isEqual ((sumOutputs tx.outputs).plus tx.fee))
    "Input total (%v) != output total + fees (%v)"

def processSend (tx : SendTx) : Except Halt Outcome :=
  let accounts := do
    let accounts ← x.getInputs view tx.inputs
    x.getOrMakeOutputs view accounts tx.outputs
  match accounts with
  | .error (.halt h) => .error h
  | .error (.fail message) => .ok ⟨view, .error message, none⟩
  | .ok accounts =>
    match (adjustByInputs (view, accounts) tx.inputs).bind (adjustByOutputs · tx.outputs) with
    | none => .error .panic
    | some (view, _) => .ok ⟨view, .ok, none⟩

/-! ## Smart contract transactions -/

def checkSmartContractSignature (blockHeight : UInt64) : CheckM Unit := do
  let signBytes := x.lib.signBytes x.chainID (.smartContract tx)
  if x.signatureValid tx.sender.signature signBytes tx.sender.address blockHeight then pure ()
  else
    require (decide (x.lib.heightRPCCompatibility ≤ blockHeight))
      "Signature verification failed, SignBytes: %v"
    let theta ← deref tx.sender.coins.thetaWei
    require (theta == 0) "Sending Theta with ETH transaction is not allowed"
    require (x.lib.validateEthSignature tx.sender.address
        (x.lib.ethSigningHash x.chainID tx blockHeight) tx.sender.signature)
      "ETH Signature verification failed, SignBytes: %v, error: %v"

def intrinsicGasOK : Bool :=
  match Vm.calculateIntrinsicGas x.vmParams tx.data (tx.toAddress == 0) with
  | none => false
  | some intrinsicGas => decide (intrinsicGas ≤ tx.gasLimit)

def sanityCheckSmartContract : CheckM Unit := do
  let blockHeight := pos.height + 1
  checked (x.lib.validateInput tx.sender)
  x.checkSmartContractSignature tx blockHeight
  match x.getInput view tx.sender with
  | none => throw (.fail "Failed to get the account (the address has no Theta nor TFuel)")
  | some fromAccount =>
    require (fromAccount.sequence + 1 == tx.sender.sequence)
      "ValidateInputAdvanced: Got %v, expected %v. (acc.seq=%v)"
    let coins := tx.sender.coins
    require (fromAccount.isGTE coins) "Insufficient fund: balance is %v, tried to send %v"
    require coins.isNonnegative "Invalid value to transfer"
    let gasPriceOK ← x.sanityCheckForGasPrice view tx.sender.address tx.toAddress tx.data
      tx.gasPrice
    require gasPriceOK "Insufficient gas price. Gas price needs to be at least %v TFuelWei"
    require (decide (tx.gasLimit.toNat ≤ x.vmParams.maxGasLimit blockHeight))
      "Invalid gas limit. Gas limit needs to be at most %v"
    require (x.intrinsicGasOK tx) "Intrinsic gas check failed: %v"
    let gasPrice ← deref tx.gasPrice
    let feeLimit := gasPrice * tx.gasLimit.toNat
    -- a limit against overflows
    require (decide (feeLimit.natAbs < 2 ^ 255) && decide (0 ≤ feeLimit)) "Fee limit too high"
    require (coins.theta == 0) "Subchain does not support native THETA"
    require (fromAccount.isGTE ⟨some 0, some (feeLimit + coins.tfuel)⟩)
      "Source balance is %v, but required minimal balance is %v"

/-- `AddTxReceipt`; a transaction that cannot be encoded panics. -/
def addTxReceipt (logs : List Log) (balanceChanges : List BalanceChange)
    (r : ExecuteResult) : Except Halt TxReceipt :=
  match x.codec.encode (.smartContract tx) with
  | none => .error .panic
  | some raw => .ok
    { txHash := x.vmLib.keccak raw
      logs := logs
      balanceChanges := balanceChanges
      evmRet := r.evmRet
      contractAddress := r.contractAddr
      gasUsed := r.gasUsed
      evmErr := r.evmErr }

/-- The fee is charged to the sender after the execution; `none` if it cannot be paid.  The
virtual machine has incremented the sequence if a contract was created. -/
def chargeSender (fromAccount : Account) (gasUsed : UInt64) : CheckM (Option StoreView) := do
  let gasPrice ← deref tx.gasPrice
  match ← chargeFee fromAccount ⟨some 0, some (gasPrice * gasUsed.toNat)⟩ with
  | none => pure none
  | some acc =>
    let acc := if tx.toAddress == 0 then acc else { acc with sequence := acc.sequence + 1 }
    pure (some (view.setAccount tx.sender.address acc))

/-- The transaction after its execution.  The contract ecrecover writes into its data; it returns no
error, so it has run if the call has not failed. -/
def executed (r : ExecuteResult) : SmartContractTx :=
  if tx.toAddress = 1 ∧ r.evmErr = none then
    { tx with data := Vm.Precompile.ecrecoverInput x.vmLib tx.data }
  else tx

/-- The receipt of a transaction; a failed execution leaves no logs and balance changes in
it, and only the delivered view records it. -/
def receiptOf (view : StoreView) (r : ExecuteResult) : Except Halt (Option TxReceipt) :=
  if sel = .delivered then
    let logs := if r.evmErr.isSome then [] else view.logs
    let balanceChanges := if r.evmErr.isSome then [] else view.balanceChanges
    some <$> x.addTxReceipt (x.executed tx r) logs balanceChanges r
  else .ok none

def settle (r : ExecuteResult) (view : StoreView) : Except Halt Outcome :=
  match x.getInput view tx.sender with
  | none => .ok ⟨view, .error "Failed to get the from account", none⟩
  | some fromAccount =>
    match chargeSender view tx fromAccount r.gasUsed with
    | .error (.halt h) => .error h
    | .error (.fail message) => .ok ⟨view, .error message, none⟩
    | .ok none => .ok ⟨view, .error "failed to charge transaction fee", none⟩
    | .ok (some charged) => do
      let receipt ← x.receiptOf sel tx charged r
      pure ⟨charged.resetLogs.resetBalanceChanges, .ok, receipt⟩

def startMachine : Vm.Evm :=
  { stateDB := view.resetLogs.resetBalanceChanges }

def executeSmartContract : EStateM.Result Halt Vm.Evm ExecuteResult :=
  Vm.execute x.vmParams x.vmLib x.fuel pos.parentBlock tx (startMachine view)

def processSmartContract : Except Halt Outcome :=
  match x.executeSmartContract pos view tx with
  | .error h _ => .error h
  | .ok r m => x.settle sel tx r m.stateDB

/-! ## The executor -/

def isTxTypeSupported : Tx → Bool
  | .smartContract _ => decide (x.lib.heightEnableSmartContract ≤ view.height + 1)
  | _ => true

def sanityCheck (tx : Tx) : CheckM Unit := do
  require (x.isTxTypeSupported view tx) "tx type not supported yet"
  match tx with
  | .coinbase tx => x.sanityCheckCoinbase pos view tx
  | .subchainValidatorSetUpdate tx => x.sanityCheckValidatorSetUpdate pos view tx
  | .send tx => x.sanityCheckSend view tx
  | .smartContract tx => x.sanityCheckSmartContract pos view tx
  | .depositStake _ | .withdrawStake _ => throw (.fail "Unknown tx type")

def process (tx : Tx) : Except Halt Outcome :=
  if !x.isTxTypeSupported view tx then .ok ⟨view, .error "tx type not supported yet", none⟩
  else
    match tx with
    | .coinbase _ => .ok (processCoinbase view)
    | .subchainValidatorSetUpdate tx => x.processValidatorSetUpdate view tx
    | .send tx => x.processSend view tx
    | .smartContract tx => x.processSmartContract pos sel view tx
    | .depositStake _ | .withdrawStake _ => .ok ⟨view, .error "Unknown tx type", none⟩

def processTx (tx : Tx) : Except Halt Outcome :=
  match x.sanityCheck pos view tx with
  | .error (.halt h) => .error h
  | .error (.fail message) => .ok ⟨view, .error message, none⟩
  | .ok () => x.process pos sel view tx

end Executor

/-! ## An executor to run transactions with -/

def plainTxLibrary : TxLibrary where
  verify := fun _ _ _ => true
  signBytes := fun _ _ => []
  changeEthereumTxWrapper := id
  ethSigningHash := fun _ _ _ => 0
  validateEthSignature := fun _ _ _ => true
  validateInput := fun _ => .ok
  validateOutput := fun _ => .ok
  updateToHeight := fun height acc => { acc with lastUpdatedBlockHeight := height }
  mapChainID := fun _ _ => 360777
  maxAccountsAffectedPerTx := 512
  sendTxMinimumFee := fun _ _ => 0
  heightEnableSmartContract := 0
  heightTxWrapperExtension := 0
  heightRPCCompatibility := 0

/-- Two calls that differ in their data at most. -/
def sameCall : Tx → Tx → Bool
  | .smartContract tx, .smartContract tx' => { tx' with data := tx.data } == tx
  | _, _ => false

theorem sameCall_data (tx : SmartContractTx) (data : Bytes) :
    sameCall (.smartContract { tx with data := data }) = sameCall (.smartContract tx) := by
  funext t
  cases t with
  | smartContract tx' =>
    rw [Bool.eq_iff_iff, sameCall, sameCall, beq_iff_eq, beq_iff_eq]
    cases tx
    cases tx'
    simp
  | _ => rfl

def dataOf : Tx → Bytes
  | .smartContract tx => tx.data
  | _ => []

def tableCodec (txs : List Tx) : TxCodec :=
  let find : Bytes → Option Tx := fun raw => raw.head?.bind fun i => txs[i.toNat]?
  { decodeType := fun raw => (find raw).map fun tx => (typeOf tx, raw)
    decodeCoinbase := fun raw => (find raw).bind fun
      | .coinbase tx => some tx
      | _ => none
    decodeSend := fun raw => (find raw).bind fun
      | .send tx => some tx
      | _ => none
    decodeSmartContract := fun raw => (find raw).bind fun
      | .smartContract tx => some tx
      | _ => none
    decodeValidatorSetUpdate := fun raw => (find raw).bind fun
      | .subchainValidatorSetUpdate tx => some tx
      | _ => none
    -- a call with other data than in the table has its data after the number
    encode := fun tx => ((txs.findIdx? (· == tx)).map fun i => [UInt8.ofNat i]).or
      ((txs.findIdx? (sameCall tx)).map fun i => UInt8.ofNat i :: dataOf tx)
    encode_data := fun tx data => by
      have hself : ∀ tx : SmartContractTx, Tx.smartContract tx ∈ txs →
          ∃ t ∈ txs, sameCall (.smartContract tx) t = true :=
        fun tx htx => ⟨_, htx, beq_self_eq_true tx⟩
      have hother := hself { tx with data := data }
      rw [sameCall_data] at hother
      rw [Bool.eq_iff_iff]
      simp only [Option.isSome_or, Option.isSome_map, List.findIdx?_isSome, Bool.or_eq_true,
        List.any_eq_true, beq_iff_eq, exists_eq_right, or_iff_right_of_imp (hself _),
        or_iff_right_of_imp hother, sameCall_data] }
where
  typeOf : Tx → Nat
    | .coinbase _ => txCoinbase
    | .send _ => txSend
    | .smartContract _ => txSmartContract
    | .subchainValidatorSetUpdate _ => txSubchainValidatorSetUpdate
    | .depositStake _ => 8
    | .withdrawStake _ => 9

theorem mem_of_txFromBytes {txs : List Tx} {raw : Bytes} {tx : Tx}
    (h : txFromBytes (tableCodec txs) raw = some tx) : tx ∈ txs := by
  rw [txFromBytes, Option.bind_eq_bind, Option.bind_eq_some_iff] at h
  obtain ⟨⟨txType, rest⟩, htype, h⟩ := h
  obtain ⟨tx', hfind, heq⟩ := Option.map_eq_some_iff.mp htype
  cases heq
  obtain ⟨i, -, hi⟩ := Option.bind_eq_some_iff.mp hfind
  have hmem : tx' ∈ txs := List.mem_of_getElem? hi
  have hsame : tx = tx' := by
    cases tx' <;>
      simpa [tableCodec, tableCodec.typeOf, hfind, txCoinbase, txSend, txSmartContract,
        txSubchainValidatorSetUpdate] using h.symm
  rw [hsame]
  exact hmem

theorem isSome_encode_of_txFromBytes {txs : List Tx} {raw : Bytes} {tx : Tx}
    (h : txFromBytes (tableCodec txs) raw = some tx) : ((tableCodec txs).encode tx).isSome := by
  simpa [tableCodec] using .inl (mem_of_txFromBytes h)

def plainExecutor (txs : List Tx) (witness : Int → Option ValidatorSet)
    (validators : ValidatorSet) : Executor where
  lib := plainTxLibrary
  vmParams := Vm.constantinopleParams
  vmLib := Vm.plainLibrary
  codec := tableCodec txs
  fuel := 40
  chainID := [1]
  getValidatorSetByDynasty := witness
  getNextValidatorSet := fun _ => some validators
  getTokenBankContractAddress := fun _ => some 9

end ThetaSubchain
