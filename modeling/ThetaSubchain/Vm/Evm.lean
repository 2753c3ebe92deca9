/-
The virtual machine: precompiled contracts, the calls and creations that open a frame, the
interpreter loop and `Execute` (ledger/vm/{vm,contracts,interpreter,exec}.go).

A frame is run by a function that is passed in; `interpret` ties the knot and its fuel bounds the
nesting of the frames and the steps of each loop.  The machine keeps a trace that it never reads.
-/
import ThetaSubchain.Vm.JumpTable
import ThetaSubchain.Ledger.Tx

namespace ThetaSubchain.Vm

inductive Halt where
  | panic
  | fuel
deriving DecidableEq, Repr

/-- One run of a precompiled contract: the frame or account that executed the call, how it
called, the address `Run` was told, and the view before and after. -/
structure PrecompileRun where
  kind : CallKind
  executor : ContractRef
  address : Address
  callerAddr : Address
  before : StoreView
  after : StoreView

inductive Event where
  | precompile (r : PrecompileRun)
  | log (l : Log)
  | transfer (sender recipient : Address) (amount : Int)
  | mint (recipient : Address) (amount : Int)
  | burn (account : Address) (amount : Int)
  | selfdestruct (account beneficiary : Address) (balance : Int) (taken : Option Nat)
  | install (address : Address) (codeHash : Hash)
  /-- A frame failed: the last `n` events happened since it took its snapshot. -/
  | reverted (n : Nat) (before after : StoreView)

structure Evm where
  stateDB : StoreView
  callGasTemp : UInt64 := 0
  returnData : Bytes := []
  trace : List Event := []

abbrev EvmM := EStateM Halt Evm

def orPanic (g : Evm → Option Evm) : EvmM Unit := fun m =>
  match g m with
  | some m' => .ok () m'
  | none => .error .panic m

structure RunResult where
  ret : Bytes
  gas : UInt64
  err : Option VmError

namespace Evm

def emit (m : Evm) (e : Event) : Evm := { m with trace := e :: m.trace }

def setView (m : Evm) (v : StoreView) : Evm := { m with stateDB := v }

def canTransfer (db : StoreView) (addr : Address) (amount : Int) : Bool :=
  decide (amount ≤ db.getBalance addr)

def transfer (m : Evm) (sender recipient : Address) (amount : Int) : Option Evm := do
  let v ← m.stateDB.subBalance sender amount
  let v ← v.addBalance recipient amount
  return (m.setView v).emit (.transfer sender recipient amount)

/-- `RevertToSnapshot` of a frame whose snapshot was taken in `start`. -/
def revert (start m : Evm) : Evm :=
  let v := m.stateDB.revertToSnapshot start.stateDB.snapshot
  (m.setView v).emit (.reverted (m.trace.length - start.trace.length) start.stateDB v)

end Evm

/-! ## Precompiled contracts -/

inductive Precompile where
  | native (n : Nat)
  | dynasty
  | validatorSet
  | mintTFuel
  | burnTFuel
deriving DecidableEq, Repr

def precompiledContracts (addr : Address) : Option Precompile :=
  let n := addr.toNat
  if 1 ≤ n ∧ n ≤ 8 then some (.native n)
  else if n = 180 then some .dynasty
  else if n = 181 then some .validatorSet
  else if n = 182 then some .mintTFuel
  else if n = 183 then some .burnTFuel
  else none

namespace Precompile

def requiredGas (env : Env) (input : Bytes) (blockHeight : UInt64) : Precompile → UInt64
  | .native n => (env.lib.native n).requiredGas input blockHeight
  | _ => 200

abbrev Outcome := Option (Evm × Bytes × Option VmError)

def runNative (env : Env) (n : Nat) (m : Evm) (input : Bytes) : Outcome :=
  match (env.lib.native n).run input with
  | .ok ret => some (m, ret, none)
  | .error message => some (m, [], some (.native message))

/-- What `Run` of ecrecover leaves in the slice of its input: the recovery id is appended to a part
of it, which overwrites the byte that follows.  The input of an instruction is a copy of the memory,
so only a transaction that calls the contract sees the change. -/
def ecrecoverInput (lib : Library) (input : Bytes) : Bytes :=
  let r := ofBytes (getData input 64 32)
  let s := ofBytes (getData input 96 32)
  let v := input.getD 63 0 - 27
  if (getData input 32 31).all (· == 0) && lib.validateSignatureValues v r s then input.set 128 v
  else input

def runDynasty (m : Evm) : Outcome := do
  let dynasty ← m.stateDB.getDynasty
  return (m, leftPadBytes (Rlp.beBytes dynasty.natAbs) 32, none)

def runValidatorSet (env : Env) (m : Evm) (input : Bytes) : Outcome :=
  let chainID := ofBytes (getData input 0 32)
  let dynasty := ofBytes (getData input 32 32)
  match m.stateDB.getValidatorSetForChainDuringDynasty chainID dynasty with
  | some vs => some (m, env.lib.packValidators vs.validators, none)
  | none => some (m, [], none)

/-- `HasPreviledgedAccess`; it panics when the state has no TFuel token bank. -/
def hasPreviledgedAccess (db : StoreView) (callerAddr : Address) : Option Bool :=
  db.getTFuelTokenBankContractAddress.map fun bank => callerAddr == bank

def runMintTFuel (m : Evm) (input : Bytes) (callerAddr : Address) : Outcome := do
  let privileged ← hasPreviledgedAccess m.stateDB callerAddr
  if privileged then
    let recipient := bigToAddress (ofBytes (getData input 0 20))
    let mintAmount := ofBytes (getData input 20 32)
    let v ← m.stateDB.addBalance recipient mintAmount
    return ((m.setView v).emit (.mint recipient mintAmount), [], none)
  else return (m, [], some .noPreviledgedAccess)

def runBurnTFuel (m : Evm) (input : Bytes) (callerAddr : Address) : Outcome :=
  let burnAmount := ofBytes (getData input 0 32)
  if Evm.canTransfer m.stateDB callerAddr burnAmount then do
    let v ← m.stateDB.subBalance callerAddr burnAmount
    return ((m.setView v).emit (.burn callerAddr burnAmount), [], none)
  else some (m, [], some .insufficientBalance)

def run (env : Env) (m : Evm) (input : Bytes) (callerAddr : Address) : Precompile → Outcome
  | .native n => runNative env n m input
  | .dynasty => runDynasty m
  | .validatorSet => runValidatorSet env m input
  | .mintTFuel => runMintTFuel m input callerAddr
  | .burnTFuel => runBurnTFuel m input callerAddr

end Precompile

variable (env : Env) (run : Runner) (depth : Nat)

def runPrecompiledContract (p : Precompile) (input : Bytes) (contract : Contract) :
    EvmM RunResult := fun m =>
  match contract.useGas (p.requiredGas env input m.stateDB.getBlockHeight) with
  | none => .ok ⟨[], contract.gas, some .outOfGas⟩ m
  | some c =>
    match p.run env m input contract.callerAddress with
    | none => .error .panic m
    | some (m', ret, err) =>
      .ok ⟨ret, c.gas, err⟩
        (m'.emit (.precompile
          { kind := contract.kind
            executor := contract.caller
            address := contract.codeAddr
            callerAddr := contract.callerAddress
            before := m.stateDB
            after := m'.stateDB }))

/-! ## Frames -/

abbrev Runner := Contract → Bytes → Bool → EvmM RunResult

/-- The end of the four call functions: a failed frame is reverted to its snapshot, and
only an explicit revert leaves it its gas. -/
def runFrame (start : Evm) (contract : Contract) (input : Bytes)
    (readOnly : Bool) : EvmM RunResult := do
  let r ← run contract input readOnly
  if r.err = none then return r
  else
    modify start.revert
    return { r with gas := if r.err = some .executionReverted then r.gas else 0 }

variable (f : Frame) (caller : ContractRef)

def call (addr : Address) (input : Bytes) (gas : UInt64) (value : Int) : EvmM RunResult := do
  let m ← get
  if env.params.callCreateDepth < depth then return ⟨[], gas, some .depth⟩
  else if !Evm.canTransfer m.stateDB caller.address value then
    return ⟨[], gas, some .insufficientBalance⟩
  else if !m.stateDB.exist addr && (precompiledContracts addr).isNone && value == 0 then
    -- Calling an account that does not exist does nothing.
    return ⟨[], gas, none⟩
  else
    if !m.stateDB.exist addr then
      modify fun m => m.setView (m.stateDB.createAccountWithPreviousBalance addr)
    orPanic fun m => m.transfer caller.address addr value
    let code := (← get).stateDB.getCode addr
    runFrame run m (.new .call caller addr value gas addr code) input false

def callCode (addr : Address) (input : Bytes) (gas : UInt64) (value : Int) : EvmM RunResult := do
  let m ← get
  if env.params.callCreateDepth < depth then return ⟨[], gas, some .depth⟩
  else if !Evm.canTransfer m.stateDB caller.address value then
    return ⟨[], gas, some .insufficientBalance⟩
  else
    let code := m.stateDB.getCode addr
    runFrame run m (.new .callCode caller caller.address value gas addr code) input false

/-- `DelegateCall`: also the caller and the value of the executing frame are kept. -/
def delegateCall (addr : Address) (input : Bytes) (gas : UInt64) : EvmM RunResult := do
  let m ← get
  if env.params.callCreateDepth < depth then return ⟨[], gas, some .depth⟩
  else
    let code := m.stateDB.getCode addr
    match (Contract.new .delegateCall caller caller.address 0 gas addr code).asDelegate with
    | some contract => runFrame run m contract input false
    | none => throw .panic

def staticCall (addr : Address) (input : Bytes) (gas : UInt64) : EvmM RunResult := do
  let m ← get
  if env.params.callCreateDepth < depth then return ⟨[], gas, some .depth⟩
  else
    let code := m.stateDB.getCode addr
    runFrame run m (.new .staticCall caller addr 0 gas addr code) input true

def maxCodeSizeExceeded (r : RunResult) : Bool :=
  decide (env.params.maxCodeSizeForMetachain < r.ret.length)

def storeCode (address : Address) (r : RunResult) : EvmM RunResult := do
  let createDataGas := UInt64.ofNat r.ret.length * env.params.createDataGas
  if r.err ≠ none ∨ maxCodeSizeExceeded env r then return r
  else if r.gas < createDataGas then return { r with err := some .codeStoreOutOfGas }
  else
    modify fun m => (m.setView (m.stateDB.setCode env.lib.keccak address r.ret)).emit
      (.install address (env.lib.keccak r.ret))
    return { r with gas := r.gas - createDataGas }

def createFrame (code : Bytes) (gas : UInt64)
    (value : Int) (address : Address) : EvmM RunResult := do
  let start ← get
  modify fun m => m.setView (m.stateDB.createAccountWithPreviousBalance address)
  orPanic fun m => m.transfer caller.address address value
  let r ← run (.new .create caller address value gas address code) [] false
  let r ← storeCode env address r
  if maxCodeSizeExceeded env r ∨ r.err ≠ none then
    modify start.revert
    let gas := if r.err = some .executionReverted then r.gas else 0
    return { r with gas := gas, err := some (r.err.getD .maxCodeSizeExceeded) }
  else return r

def create (code : Bytes)
    (gas : UInt64) (value : Int) (address : Address) : EvmM (Address × RunResult) := do
  let m ← get
  if env.params.callCreateDepth < depth then return (0, ⟨[], gas, some .depth⟩)
  else if !Evm.canTransfer m.stateDB caller.address value then
    return (0, ⟨[], gas, some .insufficientBalance⟩)
  else
    modify fun m =>
      m.setView (m.stateDB.setNonce caller.address (m.stateDB.getNonce caller.address + 1))
    let v := (← get).stateDB
    let contractHash := v.getCodeHash address
    if v.getNonce address ≠ 0 ∨ contractHash ≠ 0 ∧ contractHash ≠ emptyCodeHash then
      return (0, ⟨[], 0, some .contractAddressCollision⟩)
    else return (address, ← createFrame env run caller code gas value address)

def create1 (code : Bytes) (gas : UInt64) (value : Int) : EvmM (Address × RunResult) := do
  let nonce := (← get).stateDB.getNonce caller.address
  create env run depth caller code gas value (env.lib.createAddress caller.address nonce)

def create2 (code : Bytes) (gas : UInt64) (endowment salt : Int) : EvmM (Address × RunResult) :=
  create env run depth caller code gas endowment
    (env.lib.createAddress2 caller.address (bigToHash salt) (env.lib.keccak code))

/-! ## Instructions that change the machine -/

abbrev OpResult := Frame × Bytes × Option VmError

def opSstore : EvmM OpResult := do
  let key := bigToHash (f.stack.back 0)
  let val := bigToHash (f.stack.back 1)
  modify fun m => m.setView (m.stateDB.setState f.contract.self key val)
  return (f.drop 2, [], none)

def opLog (n : Nat) (f : Frame) : EvmM OpResult := do
  let l : Log :=
    { address := f.contract.self
      topics := ((f.stack.drop 2).take n).map bigToHash
      data := f.memory.get (f.stack.back 0) (f.stack.back 1) }
  modify fun m => (m.setView (m.stateDB.addLog l)).emit (.log l)
  return (f.drop (n + 2), [], none)

def Evm.suicide (m : Evm) (self beneficiary : Address) : Option Evm := do
  let balance := m.stateDB.getBalance self
  let v ← m.stateDB.addBalance beneficiary balance
  let taken := (v.getAccount self).map Account.tfuelWei
  return (m.setView (v.suicide self)).emit (.selfdestruct self beneficiary balance taken)

def opSuicide : EvmM OpResult := do
  orPanic fun m => m.suicide f.contract.self (bigToAddress (f.stack.back 0))
  return (f.drop 1, [], none)

def finishCreate (n : Nat) (f : Frame) (addr : Address) (r : RunResult) : OpResult :=
  let pushed := if r.err = none then (addr.toNat : Int) else 0
  let gas := f.contract.gas + r.gas
  ({ f.drop n with contract := { f.contract with gas := gas } }.push pushed,
    if r.err = some .executionReverted then r.ret else [], none)

def spendForCreate : UInt64 × Frame :=
  let gas := f.contract.gas - f.contract.gas / 64
  (gas, { f with contract := { f.contract with gas := f.contract.gas - gas } })

def opCreate : EvmM OpResult := do
  let input := f.memory.get (f.stack.back 1) (f.stack.back 2)
  let (gas, f) := spendForCreate f
  let (addr, r) ← create1 env run depth f.contract.ref input gas (f.stack.back 0)
  return finishCreate 3 f addr r

def opCreate2 : EvmM OpResult := do
  let input := f.memory.get (f.stack.back 1) (f.stack.back 2)
  let (gas, f) := spendForCreate f
  let (addr, r) ←
    create2 env run depth f.contract.ref input gas (f.stack.back 0) (f.stack.back 3)
  return finishCreate 4 f addr r

/-- The end of the four call instructions, which have popped `n` words, the last two of
them the place of the result in memory. -/
def finishCall (n : Nat) (f : Frame) (r : RunResult) : OpResult :=
  let pushed : Int := if r.err = none then 1 else 0
  let memory :=
    if r.err = none ∨ r.err = some .executionReverted then
      f.memory.set (f.stack.back (n - 2)).natAbs (f.stack.back (n - 1)).natAbs r.ret
    else f.memory
  let gas := f.contract.gas + r.gas
  ({ f.drop n with memory := memory, contract := { f.contract with gas := gas } }.push pushed,
    r.ret, none)

def withStipend (gas : UInt64) (value : Int) : UInt64 :=
  if value = 0 then gas else gas + env.params.callStipend

def opCall : EvmM OpResult := do
  let value := u256 (f.stack.back 2)
  let args := f.memory.get (f.stack.back 3) (f.stack.back 4)
  let gas := withStipend env (← get).callGasTemp value
  let r ← call env run depth f.contract.ref (bigToAddress (f.stack.back 1)) args gas value
  return finishCall 7 f r

def opCallCode : EvmM OpResult := do
  let value := u256 (f.stack.back 2)
  let args := f.memory.get (f.stack.back 3) (f.stack.back 4)
  let gas := withStipend env (← get).callGasTemp value
  let r ← callCode env run depth f.contract.ref (bigToAddress (f.stack.back 1)) args gas value
  return finishCall 7 f r

def opDelegateCall : EvmM OpResult := do
  let args := f.memory.get (f.stack.back 2) (f.stack.back 3)
  let gas := (← get).callGasTemp
  let r ← delegateCall env run depth f.contract.ref (bigToAddress (f.stack.back 1)) args gas
  return finishCall 6 f r

def opStaticCall : EvmM OpResult := do
  let args := f.memory.get (f.stack.back 2) (f.stack.back 3)
  let gas := (← get).callGasTemp
  let r ← staticCall env run depth f.contract.ref (bigToAddress (f.stack.back 1)) args gas
  return finishCall 6 f r

def opPure (op : LocalOp) (f : Frame) : EvmM OpResult := do
  let m ← get
  match op ⟨env, m.stateDB, m.returnData⟩ f with
  | .ok (f', ret) => return (f', ret, none)
  | .error e => return (f, [], some e)

def executeOp (e : Execute) (f : Frame) : EvmM OpResult :=
  match e with
  | .pure op => opPure env op f
  | .sstore => opSstore f
  | .log n => opLog n f
  | .suicide => opSuicide f
  | .create => opCreate env run depth f
  | .create2 => opCreate2 env run depth f
  | .call => opCall env run depth f
  | .callCode => opCallCode env run depth f
  | .delegateCall => opDelegateCall env run depth f
  | .staticCall => opStaticCall env run depth f

/-! ## The interpreter -/

def memorySizeOf (o : Operation) (s : Stack) : Except VmError UInt64 := do
  match o.memorySize with
  | none => return 0
  | some size => orOverflow (safeMul (toWordSize (← bigUint64 (size s))) 32)

def prepare (r : Reads) (readOnly : Bool) (f : Frame) :
    Except VmError (OpCode × UInt64 × GasCharge) := do
  let byte := f.contract.getOp f.pc
  match OpCode.ofByte byte with
  | none => throw (.invalidOpcode byte)
  | some op =>
    match (operation op).validateStack r.env.params f.stack with
    | some e => throw e
    | none =>
      match enforceRestrictions readOnly op f.stack with
      | some e => throw e
      | none =>
        let memorySize ← memorySizeOf (operation op) f.stack
        match (operation op).gasCost r f memorySize with
        | .ok charge => return (op, memorySize, charge)
        | .error _ => throw .outOfGas

def applyRefund (v : StoreView) : RefundChange → Option StoreView
  | .add gas => some (v.addRefund gas)
  | .sub gas => v.subRefund gas

def Evm.applyCharge (m : Evm) (charge : GasCharge) : Option Evm := do
  let v ← charge.refunds.foldlM applyRefund m.stateDB
  return { m with stateDB := v, callGasTemp := charge.callGas.getD m.callGasTemp }

def finishOp (o : Operation) (r : OpResult) : EvmM (Frame ⊕ RunResult) := do
  let (f, ret, err) := r
  if o.returns then modify fun m => { m with returnData := ret }
  if err ≠ none then return .inr ⟨[], f.contract.gas, err⟩
  else if o.reverts then return .inr ⟨ret, f.contract.gas, some .executionReverted⟩
  else if o.halts then return .inr ⟨ret, f.contract.gas, none⟩
  else if o.jumps then return .inl f
  else return .inl { f with pc := f.pc + 1 }

def step (readOnly : Bool) (f : Frame) : EvmM (Frame ⊕ RunResult) := do
  let m ← get
  match prepare ⟨env, m.stateDB, m.returnData⟩ readOnly f with
  | .error e => return .inr ⟨[], f.contract.gas, some e⟩
  | .ok (op, memorySize, charge) =>
    orPanic fun m => m.applyCharge charge
    match f.useGas charge.cost with
    | none => return .inr ⟨[], f.contract.gas, some .outOfGas⟩
    | some f =>
      let memory := { f.memory.resize memorySize with lastGasCost := charge.lastGasCost }
      let r ← executeOp env run depth (operation op).execute { f with memory := memory }
      finishOp (operation op) r

def loop (env : Env) (run : Runner) (depth : Nat) (readOnly : Bool) :
    Nat → Frame → EvmM RunResult
  | 0, _ => throw .fuel
  | fuel + 1, f => do
    match ← step env run depth readOnly f with
    | .inl f' => loop env run depth readOnly fuel f'
    | .inr r => return r

abbrev Interpreter := Nat → Bool → Contract → Bytes → EvmM RunResult

/-- `run`: a precompiled contract, or the interpreter one level deeper.  Read-only mode
stays on in nested frames. -/
def runWith (interpreter : Interpreter) (depth : Nat) (inReadOnly : Bool) : Runner :=
  fun contract input readOnly =>
    match precompiledContracts contract.codeAddr with
    | some p => runPrecompiledContract env p input contract
    | none => interpreter (depth + 1) (inReadOnly || readOnly) contract input

def interpret (env : Env) : Nat → Interpreter
  | 0 => fun _ _ _ _ => throw .fuel
  | fuel + 1 => fun depth readOnly contract input => do
    modify fun m => { m with returnData := [] }
    if contract.code = [] then return ⟨[], contract.gas, none⟩
    else
      loop env (runWith env (interpret env fuel) depth readOnly) depth readOnly fuel
        ⟨0, { contract with input := input }, {}, []⟩

/-! ## Transactions -/

/-- `CalculateIntrinsicGas`; `none` is `ErrOutOfGas`. -/
def calculateIntrinsicGas (p : Params) (data : Bytes) (createContract : Bool) : Option UInt64 :=
  let gas := if createContract then p.txGasContractCreation else p.txGas
  let nz := UInt64.ofNat (data.countP (· ≠ 0))
  let z := UInt64.ofNat data.length - nz
  if (0xffffffffffffffff - gas) / p.txDataNonZeroGas < nz then none
  else
    let gas := gas + nz * p.txDataNonZeroGas
    if (0xffffffffffffffff - gas) / p.txDataZeroGas < z then none
    else some (gas + z * p.txDataZeroGas)

structure BlockInfo where
  height : UInt64
  timestamp : Int
  chainID : Int

structure ExecuteResult where
  evmRet : Bytes
  contractAddr : Address
  gasUsed : UInt64
  evmErr : Option VmError

def gasUsedOf (gasLimit leftOverGas : UInt64) : UInt64 :=
  if gasLimit < leftOverGas then 0 else gasLimit - leftOverGas

def txEnv (p : Params) (lib : Library) (parentBlockInfo : BlockInfo) (tx : SmartContractTx) :
    Env where
  params := p
  lib := lib
  ctx :=
    { origin := tx.sender.address
      gasPrice := tx.gasPrice.getD 0
      gasLimit := tx.gasLimit
      blockNumber := (parentBlockInfo.height + 1).toNat
      time := parentBlockInfo.timestamp
      chainID := parentBlockInfo.chainID }

def execute (p : Params) (lib : Library) (fuel : Nat) (parentBlockInfo : BlockInfo)
    (tx : SmartContractTx) : EvmM ExecuteResult := do
  let env := txEnv p lib parentBlockInfo tx
  let run := runWith env (interpret env fuel) 0 false
  let sender := ContractRef.account tx.sender.address
  let createContract := tx.toAddress == 0
  if p.maxGasLimit (← get).stateDB.getBlockHeight < tx.gasLimit.toNat then
    return ⟨[], 0, 0, some .invalidGasLimit⟩
  else
    match calculateIntrinsicGas p tx.data createContract with
    | none => return ⟨[], 0, 0, some .outOfGas⟩
    | some intrinsicGas =>
      if tx.gasLimit < intrinsicGas then return ⟨[], 0, 0, some .outOfGas⟩
      else
        let remainingGas := tx.gasLimit - intrinsicGas
        let value := tx.sender.coins.tfuel
        if createContract then
          let (addr, r) ← create1 env run 0 sender tx.data remainingGas value
          return ⟨r.ret, addr, gasUsedOf tx.gasLimit r.gas, r.err⟩
        else
          let r ← call env run 0 sender tx.toAddress tx.data remainingGas value
          return ⟨r.ret, tx.toAddress, gasUsedOf tx.gasLimit r.gas, r.err⟩

/-! ## A gas schedule to run the machine with -/

def constantinopleParams : Params where
  gasTable :=
    { extcodeSize := 700
      extcodeCopy := 700
      extcodeHash := 400
      balance := 400
      sLoad := 200
      calls := 700
      suicide := 5000
      expByte := 50
      createBySuicide := 25000 }
  callCreateDepth := 1024
  stackLimit := 1024
  maxCodeSizeForMetachain := 24576
  createDataGas := 200
  callStipend := 2300
  memoryGas := 3
  quadCoeffDiv := 512
  copyGas := 3
  logGas := 375
  logTopicGas := 375
  logDataGas := 8
  sha3Gas := 30
  sha3WordGas := 6
  createGas := 32000
  create2Gas := 32000
  jumpdestGas := 1
  netSstoreNoopGas := 200
  netSstoreInitGas := 20000
  netSstoreCleanGas := 5000
  netSstoreDirtyGas := 200
  netSstoreClearRefund := 15000
  netSstoreResetRefund := 4800
  netSstoreResetClearRefund := 19800
  suicideRefundGas := 24000
  callNewAccountGas := 25000
  callValueTransferGas := 9000
  txGas := 21000
  txGasContractCreation := 53000
  txDataNonZeroGas := 68
  txDataZeroGas := 4
  maxGasLimit := fun _ => 10000000

def plainLibrary : Library where
  keccak := fun b => BitVec.ofNat 256 (Rlp.toNat b)
  createAddress := fun a nonce => a + BitVec.ofNat 160 (nonce.toNat + 1)
  createAddress2 := fun a salt h => a + BitVec.ofNat 160 (salt + h).toNat
  native := fun _ => ⟨fun _ _ => 0, fun _ => .ok []⟩
  validateSignatureValues := fun v r s => v ≤ 1 && 0 < r && 0 < s
  packValidators := fun _ => []

end ThetaSubchain.Vm
