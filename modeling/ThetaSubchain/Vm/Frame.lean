/-
What one frame of the virtual machine works on: words, memory, the contract being run
and the constants of the machine (ledger/vm/{common,contract,memory,stack,analysis}.go).

A stack word is a `big.Int` of the source and most instructions reduce it to 256 bits
themselves, so it is an `Int` here.
-/
import ThetaSubchain.Ledger.StoreView
import Mathlib.Data.Int.Bitwise

namespace ThetaSubchain.Vm

/-! ## Words -/

def u256 (x : Int) : Int := x % 2 ^ 256

def s256 (x : Int) : Int := if x < 2 ^ 255 then x else x - 2 ^ 256

/-- `big.Int.Uint64`: the low 64 bits of the absolute value. -/
def uint64 (x : Int) : UInt64 := UInt64.ofNat x.natAbs

def exceedsUint64 (x : Int) : Bool := decide (2 ^ 64 ≤ x.natAbs)

def ofBytes (b : Bytes) : Int := Rlp.toNat b

def bigToHash (x : Int) : Hash := BitVec.ofNat 256 x.natAbs

def bigToAddress (x : Int) : Address := BitVec.ofNat 160 x.natAbs

def rightPadBytes (b : Bytes) (l : Nat) : Bytes := b ++ List.replicate (l - b.length) 0

def leftPadBytes (b : Bytes) (l : Nat) : Bytes := List.replicate (l - b.length) 0 ++ b

/-- `getData` and `getDataBig`: a slice cut at the end of the data and padded with
zeros. -/
def getData (data : Bytes) (start size : Nat) : Bytes :=
  rightPadBytes ((data.drop start).take size) size

def calcMemSize (off l : Int) : Int := if l = 0 then 0 else off + l

def toWordSize (size : UInt64) : UInt64 :=
  if 0xffffffffffffffff - 31 < size then 0xffffffffffffffff / 32 + 1 else (size + 31) / 32

def safeAdd (x y : UInt64) : Option UInt64 :=
  if 0xffffffffffffffff - x < y then none else some (x + y)

def safeMul (x y : UInt64) : Option UInt64 :=
  if x = 0 ∨ y = 0 then some 0
  else if 0xffffffffffffffff / x < y then none
  else some (x * y)

/-! ## Errors of an execution -/

inductive VmError where
  | outOfGas
  | codeStoreOutOfGas
  | depth
  | insufficientBalance
  | contractAddressCollision
  | invalidGasLimit
  | gasUintOverflow
  | writeProtection
  | returnDataOutOfBounds
  | executionReverted
  | maxCodeSizeExceeded
  | invalidOpcode (op : UInt8)
  | stackUnderflow (len required : Nat)
  | stackLimitReached (len : Nat)
  | invalidJump (pos : Int)
  | notSupported (op : String)
  | noPreviledgedAccess
  | native (message : String)
deriving DecidableEq, Repr

/-! ## Constants and library functions

The gas schedule is the theta library's, Keccak, the two address derivations, the native
contracts 1 to 8 and the ABI encoding are those of the libraries the source imports. -/

structure GasTable where
  extcodeSize : UInt64
  extcodeCopy : UInt64
  extcodeHash : UInt64
  balance : UInt64
  sLoad : UInt64
  calls : UInt64
  suicide : UInt64
  expByte : UInt64
  createBySuicide : UInt64

structure Params where
  gasTable : GasTable
  callCreateDepth : Nat
  stackLimit : Nat
  maxCodeSizeForMetachain : Nat
  createDataGas : UInt64
  callStipend : UInt64
  memoryGas : UInt64
  quadCoeffDiv : UInt64
  copyGas : UInt64
  logGas : UInt64
  logTopicGas : UInt64
  logDataGas : UInt64
  sha3Gas : UInt64
  sha3WordGas : UInt64
  createGas : UInt64
  create2Gas : UInt64
  jumpdestGas : UInt64
  netSstoreNoopGas : UInt64
  netSstoreInitGas : UInt64
  netSstoreCleanGas : UInt64
  netSstoreDirtyGas : UInt64
  netSstoreClearRefund : UInt64
  netSstoreResetRefund : UInt64
  netSstoreResetClearRefund : UInt64
  suicideRefundGas : UInt64
  callNewAccountGas : UInt64
  callValueTransferGas : UInt64
  txGas : UInt64
  txGasContractCreation : UInt64
  txDataNonZeroGas : UInt64
  txDataZeroGas : UInt64
  maxGasLimit : UInt64 → Int

structure NativeContract where
  requiredGas : Bytes → UInt64 → UInt64
  run : Bytes → Except String Bytes

structure Library where
  keccak : Bytes → Hash
  createAddress : Address → UInt64 → Address
  createAddress2 : Address → Hash → Hash → Address
  native : Nat → NativeContract
  validateSignatureValues : UInt8 → Int → Int → Bool
  packValidators : List Validator → Bytes

structure Context where
  origin : Address
  gasPrice : Int
  gasLimit : UInt64
  blockNumber : Int
  time : Int
  chainID : Int

structure Env where
  params : Params
  lib : Library
  ctx : Context

/-! ## Contracts -/

/-- `ContractRef`: an account outside the machine, or the contract of the executing frame
with what a child frame reads from it. -/
inductive ContractRef where
  | account (address : Address)
  | contract (address callerAddress : Address) (value : Int)
deriving DecidableEq, Repr

def ContractRef.address : ContractRef → Address
  | .account a => a
  | .contract a _ _ => a

inductive CallKind where
  | call
  | callCode
  | delegateCall
  | staticCall
  | create
deriving DecidableEq, Repr

/-- `Contract`.  The field `kind` says which function built the contract; no function of
the machine reads it. -/
structure Contract where
  kind : CallKind
  callerAddress : Address
  caller : ContractRef
  self : Address
  code : Bytes
  codeAddr : Address
  input : Bytes := []
  gas : UInt64
  value : Int

namespace Contract

/-- `NewContract` with the code set by `SetCallCode` or `SetCodeOptionalHash`. -/
def new (kind : CallKind) (caller : ContractRef) (object : Address) (value : Int) (gas : UInt64)
    (codeAddr : Address) (code : Bytes) : Contract where
  kind := kind
  callerAddress := caller.address
  caller := caller
  self := object
  code := code
  codeAddr := codeAddr
  gas := gas
  value := value

variable (c : Contract)

/-- `AsDelegate` takes caller and value over from the executing frame.  It panics when the
caller is not a frame. -/
def asDelegate : Option Contract :=
  match c.caller with
  | .contract _ callerAddress value => some { c with callerAddress := callerAddress, value := value }
  | .account _ => none

def ref : ContractRef := .contract c.self c.callerAddress c.value

def getOp (n : UInt64) : UInt8 := c.code.getD n.toNat 0

def useGas (gas : UInt64) : Option Contract :=
  if c.gas < gas then none else some { c with gas := c.gas - gas }

/-- `codeBitmap`: which bytes are the data of a push; `skip` is how many data bytes are
still to come. -/
def codeBitmap : Nat → Bytes → List Bool
  | _, [] => []
  | 0, op :: rest =>
    false :: codeBitmap (if 0x60 ≤ op ∧ op ≤ 0x7f then (op - 0x5f).toNat else 0) rest
  | skip + 1, _ :: rest => true :: codeBitmap skip rest

/-- `validJumpdest`.  The analysis is cached by code hash in the source. -/
def validJumpdest (dest : Int) : Bool :=
  let udest := dest.natAbs
  decide (udest < 2 ^ 62) && decide (udest < c.code.length) && c.code.getD udest 0 == 0x5b &&
    !((codeBitmap 0 c.code).getD udest true)

end Contract

/-! ## Memory and stack -/

structure Memory where
  store : Bytes := []
  lastGasCost : UInt64 := 0

namespace Memory

/-- `Set`.  The loop has resized the store before an instruction runs, so the slice is in
range. -/
def set (m : Memory) (offset size : Nat) (value : Bytes) : Memory :=
  if size = 0 then m
  else
    let v := value.take size
    { m with store := m.store.take offset ++ v ++ m.store.drop (offset + v.length) }

def set32 (m : Memory) (offset : Nat) (val : Int) : Memory :=
  m.set offset 32 (Rlp.fixedBytes 32 (val.natAbs % 2 ^ 256))

def resize (m : Memory) (size : UInt64) : Memory :=
  { m with store := m.store ++ List.replicate (size.toNat - m.store.length) 0 }

def get (m : Memory) (offset size : Int) : Bytes :=
  if size = 0 then [] else (m.store.drop offset.natAbs).take size.natAbs

end Memory

abbrev Stack := List Int

def Stack.back (s : Stack) (n : Nat) : Int := s.getD n 0

structure Frame where
  pc : UInt64
  contract : Contract
  memory : Memory
  stack : Stack

namespace Frame

def push (f : Frame) (x : Int) : Frame := { f with stack := x :: f.stack }

def drop (f : Frame) (n : Nat) : Frame := { f with stack := f.stack.drop n }

def useGas (f : Frame) (gas : UInt64) : Option Frame :=
  (f.contract.useGas gas).map fun c => { f with contract := c }

end Frame

end ThetaSubchain.Vm
