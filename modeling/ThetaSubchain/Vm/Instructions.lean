/-
The instructions that read the machine and change only their own frame
(ledger/vm/instructions.go).

The loop has checked the height of the stack before an instruction runs.
-/
import ThetaSubchain.Vm.Frame

namespace ThetaSubchain.Vm

def ofBool (b : Bool) : Int := if b then 1 else 0

def unary (g : Int → Int) : Stack → Stack
  | x :: s => g x :: s
  | s => s

def binary (g : Int → Int → Int) : Stack → Stack
  | x :: y :: s => g x y :: s
  | s => s

def ternary (g : Int → Int → Int → Int) : Stack → Stack
  | x :: y :: z :: s => g x y z :: s
  | s => s

def opAdd : Stack → Stack := binary fun x y => u256 (x + y)

def opSub : Stack → Stack := binary fun x y => u256 (x - y)

def opMul : Stack → Stack := binary fun x y => u256 (x * y)

def opDiv : Stack → Stack := binary fun x y => if y = 0 then 0 else u256 (x / y)

def opSdiv : Stack → Stack :=
  binary fun a b =>
    let x := s256 a
    let y := s256 b
    if y = 0 ∨ x = 0 then 0
    else if x.sign ≠ y.sign then u256 (-(x.natAbs / y.natAbs : Nat))
    else u256 (x.natAbs / y.natAbs : Nat)

def opMod : Stack → Stack := binary fun x y => if y = 0 then 0 else u256 (x % y)

def opSmod : Stack → Stack :=
  binary fun a b =>
    let x := s256 a
    let y := s256 b
    if y = 0 then 0
    else if x < 0 then u256 (-(x.natAbs % y.natAbs : Nat))
    else u256 (x.natAbs % y.natAbs : Nat)

/-- `math.Exp`: square and multiply over the bits of the exponent. -/
def mathExp (base exponent : Int) : Int :=
  ((List.range (exponent.natAbs.log2 + 1)).foldl
    (fun acc i =>
      (if exponent.natAbs.testBit i then u256 (acc.1 * acc.2) else acc.1, u256 (acc.2 * acc.2)))
    (1, base)).1

def opExp : Stack → Stack := binary mathExp

def opSignExtend : Stack → Stack :=
  binary fun back num =>
    if back < 31 then
      let bit := back.natAbs * 8 + 7
      let mask : Int := 2 ^ bit - 1
      u256 (if num.testBit bit then num.lor (Int.lnot mask) else num.land mask)
    else num

def opNot : Stack → Stack := unary fun x => u256 (Int.lnot x)

def opLt : Stack → Stack := binary fun x y => ofBool (x < y)

def opGt : Stack → Stack := binary fun x y => ofBool (y < x)

def opSlt : Stack → Stack :=
  binary fun x y =>
    if 2 ^ 255 ≤ x ∧ y < 2 ^ 255 then 1
    else if x < 2 ^ 255 ∧ 2 ^ 255 ≤ y then 0
    else ofBool (x < y)

def opSgt : Stack → Stack :=
  binary fun x y =>
    if 2 ^ 255 ≤ x ∧ y < 2 ^ 255 then 0
    else if x < 2 ^ 255 ∧ 2 ^ 255 ≤ y then 1
    else ofBool (y < x)

def opEq : Stack → Stack := binary fun x y => ofBool (x = y)

def opIszero : Stack → Stack := unary fun x => ofBool (x ≤ 0)

def opAnd : Stack → Stack := binary Int.land

def opOr : Stack → Stack := binary Int.lor

def opXor : Stack → Stack := binary Int.xor

def opByte : Stack → Stack :=
  binary fun th val =>
    if th < 32 then ((val.natAbs >>> (8 * (31 - th.natAbs))) % 256 : Nat) else 0

def opAddmod : Stack → Stack := ternary fun x y z => if 0 < z then u256 ((x + y) % z) else 0

def opMulmod : Stack → Stack := ternary fun x y z => if 0 < z then u256 (x * y % z) else 0

def opSHL : Stack → Stack :=
  binary fun shift value =>
    if 256 ≤ u256 shift then 0 else u256 (u256 value * 2 ^ (u256 shift).natAbs)

def opSHR : Stack → Stack :=
  binary fun shift value =>
    if 256 ≤ u256 shift then 0 else u256 (u256 value >>> (u256 shift).natAbs)

def opSAR : Stack → Stack :=
  binary fun shift a =>
    let value := s256 a
    if 256 ≤ u256 shift then u256 (if 0 ≤ value then 0 else -1)
    else u256 (value >>> (u256 shift).natAbs)

def opPop (s : Stack) : Stack := s.drop 1

def makeDup (n : Nat) (s : Stack) : Stack := s.back (n - 1) :: s

def makeSwap (n : Nat) (s : Stack) : Stack := (s.set 0 (s.back n)).set n (s.back 0)

structure Reads where
  env : Env
  stateDB : StoreView
  returnData : Bytes

abbrev LocalOp := Reads → Frame → Except VmError (Frame × Bytes)

def onStack (g : Stack → Stack) : LocalOp :=
  fun _ f => .ok ({ f with stack := g f.stack }, [])

def pushing (g : Reads → Frame → Int) : LocalOp := fun r f => .ok (f.push (g r f), [])

def replacing (g : Reads → Frame → Int → Int) : LocalOp :=
  fun r f => .ok ({ f with stack := unary (g r f) f.stack }, [])

def notSupported (op : String) : LocalOp := fun _ _ => .error (.notSupported op)

def opSha3 : LocalOp := fun r f =>
  match f.stack with
  | offset :: size :: s =>
    .ok ({ f with stack := (r.env.lib.keccak (f.memory.get offset size)).toNat :: s }, [])
  | _ => .ok (f, [])

def opAddress : LocalOp := pushing fun _ f => f.contract.self.toNat

def opBalance : LocalOp := replacing fun r _ x => r.stateDB.getBalance (bigToAddress x)

def opOrigin : LocalOp := pushing fun r _ => r.env.ctx.origin.toNat

def opCaller : LocalOp := pushing fun _ f => f.contract.callerAddress.toNat

def opCallValue : LocalOp := pushing fun _ f => f.contract.value

def opCallDataLoad : LocalOp :=
  replacing fun _ f x => ofBytes (getData f.contract.input x.natAbs 32)

def opCallDataSize : LocalOp := pushing fun _ f => f.contract.input.length

/-- Copies data of the given source to memory: offset in memory, offset in the data and
length are the three words below the first `n`. -/
def copying (n : Nat) (data : Reads → Frame → Bytes) : LocalOp := fun r f =>
  let memOffset := f.stack.back n
  let dataOffset := f.stack.back (n + 1)
  let length := f.stack.back (n + 2)
  let bytes := getData (data r f) dataOffset.natAbs length.natAbs
  .ok ({ f.drop (n + 3) with memory := f.memory.set memOffset.natAbs length.natAbs bytes }, [])

def opCallDataCopy : LocalOp := copying 0 fun _ f => f.contract.input

def opCodeCopy : LocalOp := copying 0 fun _ f => f.contract.code

def opExtCodeCopy : LocalOp :=
  copying 1 fun r f => r.stateDB.getCode (bigToAddress (f.stack.back 0))

def opReturnDataSize : LocalOp := pushing fun r _ => r.returnData.length

def opReturnDataCopy : LocalOp := fun r f =>
  let stop := f.stack.back 1 + f.stack.back 2
  if exceedsUint64 stop ∨ r.returnData.length < stop.natAbs then .error .returnDataOutOfBounds
  else copying 0 (fun r _ => r.returnData) r f

def opExtCodeSize : LocalOp := replacing fun r _ x => r.stateDB.getCodeSize (bigToAddress x)

def opCodeSize : LocalOp := pushing fun _ f => f.contract.code.length

def opExtCodeHash : LocalOp :=
  replacing fun r _ x => (r.stateDB.getCodeHash (bigToAddress x)).toNat

def opGasprice : LocalOp := pushing fun r _ => r.env.ctx.gasPrice

def opBlockhash : LocalOp := notSupported "opBlockhash"

def opCoinbase : LocalOp := notSupported "opCoinbase"

def opDifficulty : LocalOp := notSupported "opDifficulty"

def opTimestamp : LocalOp := pushing fun r _ => u256 r.env.ctx.time

def opNumber : LocalOp := pushing fun r _ => u256 r.env.ctx.blockNumber

def opGasLimit : LocalOp := pushing fun r _ => r.env.ctx.gasLimit.toNat

def opChainID : LocalOp := pushing fun r _ => r.env.ctx.chainID

def opSelfBalance : LocalOp := pushing fun r f => r.stateDB.getBalance f.contract.self

def opMload : LocalOp := replacing fun _ f x => ofBytes (f.memory.get x 32)

def opMstore : LocalOp := fun _ f =>
  match f.stack with
  | mStart :: val :: s =>
    .ok ({ f with stack := s, memory := f.memory.set32 mStart.natAbs val }, [])
  | _ => .ok (f, [])

def opMstore8 : LocalOp := fun _ f =>
  match f.stack with
  | off :: val :: s =>
    let byte := UInt8.ofNat (val % 256).toNat
    .ok ({ f with stack := s, memory := f.memory.set off.natAbs 1 [byte] }, [])
  | _ => .ok (f, [])

def opSload : LocalOp :=
  replacing fun r f x => (r.stateDB.getState f.contract.self (bigToHash x)).toNat

def opJump : LocalOp := fun _ f =>
  let pos := f.stack.back 0
  if f.contract.validJumpdest pos then .ok ({ f.drop 1 with pc := uint64 pos }, [])
  else .error (.invalidJump pos)

def opJumpi : LocalOp := fun _ f =>
  let pos := f.stack.back 0
  if f.stack.back 1 = 0 then .ok ({ f.drop 2 with pc := f.pc + 1 }, [])
  else if f.contract.validJumpdest pos then .ok ({ f.drop 2 with pc := uint64 pos }, [])
  else .error (.invalidJump pos)

def opPc : LocalOp := pushing fun _ f => f.pc.toNat

def opMsize : LocalOp := pushing fun _ f => f.memory.store.length

def opGas : LocalOp := pushing fun _ f => f.contract.gas.toNat

def opNothing : LocalOp := onStack id

def opReturn : LocalOp := fun _ f =>
  .ok (f.drop 2, f.memory.get (f.stack.back 0) (f.stack.back 1))

def makePush (n : Nat) : LocalOp := fun _ f =>
  let bytes := rightPadBytes ((f.contract.code.drop (f.pc + 1).toNat).take n) n
  .ok ({ f.push (ofBytes bytes) with pc := f.pc + UInt64.ofNat n }, [])

end ThetaSubchain.Vm
