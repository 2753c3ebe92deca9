/-
Memory sizes and gas costs of the instructions (ledger/vm/{gas,gas_table,memory_table}.go).

A gas function of the source also moves the refund counter, remembers the fee of the
memory and sets the gas a call passes on.  It returns all of this as a `GasCharge`.
-/
import ThetaSubchain.Vm.Instructions

namespace ThetaSubchain.Vm

def gasQuickStep : UInt64 := 2
def gasFastestStep : UInt64 := 3
def gasFastStep : UInt64 := 5
def gasMidStep : UInt64 := 8
def gasSlowStep : UInt64 := 10
def gasExtStep : UInt64 := 20

def memoryAt (off l : Nat) (s : Stack) : Int := calcMemSize (s.back off) (s.back l)

def memoryWord (l : Int) (s : Stack) : Int := calcMemSize (s.back 0) l

def memoryTwo (off l off' l' : Nat) (s : Stack) : Int := max (memoryAt off l s) (memoryAt off' l' s)

inductive RefundChange where
  | add (gas : UInt64)
  | sub (gas : UInt64)

structure GasCharge where
  cost : UInt64
  lastGasCost : UInt64
  refunds : List RefundChange := []
  callGas : Option UInt64 := none

abbrev GasFunc := Reads → Frame → UInt64 → Except VmError GasCharge

def orOverflow : Option UInt64 → Except VmError UInt64
  | some x => .ok x
  | none => .error .gasUintOverflow

def bigUint64 (x : Int) : Except VmError UInt64 :=
  if exceedsUint64 x then .error .gasUintOverflow else .ok (uint64 x)

def memoryGasCost (p : Params) (mem : Memory) (newMemSize : UInt64) :
    Except VmError (UInt64 × UInt64) :=
  if newMemSize = 0 then .ok (0, mem.lastGasCost)
  else if 0xffffffffe0 < newMemSize then .error .gasUintOverflow
  else
    let words := toWordSize newMemSize
    if UInt64.ofNat mem.store.length < words * 32 then
      let newTotalFee := words * p.memoryGas + words * words / p.quadCoeffDiv
      .ok (newTotalFee - mem.lastGasCost, newTotalFee)
    else .ok (0, mem.lastGasCost)

def constGasFunc (gas : UInt64) : GasFunc := fun _ f _ => .ok ⟨gas, f.memory.lastGasCost, [], none⟩

def tableGas (g : GasTable → UInt64) : GasFunc :=
  fun r f _ => .ok ⟨g r.env.params.gasTable, f.memory.lastGasCost, [], none⟩

def gasMemory (base : Params → UInt64) : GasFunc := fun r f memorySize => do
  let (fee, total) ← memoryGasCost r.env.params f.memory memorySize
  return { cost := ← orOverflow (safeAdd fee (base r.env.params)), lastGasCost := total }

def gasReturn : GasFunc := fun r f memorySize => do
  let (fee, total) ← memoryGasCost r.env.params f.memory memorySize
  return { cost := fee, lastGasCost := total }

/-- `gasCallDataCopy`, `gasReturnDataCopy`, `gasCodeCopy`, `gasExtCodeCopy`, `gasSha3` and
`gasCreate2`: the memory, a constant and a price for each word of a length. -/
def gasWords (base perWord : Params → UInt64) (l : Nat) : GasFunc := fun r f memorySize => do
  let p := r.env.params
  let (fee, total) ← memoryGasCost p f.memory memorySize
  let gas ← orOverflow (safeAdd fee (base p))
  let size ← bigUint64 (f.stack.back l)
  let words ← orOverflow (safeMul (toWordSize size) (perWord p))
  return { cost := ← orOverflow (safeAdd gas words), lastGasCost := total }

def makeGasLog (n : UInt64) : GasFunc := fun r f memorySize => do
  let p := r.env.params
  let requestedSize ← bigUint64 (f.stack.back 1)
  let (fee, total) ← memoryGasCost p f.memory memorySize
  let gas ← orOverflow (safeAdd fee p.logGas)
  let gas ← orOverflow (safeAdd gas (n * p.logTopicGas))
  let data ← orOverflow (safeMul requestedSize p.logDataGas)
  return { cost := ← orOverflow (safeAdd gas data), lastGasCost := total }

def gasExp : GasFunc := fun r f _ => do
  let exponent := (f.stack.back 1).natAbs
  let expByteLen : UInt64 := UInt64.ofNat (if exponent = 0 then 0 else exponent.log2 / 8 + 1)
  let gas := expByteLen * r.env.params.gasTable.expByte
  return { cost := ← orOverflow (safeAdd gas gasSlowStep), lastGasCost := f.memory.lastGasCost }

def gasSStore : GasFunc := fun r f _ =>
  let p := r.env.params
  let key := bigToHash (f.stack.back 0)
  let value := bigToHash (f.stack.back 1)
  let current := r.stateDB.getState f.contract.self key
  let original := r.stateDB.getCommittedState f.contract.self key
  let charge (cost : UInt64) (refunds : List RefundChange) : Except VmError GasCharge :=
    .ok { cost := cost, lastGasCost := f.memory.lastGasCost, refunds := refunds }
  if current = value then charge p.netSstoreNoopGas []
  else if original = current then
    if original = 0 then charge p.netSstoreInitGas []
    else charge p.netSstoreCleanGas (if value = 0 then [.add p.netSstoreClearRefund] else [])
  else
    let cleared :=
      if original = 0 then []
      else if current = 0 then [RefundChange.sub p.netSstoreClearRefund]
      else if value = 0 then [.add p.netSstoreClearRefund]
      else []
    let restored :=
      if original = value then
        if original = 0 then [RefundChange.add p.netSstoreResetClearRefund]
        else [.add p.netSstoreResetRefund]
      else []
    charge p.netSstoreDirtyGas (cleared ++ restored)

def callGas (gt : GasTable) (availableGas base : UInt64) (callCost : Int) : Except VmError UInt64 :=
  let left := availableGas - base
  let gas := left - left / 64
  if 0 < gt.createBySuicide ∧ (exceedsUint64 callCost ∨ gas < uint64 callCost) then .ok gas
  else if exceedsUint64 callCost then .error .gasUintOverflow
  else .ok (uint64 callCost)

/-- The common part of the gas of a call: `extra` is what the value transfer costs. -/
def gasCalling (extra : Reads → Frame → UInt64) : GasFunc := fun r f memorySize => do
  let p := r.env.params
  let (fee, total) ← memoryGasCost p f.memory memorySize
  let gas ← orOverflow (safeAdd (p.gasTable.calls + extra r f) fee)
  let passed ← callGas p.gasTable f.contract.gas gas (f.stack.back 0)
  return { cost := ← orOverflow (safeAdd gas passed), lastGasCost := total, callGas := some passed }

def gasCall : GasFunc :=
  gasCalling fun r f =>
    let p := r.env.params
    let transfersValue := f.stack.back 2 ≠ 0
    (if transfersValue ∧ r.stateDB.empty (bigToAddress (f.stack.back 1)) then p.callNewAccountGas
      else 0) + (if transfersValue then p.callValueTransferGas else 0)

def gasCallCode : GasFunc :=
  gasCalling fun r f => if f.stack.back 2 ≠ 0 then r.env.params.callValueTransferGas else 0

def gasDelegateCall : GasFunc := gasCalling fun _ _ => 0

def gasSuicide : GasFunc := fun r f _ =>
  let gt := r.env.params.gasTable
  let self := f.contract.self
  let creates := r.stateDB.empty (bigToAddress (f.stack.back 0)) ∧ r.stateDB.getBalance self ≠ 0
  .ok
    { cost := gt.suicide + if creates then gt.createBySuicide else 0
      lastGasCost := f.memory.lastGasCost
      refunds := if r.stateDB.hasSuicided self then [] else [.add r.env.params.suicideRefundGas] }

end ThetaSubchain.Vm
