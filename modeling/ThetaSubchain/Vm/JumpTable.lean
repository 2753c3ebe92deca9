/-
The instruction table (ledger/vm/{opcodes,jump_table,stack_table}.go).  The interpreter
runs the Constantinople set.
-/
import ThetaSubchain.Vm.Gas

namespace ThetaSubchain.Vm

inductive OpCode where
  | stop | add | mul | sub | div | sdiv | mod | smod | addmod | mulmod | exp | signextend
  | lt | gt | slt | sgt | eq | iszero | and | or | xor | not | byte | shl | shr | sar
  | sha3
  | address | balance | origin | caller | callvalue | calldataload | calldatasize
  | calldatacopy | codesize | codecopy | gasprice | extcodesize | extcodecopy
  | returndatasize | returndatacopy | extcodehash
  | blockhash | coinbase | timestamp | number | difficulty | gaslimit | chainid | selfbalance
  | pop | mload | mstore | mstore8 | sload | sstore | jump | jumpi | pc | msize | gas | jumpdest
  | push (n : Nat) | dup (n : Nat) | swap (n : Nat) | log (n : Nat)
  | create | call | callcode | return | delegatecall | create2 | staticcall | revert
  | selfdestruct
deriving DecidableEq, Repr

def OpCode.ofByte (b : UInt8) : Option OpCode :=
  match b.toNat with
  | 0x00 => some stop | 0x01 => some add | 0x02 => some mul | 0x03 => some sub
  | 0x04 => some div | 0x05 => some sdiv | 0x06 => some mod | 0x07 => some smod
  | 0x08 => some addmod | 0x09 => some mulmod | 0x0a => some exp | 0x0b => some signextend
  | 0x10 => some lt | 0x11 => some gt | 0x12 => some slt | 0x13 => some sgt
  | 0x14 => some eq | 0x15 => some iszero | 0x16 => some and | 0x17 => some or
  | 0x18 => some xor | 0x19 => some not | 0x1a => some byte | 0x1b => some shl
  | 0x1c => some shr | 0x1d => some sar | 0x20 => some sha3
  | 0x30 => some address | 0x31 => some balance | 0x32 => some origin | 0x33 => some caller
  | 0x34 => some callvalue | 0x35 => some calldataload | 0x36 => some calldatasize
  | 0x37 => some calldatacopy | 0x38 => some codesize | 0x39 => some codecopy
  | 0x3a => some gasprice | 0x3b => some extcodesize | 0x3c => some extcodecopy
  | 0x3d => some returndatasize | 0x3e => some returndatacopy | 0x3f => some extcodehash
  | 0x40 => some blockhash | 0x41 => some coinbase | 0x42 => some timestamp
  | 0x43 => some number | 0x44 => some difficulty | 0x45 => some gaslimit
  | 0x46 => some chainid | 0x47 => some selfbalance
  | 0x50 => some pop | 0x51 => some mload | 0x52 => some mstore | 0x53 => some mstore8
  | 0x54 => some sload | 0x55 => some sstore | 0x56 => some jump | 0x57 => some jumpi
  | 0x58 => some pc | 0x59 => some msize | 0x5a => some gas | 0x5b => some jumpdest
  | 0xf0 => some create | 0xf1 => some call | 0xf2 => some callcode | 0xf3 => some .return
  | 0xf4 => some delegatecall | 0xf5 => some create2 | 0xfa => some staticcall
  | 0xfd => some revert | 0xff => some selfdestruct
  | n =>
    if 0x60 ≤ n ∧ n ≤ 0x7f then some (push (n - 0x5f))
    else if 0x80 ≤ n ∧ n ≤ 0x8f then some (dup (n - 0x7f))
    else if 0x90 ≤ n ∧ n ≤ 0x9f then some (swap (n - 0x8f))
    else if 0xa0 ≤ n ∧ n ≤ 0xa4 then some (log (n - 0xa0))
    else none

/-- What an instruction does.  All but the last eight change their own frame only. -/
inductive Execute where
  | pure (op : LocalOp)
  | sstore
  | log (n : Nat)
  | suicide
  | create
  | create2
  | call
  | callCode
  | delegateCall
  | staticCall

/-- `operation`; `pops` and `pushes` are the arguments of `makeStackFunc`. -/
structure Operation where
  execute : Execute
  gasCost : GasFunc
  pops : Nat
  pushes : Nat
  memorySize : Option (Stack → Int) := none
  halts : Bool := false
  jumps : Bool := false
  writes : Bool := false
  reverts : Bool := false
  returns : Bool := false

def wordOp (g : Stack → Stack) (gas : UInt64) (pops : Nat) : Operation where
  execute := .pure (onStack g)
  gasCost := constGasFunc gas
  pops := pops
  pushes := 1

def plainOp (op : LocalOp) (gas : UInt64) (pops pushes : Nat) : Operation where
  execute := .pure op
  gasCost := constGasFunc gas
  pops := pops
  pushes := pushes

def tableOp (op : LocalOp) (gas : GasTable → UInt64) : Operation where
  execute := .pure op
  gasCost := tableGas gas
  pops := 1
  pushes := 1

def memoryOp (op : LocalOp) (gas : GasFunc) (pops pushes : Nat) (size : Stack → Int) :
    Operation where
  execute := .pure op
  gasCost := gas
  pops := pops
  pushes := pushes
  memorySize := some size

def callOp (e : Execute) (gas : GasFunc) (pops : Nat) (size : Stack → Int) (writes : Bool) :
    Operation where
  execute := e
  gasCost := gas
  pops := pops
  pushes := 1
  memorySize := some size
  writes := writes
  returns := true

def operation : OpCode → Operation
  | .stop => { plainOp opNothing 0 0 0 with halts := true }
  | .add => wordOp opAdd gasFastestStep 2
  | .mul => wordOp opMul gasFastStep 2
  | .sub => wordOp opSub gasFastestStep 2
  | .div => wordOp opDiv gasFastStep 2
  | .sdiv => wordOp opSdiv gasFastStep 2
  | .mod => wordOp opMod gasFastStep 2
  | .smod => wordOp opSmod gasFastStep 2
  | .addmod => wordOp opAddmod gasMidStep 3
  | .mulmod => wordOp opMulmod gasMidStep 3
  | .exp => { wordOp opExp 0 2 with gasCost := gasExp }
  | .signextend => wordOp opSignExtend gasFastStep 2
  | .lt => wordOp opLt gasFastestStep 2
  | .gt => wordOp opGt gasFastestStep 2
  | .slt => wordOp opSlt gasFastestStep 2
  | .sgt => wordOp opSgt gasFastestStep 2
  | .eq => wordOp opEq gasFastestStep 2
  | .iszero => wordOp opIszero gasFastestStep 1
  | .and => wordOp opAnd gasFastestStep 2
  | .or => wordOp opOr gasFastestStep 2
  | .xor => wordOp opXor gasFastestStep 2
  | .not => wordOp opNot gasFastestStep 1
  | .byte => wordOp opByte gasFastestStep 2
  | .shl => wordOp opSHL gasFastestStep 2
  | .shr => wordOp opSHR gasFastestStep 2
  | .sar => wordOp opSAR gasFastestStep 2
  | .sha3 => memoryOp opSha3 (gasWords Params.sha3Gas Params.sha3WordGas 1) 2 1 (memoryAt 0 1)
  | .address => plainOp opAddress gasQuickStep 0 1
  | .balance => tableOp opBalance GasTable.balance
  | .origin => plainOp opOrigin gasQuickStep 0 1
  | .caller => plainOp opCaller gasQuickStep 0 1
  | .callvalue => plainOp opCallValue gasQuickStep 0 1
  | .calldataload => plainOp opCallDataLoad gasFastestStep 1 1
  | .calldatasize => plainOp opCallDataSize gasQuickStep 0 1
  | .calldatacopy =>
    memoryOp opCallDataCopy (gasWords (fun _ => gasFastestStep) Params.copyGas 2) 3 0
      (memoryAt 0 2)
  | .codesize => plainOp opCodeSize gasQuickStep 0 1
  | .codecopy =>
    memoryOp opCodeCopy (gasWords (fun _ => gasFastestStep) Params.copyGas 2) 3 0 (memoryAt 0 2)
  | .gasprice => plainOp opGasprice gasQuickStep 0 1
  | .extcodesize => tableOp opExtCodeSize GasTable.extcodeSize
  | .extcodecopy =>
    memoryOp opExtCodeCopy (gasWords (fun p => p.gasTable.extcodeCopy) Params.copyGas 3) 4 0
      (memoryAt 1 3)
  | .returndatasize => plainOp opReturnDataSize gasQuickStep 0 1
  | .returndatacopy =>
    memoryOp opReturnDataCopy (gasWords (fun _ => gasFastestStep) Params.copyGas 2) 3 0
      (memoryAt 0 2)
  | .extcodehash => tableOp opExtCodeHash GasTable.extcodeHash
  | .blockhash => plainOp opBlockhash gasExtStep 1 1
  | .coinbase => plainOp opCoinbase gasQuickStep 0 1
  | .timestamp => plainOp opTimestamp gasQuickStep 0 1
  | .number => plainOp opNumber gasQuickStep 0 1
  | .difficulty => plainOp opDifficulty gasQuickStep 0 1
  | .gaslimit => plainOp opGasLimit gasQuickStep 0 1
  | .chainid => plainOp opChainID gasQuickStep 0 1
  | .selfbalance => plainOp opSelfBalance gasFastStep 0 1
  | .pop => plainOp (onStack opPop) gasQuickStep 1 0
  | .mload => memoryOp opMload (gasMemory fun _ => gasFastestStep) 1 1 (memoryWord 32)
  | .mstore => memoryOp opMstore (gasMemory fun _ => gasFastestStep) 2 0 (memoryWord 32)
  | .mstore8 => memoryOp opMstore8 (gasMemory fun _ => gasFastestStep) 2 0 (memoryWord 1)
  | .sload => tableOp opSload GasTable.sLoad
  | .sstore =>
    { execute := .sstore, gasCost := gasSStore, pops := 2, pushes := 0, writes := true }
  | .jump => { plainOp opJump gasMidStep 1 0 with jumps := true }
  | .jumpi => { plainOp opJumpi gasSlowStep 2 0 with jumps := true }
  | .pc => plainOp opPc gasQuickStep 0 1
  | .msize => plainOp opMsize gasQuickStep 0 1
  | .gas => plainOp opGas gasQuickStep 0 1
  | .jumpdest =>
    { plainOp opNothing 0 0 0 with
      gasCost := fun r f _ => .ok ⟨r.env.params.jumpdestGas, f.memory.lastGasCost, [], none⟩ }
  | .push n => plainOp (makePush n) gasFastestStep 0 1
  | .dup n => plainOp (onStack (makeDup n)) gasFastestStep n (n + 1)
  | .swap n => plainOp (onStack (makeSwap n)) gasFastestStep (n + 1) (n + 1)
  | .log n =>
    { execute := .log n
      gasCost := makeGasLog (UInt64.ofNat n)
      pops := n + 2
      pushes := 0
      memorySize := some (memoryAt 0 1)
      writes := true }
  | .create => callOp .create (gasMemory Params.createGas) 3 (memoryAt 1 2) true
  | .call => callOp .call gasCall 7 (memoryTwo 5 6 3 4) false
  | .callcode => callOp .callCode gasCallCode 7 (memoryTwo 5 6 3 4) false
  | .return => { memoryOp opReturn gasReturn 2 0 (memoryAt 0 1) with halts := true }
  | .delegatecall => callOp .delegateCall gasDelegateCall 6 (memoryTwo 4 5 2 3) false
  | .create2 =>
    callOp .create2 (gasWords Params.create2Gas Params.sha3WordGas 2) 4 (memoryAt 1 2) true
  | .staticcall => callOp .staticCall gasDelegateCall 6 (memoryTwo 4 5 2 3) false
  | .revert =>
    { memoryOp opReturn gasReturn 2 0 (memoryAt 0 1) with reverts := true, returns := true }
  | .selfdestruct =>
    { execute := .suicide
      gasCost := gasSuicide
      pops := 1
      pushes := 0
      halts := true
      writes := true }

def Operation.validateStack (o : Operation) (p : Params) (s : Stack) : Option VmError :=
  if s.length < o.pops then some (.stackUnderflow s.length o.pops)
  else if p.stackLimit < s.length + o.pushes - o.pops then some (.stackLimitReached s.length)
  else none

/-- `enforceRestrictions`: a read-only frame may not write, and the third word of a call is
its value. -/
def enforceRestrictions (readOnly : Bool) (op : OpCode) (s : Stack) : Option VmError :=
  if readOnly ∧ ((operation op).writes ∨ op = .call ∧ s.back 2 ≠ 0) then some .writeProtection
  else none

end ThetaSubchain.Vm
