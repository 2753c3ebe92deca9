/-
What an instruction costs and what it leaves on the stack.

Every instruction after which the loop goes on takes gas from the frame: what a call passes on is
part of its price, and the stipend is less than what the value costs.  The refund counter is never
lowered, since the committed state of a slot is its current state here.
-/
import ThetaSubchain.Vm.Runs

namespace ThetaSubchain.Vm

open Ending List Params

structure Params.Charges (p : Params) : Prop where
  extcodeSize : 0 < p.gasTable.extcodeSize
  extcodeCopy : 0 < p.gasTable.extcodeCopy
  extcodeHash : 0 < p.gasTable.extcodeHash
  balance : 0 < p.gasTable.balance
  sLoad : 0 < p.gasTable.sLoad
  calls : 0 < p.gasTable.calls
  jumpdest : 0 < p.jumpdestGas
  sstoreNoop : 0 < p.netSstoreNoopGas
  sstoreInit : 0 < p.netSstoreInitGas
  sstoreClean : 0 < p.netSstoreCleanGas
  log : 0 < p.logGas
  sha3 : 0 < p.sha3Gas
  create : 0 < p.createGas
  create2 : 0 < p.create2Gas
  stipend : p.callStipend ≤ p.callValueTransferGas
  callFits : p.gasTable.calls.toNat + p.callNewAccountGas.toNat + p.callValueTransferGas.toNat <
    2 ^ 64

theorem charges_constantinople : constantinopleParams.Charges := by
  constructor <;> decide

def Words (s : Stack) : Prop := ∀ x ∈ s, 0 ≤ x

theorem Words.nil : Words [] := fun _ h => nomatch h

variable {s : Stack}

theorem Words.cons {x : Int} (hx : 0 ≤ x) (hs : Words s) : Words (x :: s) :=
  forall_mem_cons.mpr ⟨hx, hs⟩

theorem Words.drop (h : Words s) (n : Nat) : Words (s.drop n) :=
  fun x hx => h x (mem_of_mem_drop hx)

theorem Words.back (h : Words s) (n : Nat) : 0 ≤ s.back n := by
  unfold Stack.back
  rw [getD_eq_getElem?_getD]
  cases hn : s[n]? with
  | none => exact le_rfl
  | some x => exact h x (mem_of_getElem? hn)

theorem Words.unary {g : Int → Int} (hg : ∀ x, 0 ≤ x → 0 ≤ g x) (h : Words s) :
    Words (unary g s) := by
  cases s with
  | nil => exact h
  | cons x s =>
    obtain ⟨hx, hs⟩ := forall_mem_cons.mp h
    exact Words.cons (hg x hx) hs

theorem Words.binary {g : Int → Int → Int} (hg : ∀ x y, 0 ≤ x → 0 ≤ y → 0 ≤ g x y) (h : Words s) :
    Words (binary g s) := by
  match s, h with
  | [], h => exact h
  | [x], h => exact h
  | x :: y :: s, h =>
    obtain ⟨hx, h⟩ := forall_mem_cons.mp h
    obtain ⟨hy, hs⟩ := forall_mem_cons.mp h
    exact Words.cons (hg x y hx hy) hs

theorem Words.ternary {g : Int → Int → Int → Int}
    (hg : ∀ x y z, 0 ≤ x → 0 ≤ y → 0 ≤ z → 0 ≤ g x y z) (h : Words s) : Words (ternary g s) := by
  match s, h with
  | [], h => exact h
  | [x], h => exact h
  | [x, y], h => exact h
  | x :: y :: z :: s, h =>
    obtain ⟨hx, h⟩ := forall_mem_cons.mp h
    obtain ⟨hy, h⟩ := forall_mem_cons.mp h
    obtain ⟨hz, hs⟩ := forall_mem_cons.mp h
    exact Words.cons (hg x y z hx hy hz) hs

theorem u256_nonneg (x : Int) : 0 ≤ u256 x := Int.emod_nonneg x (by decide)

theorem ofBool_nonneg (b : Bool) : 0 ≤ ofBool b := by cases b <;> decide

theorem ofBytes_nonneg (b : Bytes) : 0 ≤ ofBytes b := Int.natCast_nonneg _

variable {x y : Int}

theorem mathExp_nonneg (base exponent : Int) : 0 ≤ mathExp base exponent := by
  have hgen : ∀ (is : List Nat) (acc : Int × Int), 0 ≤ acc.1 →
      0 ≤ (is.foldl (fun acc i =>
        (if exponent.natAbs.testBit i then u256 (acc.1 * acc.2) else acc.1,
          u256 (acc.2 * acc.2))) acc).1 := by
    intro is
    induction is with
    | nil => exact fun _ h => h
    | cons i is ih =>
      intro acc h
      apply ih
      dsimp only
      split
      · exact u256_nonneg _
      · exact h
  exact hgen _ (1, base) Int.one_nonneg

def KeepsWords (g : Stack → Stack) : Prop := ∀ s, Words s → Words (g s)

theorem keepsWords_opPop : KeepsWords opPop := fun _ h => h.drop 1

theorem keepsWords_makeDup (n : Nat) : KeepsWords (makeDup n) :=
  fun _ h => Words.cons (h.back (n - 1)) h

theorem keepsWords_makeSwap (n : Nat) : KeepsWords (makeSwap n) := by
  intro s h x hx
  rcases mem_or_eq_of_mem_set hx with hx | rfl
  · rcases mem_or_eq_of_mem_set hx with hx | rfl
    · exact h x hx
    · exact h.back n
  · exact h.back 0

/-- What the values outside the frame have to satisfy: the machine pushes the price of the gas
and the chain ID as they are. -/
structure Env.Nonneg (env : Env) : Prop where
  gasPrice : 0 ≤ env.ctx.gasPrice
  chainID : 0 ≤ env.ctx.chainID

structure Frame.Sound (f : Frame) : Prop where
  words : Words f.stack
  value : 0 ≤ f.contract.value

def LocalOp.Keeps (op : LocalOp) : Prop :=
  ∀ r f f' ret, r.env.Nonneg → f.Sound → op r f = .ok (f', ret) →
    f'.contract = f.contract ∧ Words f'.stack

theorem keeps_onStack {g : Stack → Stack} (hg : KeepsWords g) : LocalOp.Keeps (onStack g) := by
  intro r f f' ret _ hf h
  cases h
  exact ⟨rfl, hg f.stack hf.words⟩

theorem keeps_pushing {g : Reads → Frame → Int}
    (hg : ∀ r f, r.env.Nonneg → f.Sound → 0 ≤ g r f) : LocalOp.Keeps (pushing g) := by
  intro r f f' ret hr hf h
  cases h
  exact ⟨rfl, Words.cons (hg r f hr hf) hf.words⟩

theorem keeps_replacing {g : Reads → Frame → Int → Int} (hg : ∀ r f x, 0 ≤ g r f x) :
    LocalOp.Keeps (replacing g) := by
  intro r f f' ret _ hf h
  cases h
  exact ⟨rfl, hf.words.unary fun x _ => hg r f x⟩

theorem keeps_notSupported (op : String) : LocalOp.Keeps (notSupported op) := by
  intro r f f' ret _ _ h
  cases h

theorem keeps_copying (n : Nat) (data : Reads → Frame → Bytes) :
    LocalOp.Keeps (copying n data) := by
  intro r f f' ret _ hf h
  cases h
  exact ⟨rfl, hf.words.drop (n + 3)⟩

theorem keeps_opReturnDataCopy : LocalOp.Keeps opReturnDataCopy := by
  intro r f f' ret hr hf h
  unfold opReturnDataCopy at h
  dsimp only at h
  split at h
  · cases h
  · exact keeps_copying 0 _ r f f' ret hr hf h

theorem keeps_opSha3 : LocalOp.Keeps opSha3 := by
  intro r f f' ret _ hf h
  unfold opSha3 at h
  split at h
  · next offset size s hs =>
    cases h
    have hwords := hf.words
    rw [hs] at hwords
    exact ⟨rfl, Words.cons (Int.natCast_nonneg _) (hwords.drop 2)⟩
  · cases h
    exact ⟨rfl, hf.words⟩

theorem keeps_opMstore : LocalOp.Keeps opMstore := by
  intro r f f' ret _ hf h
  unfold opMstore at h
  split at h
  · next mStart val s hs =>
    cases h
    have hwords := hf.words
    rw [hs] at hwords
    exact ⟨rfl, hwords.drop 2⟩
  · cases h
    exact ⟨rfl, hf.words⟩

theorem keeps_opMstore8 : LocalOp.Keeps opMstore8 := by
  intro r f f' ret _ hf h
  unfold opMstore8 at h
  split at h
  · next off val s hs =>
    cases h
    have hwords := hf.words
    rw [hs] at hwords
    exact ⟨rfl, hwords.drop 2⟩
  · cases h
    exact ⟨rfl, hf.words⟩

theorem keeps_opJump : LocalOp.Keeps opJump := by
  intro r f f' ret _ hf h
  unfold opJump at h
  dsimp only at h
  split at h
  · cases h
    exact ⟨rfl, hf.words.drop 1⟩
  · cases h

theorem keeps_opJumpi : LocalOp.Keeps opJumpi := by
  intro r f f' ret _ hf h
  unfold opJumpi at h
  dsimp only at h
  split at h
  · cases h
    exact ⟨rfl, hf.words.drop 2⟩
  split at h
  · cases h
    exact ⟨rfl, hf.words.drop 2⟩
  · cases h

theorem keeps_opReturn : LocalOp.Keeps opReturn := by
  intro r f f' ret _ hf h
  cases h
  exact ⟨rfl, hf.words.drop 2⟩

theorem keeps_makePush (n : Nat) : LocalOp.Keeps (makePush n) := by
  intro r f f' ret _ hf h
  cases h
  exact ⟨rfl, Words.cons (ofBytes_nonneg _) hf.words⟩

theorem keeps_operation (op : OpCode) {o : LocalOp} (h : (operation op).execute = .pure o) :
    o.Keeps := by
  have hnat : ∀ n : Nat, (0 : Int) ≤ n := Int.natCast_nonneg
  cases op with
  | sstore | log _ | create | create2 | call | callcode | delegatecall | staticcall
  | selfdestruct => cases h
  | stop | jumpdest => cases h; exact keeps_onStack fun _ hs => hs
  | add | mul | sub =>
    cases h
    exact keeps_onStack fun s hs => Words.binary (fun x y _ _ => u256_nonneg _) hs
  | lt | gt | eq =>
    cases h
    exact keeps_onStack fun s hs => Words.binary (fun x y _ _ => ofBool_nonneg _) hs
  | div | mod | shl | shr | slt | sgt | byte =>
    cases h
    refine keeps_onStack fun s hs => Words.binary (fun x y _ _ => ?_) hs
    split_ifs <;> first | exact u256_nonneg _ | exact ofBool_nonneg _ | exact hnat _
  | sdiv | smod | sar =>
    cases h
    refine keeps_onStack fun s hs => Words.binary (fun x y _ _ => ?_) hs
    dsimp only
    split_ifs <;> first | exact u256_nonneg _ | decide
  | addmod | mulmod =>
    cases h
    refine keeps_onStack fun s hs => Words.ternary (fun x y z _ _ _ => ?_) hs
    split_ifs
    · exact u256_nonneg _
    · exact le_rfl
  | exp =>
    cases h
    exact keeps_onStack fun s hs => Words.binary (fun x y _ _ => mathExp_nonneg x y) hs
  | signextend =>
    cases h
    refine keeps_onStack fun s hs => Words.binary (fun back num _ hnum => ?_) hs
    split
    · exact u256_nonneg _
    · exact hnum
  | iszero =>
    cases h
    exact keeps_onStack fun s hs => Words.unary (fun x _ => ofBool_nonneg _) hs
  | not =>
    cases h
    exact keeps_onStack fun s hs => Words.unary (fun x _ => u256_nonneg _) hs
  | and | or | xor =>
    cases h
    refine keeps_onStack fun s hs => Words.binary (fun x y hx hy => ?_) hs
    obtain ⟨m, rfl⟩ := Int.eq_ofNat_of_zero_le hx
    obtain ⟨n, rfl⟩ := Int.eq_ofNat_of_zero_le hy
    exact Int.natCast_nonneg _
  | pop => cases h; exact keeps_onStack keepsWords_opPop
  | dup n => cases h; exact keeps_onStack (keepsWords_makeDup n)
  | swap n => cases h; exact keeps_onStack (keepsWords_makeSwap n)
  | address | origin | caller | calldatasize | codesize | returndatasize | gaslimit | selfbalance
  | pc | msize | gas => cases h; exact keeps_pushing fun _ _ _ _ => hnat _
  | timestamp | number => cases h; exact keeps_pushing fun _ _ _ _ => u256_nonneg _
  | callvalue => cases h; exact keeps_pushing fun _ _ _ hf => hf.value
  | gasprice => cases h; exact keeps_pushing fun _ _ hr _ => hr.gasPrice
  | chainid => cases h; exact keeps_pushing fun _ _ hr _ => hr.chainID
  | balance | extcodesize | extcodehash | sload =>
    cases h; exact keeps_replacing fun _ _ _ => hnat _
  | calldataload | mload => cases h; exact keeps_replacing fun _ _ _ => ofBytes_nonneg _
  | blockhash | coinbase | difficulty => cases h; exact keeps_notSupported _
  | calldatacopy | codecopy => cases h; exact keeps_copying 0 _
  | extcodecopy => cases h; exact keeps_copying 1 _
  | returndatacopy => cases h; exact keeps_opReturnDataCopy
  | sha3 => cases h; exact keeps_opSha3
  | mstore => cases h; exact keeps_opMstore
  | mstore8 => cases h; exact keeps_opMstore8
  | jump => cases h; exact keeps_opJump
  | jumpi => cases h; exact keeps_opJumpi
  | «return» | revert => cases h; exact keeps_opReturn
  | push n => cases h; exact keeps_makePush n

theorem safeAdd_eq_some {x y z : UInt64} (h : safeAdd x y = some z) :
    z.toNat = x.toNat + y.toNat := by
  unfold safeAdd at h
  split at h
  · cases h
  · next hle =>
    cases h
    have hx : x.toNat < 2 ^ 64 := x.toNat_lt
    rw [UInt64.lt_iff_toNat_lt, UInt64.toNat_sub_of_le _ _
      (by rw [UInt64.le_iff_toNat_le]; exact Nat.le_pred_of_lt hx)] at hle
    rw [UInt64.toNat_add, Nat.mod_eq_of_lt]
    change ¬ 18446744073709551615 - x.toNat < y.toNat at hle
    omega

theorem orOverflow_eq_ok {o : Option UInt64} {x : UInt64} : orOverflow o = .ok x ↔ o = some x := by
  cases o <;> simp [orOverflow]

def GasCharge.AddsRefunds (charge : GasCharge) : Prop := ∀ c ∈ charge.refunds, ∃ gas, c = .add gas

section Prices

variable {r : Reads} {f : Frame} {memorySize : UInt64} {charge : GasCharge}

theorem constGasFunc_spec {gas : UInt64} (r : Reads) (size : UInt64)
    (h : constGasFunc gas r f size = .ok charge) :
    charge.refunds = [] ∧ gas.toNat ≤ charge.cost.toNat := by
  cases h
  exact ⟨rfl, le_rfl⟩

theorem tableGas_spec {g : GasTable → UInt64} (size : UInt64)
    (h : tableGas g r f size = .ok charge) :
    charge.refunds = [] ∧ (g r.env.params.gasTable).toNat ≤ charge.cost.toNat := by
  cases h
  exact ⟨rfl, le_rfl⟩

theorem gasMemory_spec {base : Params → UInt64} (h : gasMemory base r f memorySize = .ok charge) :
    charge.refunds = [] ∧ (base r.env.params).toNat ≤ charge.cost.toNat := by
  obtain ⟨⟨fee, total⟩, -, h⟩ := bind_eq_ok.mp h
  obtain ⟨cost, hcost, h⟩ := bind_eq_ok.mp h
  cases h
  have hcost := safeAdd_eq_some (orOverflow_eq_ok.mp hcost)
  exact ⟨rfl, show _ ≤ cost.toNat by omega⟩

theorem gasWords_spec {base perWord : Params → UInt64} {l : Nat}
    (h : gasWords base perWord l r f memorySize = .ok charge) :
    charge.refunds = [] ∧ (base r.env.params).toNat ≤ charge.cost.toNat := by
  obtain ⟨⟨fee, total⟩, -, h⟩ := bind_eq_ok.mp h
  obtain ⟨gas, hgas, h⟩ := bind_eq_ok.mp h
  obtain ⟨size, -, h⟩ := bind_eq_ok.mp h
  obtain ⟨words, -, h⟩ := bind_eq_ok.mp h
  obtain ⟨cost, hcost, h⟩ := bind_eq_ok.mp h
  cases h
  have hgas := safeAdd_eq_some (orOverflow_eq_ok.mp hgas)
  have hcost := safeAdd_eq_some (orOverflow_eq_ok.mp hcost)
  exact ⟨rfl, show _ ≤ cost.toNat by omega⟩

theorem makeGasLog_spec {n : UInt64} (h : makeGasLog n r f memorySize = .ok charge) :
    charge.refunds = [] ∧ r.env.params.logGas.toNat ≤ charge.cost.toNat := by
  obtain ⟨requested, -, h⟩ := bind_eq_ok.mp h
  obtain ⟨⟨fee, total⟩, -, h⟩ := bind_eq_ok.mp h
  obtain ⟨gas, hgas, h⟩ := bind_eq_ok.mp h
  obtain ⟨gas', hgas', h⟩ := bind_eq_ok.mp h
  obtain ⟨data, -, h⟩ := bind_eq_ok.mp h
  obtain ⟨cost, hcost, h⟩ := bind_eq_ok.mp h
  cases h
  have hgas := safeAdd_eq_some (orOverflow_eq_ok.mp hgas)
  have hgas' := safeAdd_eq_some (orOverflow_eq_ok.mp hgas')
  have hcost := safeAdd_eq_some (orOverflow_eq_ok.mp hcost)
  exact ⟨rfl, show _ ≤ cost.toNat by omega⟩

theorem gasExp_spec (h : gasExp r f memorySize = .ok charge) :
    charge.refunds = [] ∧ gasSlowStep.toNat ≤ charge.cost.toNat := by
  obtain ⟨cost, hcost, h⟩ := bind_eq_ok.mp h
  cases h
  have hcost := safeAdd_eq_some (orOverflow_eq_ok.mp hcost)
  exact ⟨rfl, show _ ≤ cost.toNat by omega⟩

theorem gasSStore_spec (hp : r.env.params.Charges) (h : gasSStore r f memorySize = .ok charge) :
    charge.AddsRefunds ∧ 0 < charge.cost := by
  have horiginal : ∀ addr key, r.stateDB.getCommittedState addr key = r.stateDB.getState addr key :=
    fun _ _ => rfl
  unfold gasSStore at h
  simp only [horiginal, if_true] at h
  split at h
  · cases h
    exact ⟨fun _ hc => absurd hc not_mem_nil, hp.sstoreNoop⟩
  split at h
  · cases h
    exact ⟨fun _ hc => absurd hc not_mem_nil, hp.sstoreInit⟩
  · cases h
    refine ⟨?_, hp.sstoreClean⟩
    intro c hc
    dsimp only at hc
    split at hc
    · exact ⟨_, mem_singleton.mp hc⟩
    · exact absurd hc not_mem_nil

theorem gasSuicide_spec (h : gasSuicide r f memorySize = .ok charge) : charge.AddsRefunds := by
  cases h
  intro c hc
  dsimp only at hc
  split at hc
  · exact nomatch hc
  · exact ⟨_, mem_singleton.mp hc⟩

theorem gasCalling_spec {extra : Reads → Frame → UInt64}
    (h : gasCalling extra r f memorySize = .ok charge) :
    charge.refunds = [] ∧ ∃ passed, charge.callGas = some passed ∧
      (r.env.params.gasTable.calls + extra r f).toNat + passed.toNat ≤ charge.cost.toNat := by
  obtain ⟨⟨fee, total⟩, -, h⟩ := bind_eq_ok.mp h
  obtain ⟨gas, hgas, h⟩ := bind_eq_ok.mp h
  obtain ⟨passed, -, h⟩ := bind_eq_ok.mp h
  obtain ⟨cost, hcost, h⟩ := bind_eq_ok.mp h
  cases h
  have hgas := safeAdd_eq_some (orOverflow_eq_ok.mp hgas)
  have hcost := safeAdd_eq_some (orOverflow_eq_ok.mp hcost)
  exact ⟨rfl, passed, rfl, show _ ≤ cost.toNat by omega⟩

theorem gasReturn_spec (h : gasReturn r f memorySize = .ok charge) : charge.refunds = [] := by
  obtain ⟨⟨fee, total⟩, -, h⟩ := bind_eq_ok.mp h
  cases h
  rfl

/-- A call pays for itself, for the value it moves and for the gas it passes on. -/
def GasCharge.CoversCall (charge : GasCharge) (p : Params) (value : Int) : Prop :=
  charge.refunds = [] ∧ ∃ passed, charge.callGas = some passed ∧
    p.gasTable.calls.toNat + (if value = 0 then 0 else p.callValueTransferGas.toNat) +
      passed.toNat ≤ charge.cost.toNat

theorem gasCall_spec (hp : r.env.params.Charges) (h : gasCall r f memorySize = .ok charge) :
    charge.CoversCall r.env.params (f.stack.back 2) := by
  obtain ⟨hnil, passed, hpassed, hle⟩ := gasCalling_spec h
  refine ⟨hnil, passed, hpassed, ?_⟩
  have hfits := hp.callFits
  by_cases hvalue : f.stack.back 2 = 0
  · simp only [hvalue, ne_eq, not_true_eq_false, false_and, if_false, UInt64.add_zero] at hle
    rw [if_pos hvalue]
    omega
  · simp only [hvalue, ne_eq, not_false_eq_true, true_and, if_true, UInt64.toNat_add] at hle
    rw [if_neg hvalue]
    split_ifs at hle
    · omega
    · rw [UInt64.toNat_zero] at hle
      omega

theorem gasCallCode_spec (hp : r.env.params.Charges) (h : gasCallCode r f memorySize = .ok charge) :
    charge.CoversCall r.env.params (f.stack.back 2) := by
  obtain ⟨hnil, passed, hpassed, hle⟩ := gasCalling_spec h
  refine ⟨hnil, passed, hpassed, ?_⟩
  have hfits := hp.callFits
  by_cases hvalue : f.stack.back 2 = 0
  · simp only [hvalue, ne_eq, not_true_eq_false, if_false, UInt64.add_zero] at hle
    rw [if_pos hvalue]
    omega
  · simp only [hvalue, ne_eq, not_false_eq_true, if_true, UInt64.toNat_add] at hle
    rw [if_neg hvalue]
    omega

theorem gasDelegateCall_spec (h : gasDelegateCall r f memorySize = .ok charge) :
    charge.CoversCall r.env.params 0 := by
  obtain ⟨hnil, passed, hpassed, hle⟩ := gasCalling_spec h
  refine ⟨hnil, passed, hpassed, ?_⟩
  rw [UInt64.add_zero] at hle
  rw [if_pos rfl]
  exact hle

theorem addsRefunds_of_nil (h : charge.refunds = []) : charge.AddsRefunds := by
  intro c hc
  rw [h] at hc
  exact nomatch hc

theorem charge_spec (hp : r.env.params.Charges) (op : OpCode)
    (h : (operation op).gasCost r f memorySize = .ok charge) :
    charge.AddsRefunds ∧
      ((operation op).halts = false → (operation op).reverts = false → 0 < charge.cost) := by
  -- most prices are at least a constant, and refund nothing
  have hbase : ∀ {base : UInt64}, 0 < base →
      charge.refunds = [] ∧ base.toNat ≤ charge.cost.toNat →
      charge.AddsRefunds ∧
        ((operation op).halts = false → (operation op).reverts = false → 0 < charge.cost) := by
    intro base hpos hspec
    refine ⟨addsRefunds_of_nil hspec.1, fun _ _ => ?_⟩
    rw [UInt64.lt_iff_toNat_lt] at hpos ⊢
    omega
  have hcalls : ∀ {value : Int}, charge.CoversCall r.env.params value →
      charge.AddsRefunds ∧
        ((operation op).halts = false → (operation op).reverts = false → 0 < charge.cost) := by
    rintro value ⟨hnil, passed, -, hle⟩
    exact hbase hp.calls ⟨hnil, by omega⟩
  cases op with
  | sstore =>
    change gasSStore r f memorySize = .ok charge at h
    obtain ⟨hadds, hpos⟩ := gasSStore_spec hp h
    exact ⟨hadds, fun _ _ => hpos⟩
  | selfdestruct =>
    change gasSuicide r f memorySize = .ok charge at h
    exact ⟨gasSuicide_spec h, nofun⟩
  | stop => cases h; exact ⟨addsRefunds_of_nil rfl, nofun⟩
  | «return» => exact ⟨addsRefunds_of_nil (gasReturn_spec h), nofun⟩
  | revert => exact ⟨addsRefunds_of_nil (gasReturn_spec h), nofun⟩
  | exp =>
    change gasExp r f memorySize = .ok charge at h
    exact hbase (by decide) (gasExp_spec h)
  | sha3 =>
    change gasWords sha3Gas sha3WordGas 1 r f memorySize = .ok charge at h
    exact hbase hp.sha3 (gasWords_spec h)
  | calldatacopy | codecopy | returndatacopy =>
    change gasWords (fun _ => gasFastestStep) copyGas 2 r f memorySize = .ok charge at h
    have hfastest : 0 < gasFastestStep := by decide
    exact hbase hfastest (gasWords_spec h)
  | extcodecopy =>
    change gasWords (fun p => p.gasTable.extcodeCopy) copyGas 3 r f memorySize =
      .ok charge at h
    exact hbase hp.extcodeCopy (gasWords_spec h)
  | mload | mstore | mstore8 =>
    change gasMemory (fun _ => gasFastestStep) r f memorySize = .ok charge at h
    have hfastest : 0 < gasFastestStep := by decide
    exact hbase hfastest (gasMemory_spec h)
  | create =>
    change gasMemory createGas r f memorySize = .ok charge at h
    exact hbase hp.create (gasMemory_spec h)
  | create2 =>
    change gasWords create2Gas sha3WordGas 2 r f memorySize = .ok charge at h
    exact hbase hp.create2 (gasWords_spec h)
  | log n =>
    change makeGasLog (UInt64.ofNat n) r f memorySize = .ok charge at h
    exact hbase hp.log (makeGasLog_spec h)
  | call => exact hcalls (gasCall_spec hp h)
  | callcode => exact hcalls (gasCallCode_spec hp h)
  | delegatecall | staticcall => exact hcalls (gasDelegateCall_spec h)
  | balance => exact hbase hp.balance (tableGas_spec memorySize h)
  | extcodesize => exact hbase hp.extcodeSize (tableGas_spec memorySize h)
  | extcodehash => exact hbase hp.extcodeHash (tableGas_spec memorySize h)
  | sload => exact hbase hp.sLoad (tableGas_spec memorySize h)
  | jumpdest =>
    cases h
    exact hbase hp.jumpdest ⟨rfl, le_rfl⟩
  | _ =>
    -- the instructions with a constant price
    exact hbase (by decide) (constGasFunc_spec r memorySize h)

end Prices

end ThetaSubchain.Vm
