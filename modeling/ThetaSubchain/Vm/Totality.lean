/-
An execution of the machine returns.

Every round of a loop leaves its frame less gas, and frames nest at most as deep as the limit
allows.  Nothing panics on a state that has a validator set and a TFuel token bank.
-/
import ThetaSubchain.Ledger.System
import ThetaSubchain.Vm.Charges

namespace ThetaSubchain

open Option StoreView

namespace StoreView

variable {sv : StoreView} {addr : Address} {amount : Int}

theorem getBalance_setAccount_same {acc : Account}
    (h : acc.tfuelWei = (sv.getOrCreateAccount addr).tfuelWei) (a : Address) :
    (sv.setAccount addr acc).getBalance a = sv.getBalance a := by
  rw [getBalance, getOrCreateAccount, getAccount_setAccount]
  split
  · next ha =>
    rw [ha, getBalance, ← h]
    rfl
  · rfl

theorem getBalance_createAccount (sv : StoreView) (addr a : Address) :
    (sv.createAccountWithPreviousBalance addr).getBalance a = sv.getBalance a := by
  rw [createAccount_eq]
  apply getBalance_setAccount_same
  rfl

theorem getBalance_setNonce (sv : StoreView) (addr : Address) (nonce : UInt64) (a : Address) :
    (sv.setNonce addr nonce).getBalance a = sv.getBalance a := by
  apply getBalance_setAccount_same
  rfl

theorem exists_addBalance (sv : StoreView) (addr : Address) (hamount : 0 ≤ amount) :
    ∃ sv', sv.addBalance addr amount = some sv' := by
  unfold addBalance
  split
  · exact ⟨sv, rfl⟩
  · dsimp only
    rw [setTFuel, if_pos (by omega)]
    exact ⟨_, rfl⟩

theorem exists_subBalance (hle : amount ≤ sv.getBalance addr) (hamount : 0 ≤ amount) :
    ∃ sv', sv.subBalance addr amount = some sv' := by
  unfold subBalance
  split
  · exact ⟨sv, rfl⟩
  · next hne =>
    rw [getBalance, getOrCreateAccount] at hle
    cases hacc : sv.getAccount addr with
    | none =>
      rw [hacc] at hle
      have hzero : amount ≤ 0 := hle
      omega
    | some acc =>
      rw [hacc] at hle
      have hle' : amount ≤ acc.tfuelWei := hle
      dsimp only
      rw [setTFuel, if_pos (by omega)]
      exact ⟨_, rfl⟩

end StoreView

namespace Vm

open Ending

theorem exists_transfer {m : Evm} {sender : Address} (recipient : Address) {amount : Int}
    (hamount : 0 ≤ amount) (hle : amount ≤ m.stateDB.getBalance sender) :
    ∃ m', m.transfer sender recipient amount = some m' := by
  obtain ⟨v, hv⟩ := exists_subBalance hle hamount
  obtain ⟨w, hw⟩ := v.exists_addBalance recipient hamount
  exact ⟨_, by rw [Evm.transfer, hv, bind_eq_bind, bind_some, hw]; rfl⟩

theorem exists_suicide (m : Evm) (self beneficiary : Address) :
    ∃ m', m.suicide self beneficiary = some m' := by
  obtain ⟨v, hv⟩ := m.stateDB.exists_addBalance beneficiary
    (show 0 ≤ m.stateDB.getBalance self from Int.natCast_nonneg _)
  exact ⟨_, by rw [Evm.suicide, hv]; rfl⟩

structure Ready (m : Evm) : Prop where
  validators : m.stateDB.getDynasty.isSome
  bank : m.stateDB.getTFuelTokenBankContractAddress.isSome

theorem Ready.of_system {m m' : Evm} (hm : Ready m)
    (h : m'.stateDB.system = m.stateDB.system) : Ready m' := by
  refine ⟨?_, ?_⟩
  · rw [dynasty_eq_of_system h]
    exact hm.validators
  · show m'.stateDB.system.getTFuelTokenBankContractAddress.isSome
    rw [h]
    exact hm.bank

theorem Ready.runs {env : Env} {m m' : Evm} (hm : Ready m) (h : Runs env m m') : Ready m' :=
  hm.of_system (system_runs h)

theorem exists_run {m : Evm} (hm : Ready m) (env : Env) (p : Precompile) (input : Bytes)
    (callerAddr : Address) : ∃ out, p.run env m input callerAddr = some out := by
  cases p with
  | native n =>
    simp only [Precompile.run, Precompile.runNative]
    split <;> exact ⟨_, rfl⟩
  | dynasty =>
    obtain ⟨d, hd⟩ := isSome_iff_exists.mp hm.validators
    exact ⟨_, by rw [Precompile.run, Precompile.runDynasty, hd]; rfl⟩
  | validatorSet =>
    simp only [Precompile.run, Precompile.runValidatorSet]
    split <;> exact ⟨_, rfl⟩
  | mintTFuel =>
    obtain ⟨bank, hbank⟩ := isSome_iff_exists.mp hm.bank
    simp only [Precompile.run, Precompile.runMintTFuel, Precompile.hasPreviledgedAccess, hbank,
      map_some, bind_eq_bind, bind_some]
    split
    · obtain ⟨v, hv⟩ := m.stateDB.exists_addBalance (bigToAddress (ofBytes (getData input 0 20)))
        (ofBytes_nonneg (getData input 20 32))
      rw [hv]
      exact ⟨_, rfl⟩
    · exact ⟨_, rfl⟩
  | burnTFuel =>
    simp only [Precompile.run, Precompile.runBurnTFuel]
    split
    · next hle =>
      obtain ⟨v, hv⟩ := exists_subBalance
        (by simpa [Evm.canTransfer] using hle) (ofBytes_nonneg (getData input 0 32))
      rw [hv]
      exact ⟨_, rfl⟩
    · exact ⟨_, rfl⟩

theorem useGas_eq_some {c c' : Contract} {gas : UInt64} (h : c.useGas gas = some c') :
    c' = { c with gas := c.gas - gas } ∧ gas ≤ c.gas := by
  unfold Contract.useGas at h
  split at h
  · cases h
  · next hle =>
    cases h
    exact ⟨rfl, UInt64.not_lt.mp hle⟩

theorem sub_le_self_of_le {a b : UInt64} (h : b ≤ a) : a - b ≤ a := by
  rw [UInt64.le_iff_toNat_le] at h ⊢
  rw [UInt64.toNat_sub_of_le _ _ (by rw [UInt64.le_iff_toNat_le]; exact h)]
  omega

def Runner.Total (run : Runner) : Prop :=
  ∀ c input readOnly m, c.WellBuilt → 0 ≤ c.value → Ready m →
    Returns (fun r _ => r.gas ≤ c.gas) (run c input readOnly) m

theorem returns_orPanic {g : Evm → Option Evm} {m : Evm} {Q : Unit → Evm → Prop}
    (h : ∃ m', g m = some m' ∧ Q () m') : Returns Q (orPanic g) m := by
  obtain ⟨m', hg, hQ⟩ := h
  refine ⟨(), m', ?_, hQ⟩
  unfold orPanic
  rw [hg]

theorem returns_runPrecompiledContract (env : Env) (p : Precompile) (input : Bytes) (c : Contract)
    {m : Evm} (hm : Ready m) :
    Returns (fun r _ => r.gas ≤ c.gas) (runPrecompiledContract env p input c) m := by
  unfold Returns runPrecompiledContract
  cases hgas : c.useGas (p.requiredGas env input m.stateDB.getBlockHeight) with
  | none => exact ⟨_, _, rfl, UInt64.le_refl _⟩
  | some c' =>
    obtain ⟨rfl, hle⟩ := useGas_eq_some hgas
    obtain ⟨out, hout⟩ := exists_run hm env p input c.callerAddress
    rw [hout]
    exact ⟨_, _, rfl, sub_le_self_of_le hle⟩

section Frames

variable {env : Env} {run : Runner} {depth : Nat}

theorem returns_runFrame (hrun : run.Total) {start m : Evm} (hm : Ready m) {c : Contract}
    (hc : c.WellBuilt) (hvalue : 0 ≤ c.value) (input : Bytes) (readOnly : Bool) :
    Returns (fun r _ => r.gas ≤ c.gas) (runFrame run start c input readOnly) m := by
  apply returns_bind (hrun c input readOnly m hc hvalue hm)
  intro r t hr
  split
  · exact returns_pure hr
  · refine returns_modify_bind (returns_pure ?_)
    dsimp only
    split
    · exact hr
    · exact UInt64.zero_le

variable (hrun : depth ≤ env.params.callCreateDepth → run.Total)
include hrun

variable {m : Evm} {value : Int}

theorem returns_call (caller : ContractRef) (addr : Address) (input : Bytes) (gas : UInt64)
    (hvalue : 0 ≤ value) (hm : Ready m) :
    Returns (fun r _ => r.gas ≤ gas) (call env run depth caller addr input gas value) m := by
  apply returns_get
  split
  · exact returns_pure (UInt64.le_refl gas)
  next hdepth =>
    split
    · exact returns_pure (UInt64.le_refl gas)
    next hfunds =>
      have hle : value ≤ m.stateDB.getBalance caller.address := by
        simpa [Evm.canTransfer] using hfunds
      split
      · exact returns_pure (UInt64.le_refl gas)
      have hrest : ∀ t, Ready t → value ≤ t.stateDB.getBalance caller.address →
          Returns (fun r _ => r.gas ≤ gas) (do
            orPanic fun m => m.transfer caller.address addr value
            let code := (← get).stateDB.getCode addr
            runFrame run m (.new .call caller addr value gas addr code) input false) t := by
        intro t ht hfunds
        obtain ⟨t', ht'⟩ := exists_transfer addr hvalue hfunds
        have hready : Ready t' := ht.runs (show Runs env t t' from .transfer t t' _ _ _ ht')
        refine returns_bind (P := fun _ u => Ready u) (returns_orPanic ⟨t', ht', hready⟩) ?_
        intro _ u hu
        apply returns_get
        exact returns_runFrame (hrun (not_lt.mp hdepth)) hu (wellBuilt_new (by decide) ..) hvalue
          input false
      cases hexist : m.stateDB.exist addr with
      | true => exact hrest m hm hle
      | false =>
        refine hrest _ (hm.of_system ?_) ?_
        · exact m.stateDB.system_createAccountWithPreviousBalance addr
        · show value ≤ (m.stateDB.createAccountWithPreviousBalance addr).getBalance caller.address
          rw [getBalance_createAccount]
          exact hle

theorem returns_callCode (caller : ContractRef) (addr : Address) (input : Bytes) (gas : UInt64)
    (hvalue : 0 ≤ value) (hm : Ready m) :
    Returns (fun r _ => r.gas ≤ gas) (callCode env run depth caller addr input gas value) m := by
  apply returns_get
  split
  · exact returns_pure (UInt64.le_refl gas)
  next hdepth =>
    split
    · exact returns_pure (UInt64.le_refl gas)
    · exact returns_runFrame (hrun (not_lt.mp hdepth)) hm (wellBuilt_new (by decide) ..) hvalue
        input false

theorem returns_delegateCall {a callerAddress : Address} (hvalue : 0 ≤ value) (addr : Address)
    (input : Bytes) (gas : UInt64) (hm : Ready m) :
    Returns (fun r _ => r.gas ≤ gas)
      (delegateCall env run depth (.contract a callerAddress value) addr input gas) m := by
  apply returns_get
  split
  · exact returns_pure (UInt64.le_refl gas)
  next hdepth =>
    refine returns_runFrame (hrun (not_lt.mp hdepth)) hm ?_ hvalue input false
    exact ⟨a, callerAddress, value, rfl, rfl⟩

theorem returns_staticCall (caller : ContractRef) (addr : Address) (input : Bytes) (gas : UInt64)
    (hm : Ready m) :
    Returns (fun r _ => r.gas ≤ gas) (staticCall env run depth caller addr input gas) m := by
  apply returns_get
  split
  · exact returns_pure (UInt64.le_refl gas)
  next hdepth =>
    exact returns_runFrame (hrun (not_lt.mp hdepth)) hm (wellBuilt_new (by decide) ..) le_rfl
      input true

omit hrun in
theorem returns_storeCode (address : Address) (r : RunResult) (m : Evm) :
    Returns (fun r' _ => r'.gas ≤ r.gas) (storeCode env address r) m := by
  unfold storeCode
  dsimp only
  split
  · exact returns_pure (UInt64.le_refl _)
  split
  · exact returns_pure (UInt64.le_refl _)
  · next hle =>
    exact returns_modify_bind (returns_pure (sub_le_self_of_le (UInt64.not_lt.mp hle)))

omit hrun in
theorem returns_createFrame (hrun : run.Total) (caller : ContractRef) (code : Bytes) (gas : UInt64)
    (hvalue : 0 ≤ value) (address : Address) (hm : Ready m)
    (hle : value ≤ m.stateDB.getBalance caller.address) :
    Returns (fun r _ => r.gas ≤ gas) (createFrame env run caller code gas value address) m := by
  apply returns_get
  apply returns_modify_bind
  set t := m.setView (m.stateDB.createAccountWithPreviousBalance address) with ht
  have htready : Ready t :=
    hm.of_system (m.stateDB.system_createAccountWithPreviousBalance address)
  have htfunds : value ≤ t.stateDB.getBalance caller.address := by
    show value ≤ (m.stateDB.createAccountWithPreviousBalance address).getBalance caller.address
    rw [getBalance_createAccount]
    exact hle
  obtain ⟨t', ht'⟩ := exists_transfer address hvalue htfunds
  have hready : Ready t' := htready.runs (show Runs env t t' from .transfer t t' _ _ _ ht')
  refine returns_bind (P := fun _ u => Ready u) (returns_orPanic ⟨t', ht', hready⟩) ?_
  intro _ u hu
  apply returns_bind (hrun _ _ _ u (wellBuilt_new (by decide) ..) hvalue hu)
  intro r v hr
  apply returns_bind (returns_storeCode address r v)
  intro r' w hr'
  have hgas : r'.gas ≤ gas := UInt64.le_trans hr' hr
  split
  · refine returns_modify_bind (returns_pure ?_)
    dsimp only
    split
    · exact hgas
    · exact UInt64.zero_le
  · exact returns_pure hgas

theorem returns_create (caller : ContractRef) (code : Bytes) (gas : UInt64) (hvalue : 0 ≤ value)
    (address : Address) (hm : Ready m) :
    Returns (fun r _ => r.2.gas ≤ gas) (create env run depth caller code gas value address) m := by
  apply returns_get
  split
  · exact returns_pure (UInt64.le_refl gas)
  next hdepth =>
    split
    · exact returns_pure (UInt64.le_refl gas)
    next hfunds =>
      have hle : value ≤ m.stateDB.getBalance caller.address := by
        simpa [Evm.canTransfer] using hfunds
      apply returns_modify_bind
      apply returns_get
      dsimp only
      split
      · exact returns_pure UInt64.zero_le
      · refine returns_bind (returns_createFrame (hrun (not_lt.mp hdepth)) caller code gas hvalue
          address (hm.of_system rfl) ?_) ?_
        · show value ≤ (m.stateDB.setNonce caller.address _).getBalance caller.address
          rw [getBalance_setNonce]
          exact hle
        · exact fun r t hr => returns_pure hr

theorem returns_create1 (caller : ContractRef) (code : Bytes) (gas : UInt64) (hvalue : 0 ≤ value)
    (hm : Ready m) :
    Returns (fun r _ => r.2.gas ≤ gas) (create1 env run depth caller code gas value) m :=
  returns_get (returns_create hrun caller code gas hvalue _ hm)

omit hrun in
def returnable (env : Env) (m : Evm) (f : Frame) : Execute → Nat
  | .call | .callCode => (withStipend env m.callGasTemp (u256 (f.stack.back 2))).toNat
  | .delegateCall | .staticCall => m.callGasTemp.toNat
  | _ => 0

omit hrun in
def Frame.SameCode (f' f : Frame) : Prop :=
  f'.contract = { f.contract with gas := f'.contract.gas }

variable {f : Frame}

omit hrun in
theorem finishCall_spec (hf : f.Sound) (n : Nat) {r : RunResult} {gas : UInt64} (hr : r.gas ≤ gas)
    (hfits : f.contract.gas.toNat + gas.toNat < 2 ^ 64) :
    (finishCall n f r).1.Sound ∧ (finishCall n f r).1.SameCode f ∧
      (finishCall n f r).1.contract.gas.toNat ≤ f.contract.gas.toNat + gas.toNat := by
  rw [UInt64.le_iff_toNat_le] at hr
  refine ⟨⟨Words.cons ?_ (hf.words.drop n), hf.value⟩, rfl, ?_⟩
  · split <;> decide
  · show (f.contract.gas + r.gas).toNat ≤ _
    rw [UInt64.toNat_add, Nat.mod_eq_of_lt (by omega)]
    omega

omit hrun in
theorem finishCreate_spec (hf : f.Sound) (n : Nat) (addr : Address) {r : RunResult}
    (hr : r.gas ≤ (spendForCreate f).1) :
    (finishCreate n (spendForCreate f).2 addr r).1.Sound ∧
      (finishCreate n (spendForCreate f).2 addr r).1.SameCode f ∧
      (finishCreate n (spendForCreate f).2 addr r).1.contract.gas.toNat ≤
        f.contract.gas.toNat := by
  have hspent : (spendForCreate f).1 ≤ f.contract.gas := by
    apply sub_le_self_of_le
    rw [UInt64.le_iff_toNat_le, UInt64.toNat_div]
    exact Nat.div_le_self _ _
  have hleft : ((spendForCreate f).2.contract.gas).toNat =
      f.contract.gas.toNat - (spendForCreate f).1.toNat := UInt64.toNat_sub_of_le _ _ hspent
  rw [UInt64.le_iff_toNat_le] at hr hspent
  have hlt := f.contract.gas.toNat_lt
  refine ⟨⟨Words.cons ?_ (hf.words.drop n), hf.value⟩, rfl, ?_⟩
  · split
    · exact Int.natCast_nonneg _
    · decide
  · show ((spendForCreate f).2.contract.gas + r.gas).toNat ≤ _
    rw [UInt64.toNat_add, Nat.mod_eq_of_lt (by omega)]
    omega

theorem returns_executeOp (henv : env.Nonneg) {e : Execute} (hkeeps : ∀ o, e = .pure o → o.Keeps)
    (hf : f.Sound) (hm : Ready m) (hfits : f.contract.gas.toNat + returnable env m f e < 2 ^ 64) :
    Returns (fun res _ => res.1.Sound ∧ res.1.SameCode f ∧
        res.1.contract.gas.toNat ≤ f.contract.gas.toNat + returnable env m f e)
      (executeOp env run depth e f) m := by
  cases e with
  | pure op =>
    apply returns_get
    split
    · next f' ret hop =>
      obtain ⟨hcontract, hwords⟩ := hkeeps op rfl _ f f' ret henv hf hop
      refine returns_pure ⟨⟨hwords, ?_⟩, ?_, ?_⟩
      · rw [hcontract]
        exact hf.value
      · rw [Frame.SameCode, hcontract]
      · rw [hcontract]
        exact Nat.le_refl _
    · exact returns_pure ⟨hf, rfl, Nat.le_refl _⟩
  | sstore =>
    refine returns_modify_bind (returns_pure ⟨⟨hf.words.drop 2, hf.value⟩, rfl, Nat.le_refl _⟩)
  | log n =>
    refine returns_modify_bind (returns_pure ⟨⟨hf.words.drop (n + 2), hf.value⟩, rfl, ?_⟩)
    exact Nat.le_refl _
  | suicide =>
    obtain ⟨m', hm'⟩ := exists_suicide m f.contract.self (bigToAddress (f.stack.back 0))
    refine returns_bind (P := fun _ _ => True) (returns_orPanic ⟨m', hm', trivial⟩) ?_
    intro _ t _
    exact returns_pure ⟨⟨hf.words.drop 1, hf.value⟩, rfl, Nat.le_refl _⟩
  | create =>
    refine returns_bind (returns_create1 hrun _ _ _ (hf.words.back 0) hm) ?_
    intro r t hr
    exact returns_pure (finishCreate_spec hf 3 r.1 hr)
  | create2 =>
    refine returns_bind (returns_create hrun _ _ _ (hf.words.back 0) _ hm) ?_
    intro r t hr
    exact returns_pure (finishCreate_spec hf 4 r.1 hr)
  | call =>
    refine returns_get (returns_bind (returns_call hrun _ _ _ _ (u256_nonneg _) hm) ?_)
    intro r t hr
    exact returns_pure (finishCall_spec hf 7 hr hfits)
  | callCode =>
    refine returns_get (returns_bind (returns_callCode hrun _ _ _ _ (u256_nonneg _) hm) ?_)
    intro r t hr
    exact returns_pure (finishCall_spec hf 7 hr hfits)
  | delegateCall =>
    refine returns_get (returns_bind (returns_delegateCall hrun hf.value _ _ _ hm) ?_)
    intro r t hr
    exact returns_pure (finishCall_spec hf 6 hr hfits)
  | staticCall =>
    refine returns_get (returns_bind (returns_staticCall hrun _ _ _ _ hm) ?_)
    intro r t hr
    exact returns_pure (finishCall_spec hf 6 hr hfits)

variable {charge : GasCharge}

omit hrun in
theorem prepare_eq_ok {r : Reads} {readOnly : Bool} {op : OpCode} {memorySize : UInt64}
    (h : prepare r readOnly f = .ok (op, memorySize, charge)) :
    OpCode.ofByte (f.contract.getOp f.pc) = some op ∧
      (operation op).gasCost r f memorySize = .ok charge ∧
      enforceRestrictions readOnly op f.stack = none := by
  unfold prepare at h
  dsimp only at h
  split at h
  · cases h
  next op' hop =>
    split at h
    · cases h
    split at h
    · cases h
    next hallowed =>
      obtain ⟨size, -, h⟩ := bind_eq_ok.mp h
      split at h
      · next charge' hcharge =>
        cases h
        exact ⟨hop, hcharge, hallowed⟩
      · cases h

omit hrun in
theorem exists_applyCharge (m : Evm) (h : charge.AddsRefunds) :
    ∃ m', m.applyCharge charge = some m' ∧
      m'.callGasTemp = charge.callGas.getD m.callGasTemp := by
  have hfold : ∀ (refunds : List RefundChange) (v : StoreView),
      (∀ c ∈ refunds, ∃ gas, c = .add gas) → ∃ v', refunds.foldlM applyRefund v = some v' := by
    intro refunds
    induction refunds with
    | nil => exact fun v _ => ⟨v, rfl⟩
    | cons c refunds ih =>
      intro v hadds
      obtain ⟨gas, rfl⟩ := hadds c List.mem_cons_self
      obtain ⟨v', hv'⟩ := ih (v.addRefund gas) fun c hc => hadds c (.tail _ hc)
      exact ⟨v', by rw [List.foldlM_cons]; exact hv'⟩
  obtain ⟨v', hv'⟩ := hfold charge.refunds m.stateDB h
  refine ⟨{ m with stateDB := v', callGasTemp := charge.callGas.getD m.callGasTemp }, ?_, rfl⟩
  rw [Evm.applyCharge, hv']
  rfl

omit hrun in
theorem returnable_spec (hp : env.params.Charges) {sv : StoreView} {ret : Bytes} {f f' : Frame}
    (hstack : f'.stack = f.stack) {op : OpCode} {memorySize : UInt64}
    (h : (operation op).gasCost ⟨env, sv, ret⟩ f memorySize = .ok charge) {before : UInt64}
    (hm : m.callGasTemp = charge.callGas.getD before) :
    returnable env m f' (operation op).execute ≤ charge.cost.toNat ∧
      ((operation op).halts = false → (operation op).reverts = false →
        returnable env m f' (operation op).execute < charge.cost.toNat) := by
  have hcalls : 0 < env.params.gasTable.calls.toNat := UInt64.lt_iff_toNat_lt.mp hp.calls
  have hstipend := UInt64.le_iff_toNat_le.mp hp.stipend
  -- a call with value has the stipend on top of the gas passed on
  have hvalue : charge.CoversCall env.params (f.stack.back 2) →
      (withStipend env m.callGasTemp (u256 (f'.stack.back 2))).toNat < charge.cost.toNat := by
    rintro ⟨-, passed, hpassed, hle⟩
    rw [hm, hpassed, hstack, getD_some, withStipend]
    split
    · omega
    · next hne =>
      have hback : f.stack.back 2 ≠ 0 := by
        intro hzero
        rw [hzero] at hne
        exact hne rfl
      rw [if_neg hback] at hle
      rw [UInt64.toNat_add]
      have := Nat.mod_le (passed.toNat + env.params.callStipend.toNat) (2 ^ 64)
      omega
  have hplain : charge.CoversCall env.params 0 → m.callGasTemp.toNat < charge.cost.toNat := by
    rintro ⟨-, passed, hpassed, hle⟩
    rw [hm, hpassed, getD_some]
    omega
  cases op with
  | call =>
    have hlt := hvalue (gasCall_spec hp h)
    exact ⟨Nat.le_of_lt hlt, fun _ _ => hlt⟩
  | callcode =>
    have hlt := hvalue (gasCallCode_spec hp h)
    exact ⟨Nat.le_of_lt hlt, fun _ _ => hlt⟩
  | delegatecall | staticcall =>
    have hlt := hplain (gasDelegateCall_spec h)
    exact ⟨Nat.le_of_lt hlt, fun _ _ => hlt⟩
  | _ =>
    exact ⟨Nat.zero_le _, fun hhalts hreverts =>
      UInt64.lt_iff_toNat_lt.mp ((charge_spec hp _ h).2 hhalts hreverts)⟩

def Progress (f : Frame) : Frame ⊕ RunResult → Prop
  | .inl f' => f'.Sound ∧ f'.SameCode f ∧ f'.contract.gas < f.contract.gas
  | .inr r => r.gas ≤ f.contract.gas

theorem returns_step (hp : env.params.Charges) (henv : env.Nonneg) (readOnly : Bool) (hf : f.Sound)
    (hm : Ready m) : Returns (fun next _ => Progress f next) (step env run depth readOnly f) m := by
  apply returns_get
  split
  · exact returns_pure (UInt64.le_refl _)
  next op memorySize charge hprepare =>
    obtain ⟨-, hcharge, -⟩ := prepare_eq_ok hprepare
    obtain ⟨t, ht, htemp⟩ := exists_applyCharge m (charge_spec hp op hcharge).1
    have htready : Ready t := hm.runs (show Runs env m t from runs_applyCharge ht)
    refine returns_bind
      (P := fun _ u => Ready u ∧ u.callGasTemp = charge.callGas.getD m.callGasTemp)
      (returns_orPanic ⟨t, ht, htready, htemp⟩) ?_
    rintro _ u ⟨hu, hutemp⟩
    split
    · exact returns_pure (UInt64.le_refl _)
    next f₁ hgas =>
      obtain ⟨c, hc, rfl⟩ := map_eq_some_iff.mp hgas
      obtain ⟨rfl, hcost⟩ := useGas_eq_some hc
      have hleft : (f.contract.gas - charge.cost).toNat =
          f.contract.gas.toNat - charge.cost.toNat := UInt64.toNat_sub_of_le _ _ hcost
      rw [UInt64.le_iff_toNat_le] at hcost
      have hbound := f.contract.gas.toNat_lt
      -- the frame the instruction runs in: the price is paid and the memory has grown
      set g : Frame :=
        { f with
          contract := { f.contract with gas := f.contract.gas - charge.cost }
          memory := { f.memory.resize memorySize with lastGasCost := charge.lastGasCost } } with hg
      obtain ⟨hle, hlt⟩ := returnable_spec hp (show g.stack = f.stack from rfl) hcharge hutemp
      have hgas : g.contract.gas.toNat = f.contract.gas.toNat - charge.cost.toNat := hleft
      have hsound : g.Sound := ⟨hf.words, hf.value⟩
      show Returns _ (executeOp env run depth (operation op).execute g >>= fun res =>
        finishOp (operation op) res) u
      refine returns_bind (returns_executeOp hrun henv (fun o => keeps_operation op) hsound hu
        (by omega)) ?_
      rintro res v ⟨hres, hsame, hresgas⟩
      refine (returns_finishOp (operation op) res v).mono ?_
      rintro next w ⟨-, hnext⟩
      cases next with
      | inl f' =>
        obtain ⟨hhalts, hreverts, hcontract, hstack⟩ := hnext
        have hless := hlt hhalts hreverts
        refine ⟨⟨?_, ?_⟩, ?_, ?_⟩
        · rw [hstack]
          exact hres.words
        · rw [hcontract]
          exact hres.value
        · rw [Frame.SameCode, hcontract]
          exact hsame
        · rw [hcontract, UInt64.lt_iff_toNat_lt]
          omega
      | inr r =>
        show r.gas ≤ f.contract.gas
        rw [show r.gas = res.1.contract.gas from hnext, UInt64.le_iff_toNat_le]
        omega

theorem returns_loop (hsound : run.Sound env) (hp : env.params.Charges) (henv : env.Nonneg)
    (readOnly : Bool) (fuel : Nat) (hf : f.Sound) (hfuel : f.contract.gas.toNat < fuel)
    (hm : Ready m) :
    Returns (fun r _ => r.gas ≤ f.contract.gas) (loop env run depth readOnly fuel f) m := by
  induction fuel generalizing f m with
  | zero => exact absurd hfuel (Nat.not_lt_zero _)
  | succ fuel ih =>
    have hstep := (returns_step hrun hp henv readOnly hf hm).and_ends
      (ends_step hsound depth readOnly f m)
    refine returns_bind hstep ?_
    rintro next t ⟨hnext, hruns⟩
    cases next with
    | inl f' =>
      obtain ⟨hf', -, hless⟩ := hnext
      have hlt := UInt64.lt_iff_toNat_lt.mp hless
      refine (ih hf' (by omega) (hm.runs hruns)).mono fun r u hr => ?_
      exact UInt64.le_trans hr (UInt64.le_of_lt hless)
    | inr r => exact returns_pure hnext

end Frames

theorem total_interpret {env : Env} (hp : env.params.Charges) (henv : env.Nonneg)
    (fuel depth : Nat) (inReadOnly : Bool) (hdepth : depth ≤ env.params.callCreateDepth)
    (hfuel : 2 ^ 64 + (env.params.callCreateDepth + 1 - depth) ≤ fuel) :
    (runWith env (interpret env fuel) depth inReadOnly).Total := by
  induction fuel generalizing depth inReadOnly with
  | zero => omega
  | succ fuel ih =>
    intro c input readOnly m hc hvalue hm
    unfold runWith
    split
    · exact returns_runPrecompiledContract env _ input c hm
    · apply returns_modify_bind
      split
      · exact returns_pure (UInt64.le_refl _)
      · have hlt := c.gas.toNat_lt
        refine returns_loop ?_ (sound_interpret env fuel _ _) hp henv _ fuel
          ⟨Words.nil, hvalue⟩ (show c.gas.toNat < fuel by omega) (hm.of_system rfl)
        intro hdeeper
        exact ih (depth + 1) _ hdeeper (by omega)

theorem gasUsedOf_le (gasLimit leftOverGas : UInt64) :
    gasUsedOf gasLimit leftOverGas ≤ gasLimit := by
  unfold gasUsedOf
  split
  · exact UInt64.zero_le
  · next hle => exact sub_le_self_of_le (UInt64.not_lt.mp hle)

def Params.enoughFuel (p : Params) : Nat := 2 ^ 64 + (p.callCreateDepth + 1)

/-- Every transaction with a nonnegative value and gas price is executed to its end, and uses
at most the gas it offers. -/
theorem returns_execute {p : Params} (hp : p.Charges) (lib : Library) {fuel : Nat}
    (hfuel : p.enoughFuel ≤ fuel) {parentBlockInfo : BlockInfo}
    (hchain : 0 ≤ parentBlockInfo.chainID) {tx : SmartContractTx}
    (hvalue : 0 ≤ tx.sender.coins.tfuel) (hprice : 0 ≤ tx.gasPrice.getD 0) {m : Evm}
    (hm : Ready m) :
    Returns (fun r _ => r.gasUsed ≤ tx.gasLimit) (execute p lib fuel parentBlockInfo tx) m := by
  have hrun : (runWith (txEnv p lib parentBlockInfo tx)
      (interpret (txEnv p lib parentBlockInfo tx) fuel) 0 false).Total :=
    total_interpret hp ⟨hprice, hchain⟩ fuel 0 false (Nat.zero_le _) hfuel
  apply returns_get
  split
  · exact returns_pure UInt64.zero_le
  split
  · exact returns_pure UInt64.zero_le
  split
  · exact returns_pure UInt64.zero_le
  split
  · refine returns_bind (returns_create1 (fun _ => hrun) _ _ _ hvalue hm) ?_
    exact fun r t _ => returns_pure (gasUsedOf_le _ _)
  · refine returns_bind (returns_call (fun _ => hrun) _ _ _ _ hvalue hm) ?_
    exact fun r t _ => returns_pure (gasUsedOf_le _ _)

end Vm

end ThetaSubchain
