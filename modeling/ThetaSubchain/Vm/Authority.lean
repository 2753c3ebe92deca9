/-
Whom the privileged precompiled contracts act for: the address that `Run` is told, which after a
delegate call is the caller of the frame.
-/
import ThetaSubchain.Vm.Runs

namespace ThetaSubchain.Vm

open Ending

def mintTFuelAddress : Address := 182
def burnTFuelAddress : Address := 183

def ContractRef.callerAddress : ContractRef → Address
  | .account a => a
  | .contract _ callerAddress _ => callerAddress

namespace PrecompileRun

/-- `Run` was told the executing frame, TFuel is minted only if that frame runs as the
token bank, and a burn debits only that frame's account. -/
structure Authorized (r : PrecompileRun) : Prop where
  caller : r.callerAddr = r.executor.address
  mint : r.address = mintTFuelAddress → ∀ a, r.after.getBalance a ≠ r.before.getBalance a →
    r.before.getTFuelTokenBankContractAddress = some r.executor.address
  burn : r.address = burnTFuelAddress → ∀ a, r.after.getBalance a ≠ r.before.getBalance a →
    a = r.executor.address

/-- The run was not reached by a delegate call, unless from a frame that is its own
caller. -/
def NotDelegated (r : PrecompileRun) : Prop :=
  r.kind = .delegateCall → r.executor.callerAddress = r.executor.address

structure Told (r : PrecompileRun) : Prop where
  caller : r.callerAddr =
    if r.kind = .delegateCall then r.executor.callerAddress else r.executor.address
  mint : r.address = mintTFuelAddress → ∀ a, r.after.getBalance a ≠ r.before.getBalance a →
    r.before.getTFuelTokenBankContractAddress = some r.callerAddr
  burn : r.address = burnTFuelAddress → ∀ a, r.after.getBalance a ≠ r.before.getBalance a →
    a = r.callerAddr

theorem Told.authorized_iff {r : PrecompileRun} (h : r.Told) : r.Authorized ↔ r.NotDelegated := by
  constructor
  · intro ha hkind
    rw [← ha.caller, h.caller, if_pos hkind]
  · intro hn
    have hcaller : r.callerAddr = r.executor.address := by
      rw [h.caller]
      split
      · next hkind => exact hn hkind
      · rfl
    exact ⟨hcaller, fun hr a ha => hcaller ▸ h.mint hr a ha, fun hr a ha => hcaller ▸ h.burn hr a ha⟩

end PrecompileRun

theorem Contract.WellBuilt.callerAddress_eq {c : Contract} (h : c.WellBuilt) :
    c.callerAddress =
      if c.kind = .delegateCall then c.caller.callerAddress else c.caller.address := by
  unfold Contract.WellBuilt at h
  split at h
  · next hkind =>
    obtain ⟨address, callerAddress, value, hcaller, hc⟩ := h
    rw [if_pos hkind, hc, hcaller]
    rfl
  · next hkind => rw [if_neg hkind, h]

theorem precompiledContracts_mint : precompiledContracts mintTFuelAddress = some .mintTFuel := by
  decide

theorem precompiledContracts_burn : precompiledContracts burnTFuelAddress = some .burnTFuel := by
  decide

/-- Every event since `start` satisfies `P`, also in frames that were reverted. -/
def AllSince (P : Event → Prop) (start m : Evm) : Prop :=
  ∀ new, m.trace = new ++ start.trace → ∀ e ∈ new, P e

def Event.OfRun (P : PrecompileRun → Prop) : Event → Prop
  | .precompile r => P r
  | _ => True

theorem AllSince.split {P : Event → Prop} {m₁ m₂ m₃ : Evm} (h : AllSince P m₁ m₃)
    (h₁₂ : m₁.trace <:+ m₂.trace) (h₂₃ : m₂.trace <:+ m₃.trace) :
    AllSince P m₁ m₂ ∧ AllSince P m₂ m₃ := by
  obtain ⟨old, hold⟩ := h₁₂
  obtain ⟨new, hnew⟩ := h₂₃
  have hall := h (new ++ old) (by rw [List.append_assoc, hold, hnew])
  constructor
  · intro old' hold' e he
    obtain rfl := List.append_cancel_right (hold.trans hold')
    exact hall e (List.mem_append_right _ he)
  · intro new' hnew' e he
    obtain rfl := List.append_cancel_right (hnew.trans hnew')
    exact hall e (List.mem_append_left _ he)

variable {m m' : Evm}

theorem AllSince.last {P : Event → Prop} {e : Event} (h : AllSince P m (m'.emit e))
    (hgrown : m.trace <:+ m'.trace) : P e := by
  obtain ⟨new, hnew⟩ := hgrown
  refine h (e :: new) ?_ e (.head _)
  rw [List.cons_append, hnew]
  rfl

theorem told_of_run {env : Env} {c : Contract} {p : Precompile} {input ret : Bytes}
    {err : Option VmError} (hc : c.WellBuilt) (hp : precompiledContracts c.codeAddr = some p)
    (h : p.run env m input c.callerAddress = some (m', ret, err)) :
    PrecompileRun.Told
      { kind := c.kind
        executor := c.caller
        address := c.codeAddr
        callerAddr := c.callerAddress
        before := m.stateDB
        after := m'.stateDB } := by
  refine ⟨hc.callerAddress_eq, ?_, ?_⟩
  · intro haddr a ha
    have hmint : p = .mintTFuel :=
      Option.some.inj (hp.symm.trans ((congrArg _ haddr).trans precompiledContracts_mint))
    obtain rfl | ⟨-, hbank, -⟩ | ⟨hburn, -⟩ := precompile_run_eq_some h
    · exact absurd rfl ha
    · exact hbank
    · exact absurd (hmint.symm.trans hburn) (by decide)
  · intro haddr a ha
    have hburn : p = .burnTFuel :=
      Option.some.inj (hp.symm.trans ((congrArg _ haddr).trans precompiledContracts_burn))
    obtain rfl | ⟨hmint, -⟩ | ⟨-, amount, v, -, hsub, rfl⟩ := precompile_run_eq_some h
    · exact absurd rfl ha
    · exact absurd (hburn.symm.trans hmint) (by decide)
    · by_contra hne
      have hsame := hsub.getBalance a
      rw [if_neg hne, Int.add_zero] at hsame
      exact ha hsame

def AllTold (m : Evm) : Prop := ∀ r, .precompile r ∈ m.trace → r.Told

theorem AllTold.cons {e : Event} (hm : AllTold m) (ht : m'.trace = e :: m.trace)
    (he : ∀ r, e = .precompile r → r.Told) : AllTold m' := by
  intro r hr
  rw [ht] at hr
  rcases List.mem_cons.mp hr with h | h
  · exact he r h.symm
  · exact hm r h

theorem AllTold.runs {env : Env} (h : Runs env m m') (hm : AllTold m) : AllTold m' := by
  induction h with
  | refl => exact hm
  | trans _ _ ih₁ ih₂ => exact ih₂ (ih₁ hm)
  | quiet => exact hm
  | openAccount => exact hm
  | setNonce => exact hm
  | setCode => exact hm.cons rfl (by simp)
  | setState => exact hm
  | log => exact hm.cons rfl (by simp)
  | transfer m m' sender recipient amount h =>
    obtain ⟨v, w, -, -, rfl⟩ := transfer_eq_some h
    exact hm.cons rfl (by simp)
  | suicide m m' self beneficiary h =>
    obtain ⟨v, -, rfl⟩ := suicide_eq_some h
    exact hm.cons rfl (by simp)
  | precompile m m' c p input ret err hc hp h =>
    have hm' : AllTold m' := by
      obtain rfl | ⟨-, -, _, _, v, -, -, rfl⟩ | ⟨-, amount, v, -, -, rfl⟩ :=
        precompile_run_eq_some h
      · exact hm
      · exact hm.cons rfl (by simp)
      · exact hm.cons rfl (by simp)
    apply hm'.cons rfl
    intro r hr
    cases hr
    exact told_of_run hc hp h
  | reverted start m _ ih => exact (ih hm).cons rfl (by simp)

/-- In every execution, a run of a precompiled contract acts for the frame or account that
executed the call exactly if it was not reached by a delegate call from a frame with
another caller. -/
theorem authorized_iff_notDelegated (p : Params) (lib : Library) (fuel : Nat)
    (parentBlockInfo : BlockInfo) (tx : SmartContractTx) (view : StoreView) :
    Ends (fun m => ∀ r, .precompile r ∈ m.trace → (r.Authorized ↔ r.NotDelegated))
      (execute p lib fuel parentBlockInfo tx) { stateDB := view } := by
  have hstart : AllTold { stateDB := view } := by
    intro r hr
    cases hr
  have hrun := ends_execute p lib fuel parentBlockInfo tx { stateDB := view }
  exact hrun.mono fun m hm r hr => (hstart.runs hm r hr).authorized_iff

def delegatingView (code : Bytes) : StoreView where
  height := 1
  store :=
    { account := fun a =>
        if a = 7 then some { address := 7, tfuelWei := 1000 }
        else if a = 100 then some { address := 100, codeHash := 55 }
        else none
      code := fun h => if h = 55 then code else []
      tfuelTokenBank := some 9 }

def callTx (target : Address) (data : Bytes) : SmartContractTx where
  sender := { address := 7 }
  toAddress := target
  gasLimit := 1000000
  gasPrice := some 0
  data := data

def executed (view : StoreView) (tx : SmartContractTx) : Evm :=
  match execute constantinopleParams plainLibrary 40 ⟨1, 0, 1⟩ tx { stateDB := view } with
  | .ok _ m => m
  | .error _ m => m

def burnByDelegateCall : Bytes :=
  [0x60, 5, 0x60, 0, 0x52, 0x60, 0, 0x60, 0, 0x60, 32, 0x60, 0, 0x60, 183, 0x61, 0xff, 0xff,
    0xf4, 0x00]

/-- The contract 100 executes the call, but `Run` is told the account 7 that called the
contract, and its TFuel is burnt. -/
theorem burn_debits_caller_of_delegating_frame :
    ∃ r, .precompile r ∈ (executed (delegatingView burnByDelegateCall) (callTx 100 [])).trace ∧
      r.address = burnTFuelAddress ∧ r.executor.address = 100 ∧ r.callerAddr = 7 ∧
      r.before.getBalance 7 = 1000 ∧ r.after.getBalance 7 = 995 ∧ ¬ r.Authorized := by
  have hany : (executed (delegatingView burnByDelegateCall) (callTx 100 [])).trace.any (fun
      | .precompile r =>
        r.address == burnTFuelAddress && r.executor.address == 100 && r.callerAddr == 7 &&
          r.before.getBalance 7 == 1000 && r.after.getBalance 7 == 995
      | _ => false) = true := by decide +kernel
  obtain ⟨e, he, hr⟩ := List.any_eq_true.mp hany
  cases e with
  | precompile r =>
    simp only [Bool.and_eq_true, beq_iff_eq] at hr
    obtain ⟨⟨⟨⟨haddr, hexec⟩, hcaller⟩, hbefore⟩, hafter⟩ := hr
    refine ⟨r, he, haddr, hexec, hcaller, hbefore, hafter, fun ha => ?_⟩
    exact absurd (hcaller.symm.trans (ha.caller.trans hexec)) (by decide)
  | _ => cases hr

end ThetaSubchain.Vm
