/-
What a static call can change (ledger/vm/vm.go, enforceRestrictions of ledger/vm/interpreter.go).

The interpreter refuses every instruction that writes in read-only mode.  Precompiled contracts are
dispatched before the interpreter: `burnTFuel` and `mintTFuel` change balances in read-only mode.
-/
import ThetaSubchain.Vm.Authority
import ThetaSubchain.Vm.Totality

namespace ThetaSubchain

open Option

namespace StoreView

variable {v sv sv' : StoreView} {addr : Address} {isNegative : Bool} {amount : Int}

/-- Nothing but TFuel has changed.  An account that does not exist counts as a new one. -/
structure Unwritten (v sv : StoreView) : Prop where
  account : ∀ a, (sv.getOrCreateAccount a).sequence = (v.getOrCreateAccount a).sequence ∧
    (sv.getOrCreateAccount a).codeHash = (v.getOrCreateAccount a).codeHash ∧
    (sv.getOrCreateAccount a).storage = (v.getOrCreateAccount a).storage
  code : sv.store.code = v.store.code
  logs : sv.logs = v.logs

theorem Unwritten.refl (v : StoreView) : Unwritten v v := ⟨fun _ => ⟨rfl, rfl, rfl⟩, rfl, rfl⟩

theorem Unwritten.trans (h : Unwritten v sv) (h' : Unwritten sv sv') : Unwritten v sv' := by
  refine ⟨fun a => ?_, h'.code.trans h.code, h'.logs.trans h.logs⟩
  obtain ⟨hseq, hcode, hstorage⟩ := h.account a
  obtain ⟨hseq', hcode', hstorage'⟩ := h'.account a
  exact ⟨hseq'.trans hseq, hcode'.trans hcode, hstorage'.trans hstorage⟩

theorem getOrCreateAccount_setAccount (sv : StoreView) (addr a : Address) (acc : Account) :
    (sv.setAccount addr acc).getOrCreateAccount a =
      if a = addr then acc else sv.getOrCreateAccount a := by
  rw [getOrCreateAccount, getAccount_setAccount]
  split <;> rfl

theorem Unwritten.setTFuel (h : Unwritten v sv) (addr : Address) (tfuel : Nat) :
    Unwritten v (sv.setAccount addr { sv.getOrCreateAccount addr with tfuelWei := tfuel }) := by
  refine ⟨fun a => ?_, h.code, h.logs⟩
  rw [getOrCreateAccount_setAccount]
  split
  · next heq =>
    subst heq
    exact h.account a
  · exact h.account a

theorem Unwritten.moved (h : Unwritten v sv) (hmoved : sv.Moved addr isNegative amount sv') :
    Unwritten v sv' := by
  obtain ⟨-, rfl⟩ | ⟨-, -, rfl⟩ := hmoved
  · exact h
  · have hset := h.setTFuel addr (sv.getBalance addr + signed isNegative amount).toNat
    exact ⟨hset.account, hset.code, hset.logs⟩

theorem Unwritten.createAccount (h : Unwritten v sv) (hnone : sv.getAccount addr = none) :
    Unwritten v (sv.createAccountWithPreviousBalance addr) := by
  have hnew : sv.getOrCreateAccount addr = Account.new addr := by
    rw [getOrCreateAccount, hnone]
    rfl
  have hset := h.setTFuel addr 0
  rw [hnew] at hset
  rw [createAccount_eq, hnew]
  exact hset

theorem getCode_eq (sv : StoreView) (a : Address) : sv.getCode a =
    if (sv.getOrCreateAccount a).codeHash = emptyCodeHash ∨
      (sv.getOrCreateAccount a).codeHash = suicidedCodeHash then []
    else sv.store.code (sv.getOrCreateAccount a).codeHash := by
  unfold getCode getOrCreateAccount
  cases sv.getAccount a with
  | none => exact (if_pos (.inl rfl)).symm
  | some acc =>
    dsimp only [getD_some]
    split
    · rfl
    · next hne =>
      rw [not_or] at hne
      exact if_neg hne.2

theorem getState_eq (sv : StoreView) (a : Address) (key : Hash) :
    sv.getState a key = (sv.getOrCreateAccount a).slot key := by
  unfold getState getOrCreateAccount
  cases sv.getAccount a with
  | none => rfl
  | some acc => rfl

def SameContracts (v sv : StoreView) : Prop :=
  (∀ a, sv.getNonce a = v.getNonce a ∧ sv.getCode a = v.getCode a ∧
    ∀ key, sv.getState a key = v.getState a key) ∧ sv.logs = v.logs

theorem Unwritten.getCode (h : Unwritten v sv) (a : Address) : sv.getCode a = v.getCode a := by
  rw [getCode_eq, getCode_eq, (h.account a).2.1, h.code]

theorem Unwritten.sameContracts (h : Unwritten v sv) : SameContracts v sv := by
  refine ⟨fun a => ⟨(h.account a).1, h.getCode a, fun key => ?_⟩, h.logs⟩
  rw [getState_eq, getState_eq, Account.slot, Account.slot, (h.account a).2.2]

end StoreView

namespace Vm

open Ending
open StoreView (Unwritten)

/-- The run of a precompiled contract moves no TFuel. -/
def PrecompileRun.Idle (r : PrecompileRun) : Prop :=
  ∀ a, r.after.getBalance a = r.before.getBalance a

/-- What is kept in read-only mode: only the precompiled contracts change balances. -/
structure Still (m m' : Evm) : Prop where
  unwritten : Unwritten m.stateDB m'.stateDB
  grown : m.trace <:+ m'.trace
  balance : AllSince (Event.OfRun PrecompileRun.Idle) m m' →
    ∀ a, m'.stateDB.getBalance a = m.stateDB.getBalance a

variable {m m' : Evm}

theorem Still.of_eq (hview : Unwritten m.stateDB m'.stateDB) (htrace : m'.trace = m.trace)
    (hbalance : ∀ a, m'.stateDB.getBalance a = m.stateDB.getBalance a) : Still m m' :=
  ⟨hview, htrace ▸ List.suffix_refl _, fun _ => hbalance⟩

theorem Still.refl (m : Evm) : Still m m := .of_eq (.refl _) rfl fun _ => rfl

theorem Still.trans {m₁ m₂ m₃ : Evm} (h : Still m₁ m₂) (h' : Still m₂ m₃) : Still m₁ m₃ := by
  refine ⟨h.unwritten.trans h'.unwritten, h.grown.trans h'.grown, fun hidle a => ?_⟩
  obtain ⟨hbefore, hafter⟩ := hidle.split h.grown h'.grown
  exact (h'.balance hafter a).trans (h.balance hbefore a)

instance : IsTrans Evm Still := ⟨fun _ _ _ => Still.trans⟩

theorem Still.emit (m : Evm) (e : Event) : Still m (m.emit e) :=
  ⟨.refl _, List.suffix_cons .., fun _ _ => rfl⟩

theorem Still.revert (h : Still m m') : Still m (m.revert m') :=
  ⟨⟨fun _ => ⟨rfl, rfl, rfl⟩, rfl, h.unwritten.logs⟩, h.grown.trans (List.suffix_cons ..),
    fun _ _ => rfl⟩

theorem still_precompile {env : Env} {p : Precompile} {input ret : Bytes} {callerAddr : Address}
    {err : Option VmError} (h : p.run env m input callerAddr = some (m', ret, err))
    {r : PrecompileRun} (hbefore : r.before = m.stateDB) (hafter : r.after = m'.stateDB) :
    Still m (m'.emit (.precompile r)) := by
  have hrun : Unwritten m.stateDB m'.stateDB ∧ m.trace <:+ m'.trace := by
    obtain rfl | ⟨-, -, _, _, v, -, hv, rfl⟩ | ⟨-, _, v, -, hv, rfl⟩ := precompile_run_eq_some h
    · exact ⟨.refl _, List.suffix_refl _⟩
    · exact ⟨(Unwritten.refl _).moved hv, List.suffix_cons ..⟩
    · exact ⟨(Unwritten.refl _).moved hv, List.suffix_cons ..⟩
  refine ⟨hrun.1, hrun.2.trans (List.suffix_cons ..), fun hidle => ?_⟩
  have hr : r.Idle := hidle.last hrun.2
  rw [PrecompileRun.Idle, hbefore, hafter] at hr
  exact hr

def Runner.Still (run : Runner) : Prop :=
  ∀ c input readOnly m, Ends (Vm.Still m) (run c input readOnly) m

theorem still_runPrecompiledContract (env : Env) (p : Precompile) (c : Contract) (input : Bytes)
    (m : Evm) : Ends (Still m) (runPrecompiledContract env p input c) m := by
  unfold Ends runPrecompiledContract
  cases c.useGas (p.requiredGas env input m.stateDB.getBlockHeight) with
  | none => exact .refl m
  | some c' =>
    cases hrun : p.run env m input c.callerAddress with
    | none => exact .refl m
    | some out => exact still_precompile hrun rfl rfl

section Frames

variable {env : Env} {run : Runner} {depth : Nat} (hrun : run.Still)
include hrun

theorem still_runFrame {start : Evm} (hm : Still start m) (c : Contract) (input : Bytes)
    (readOnly : Bool) : Ends (Still start) (runFrame run start c input readOnly) m := by
  have hbody : Ends (Still start) (run c input readOnly) m :=
    (hrun c input readOnly m).mono fun _ => hm.trans
  refine ends_bind hbody (fun _ h => h) fun r t ht => ?_
  split
  · exact ends_pure ht
  · exact show Still start (start.revert t) from ht.revert

theorem still_call (caller : ContractRef) (addr : Address) (input : Bytes) (gas : UInt64)
    (m : Evm) :
    Ends (Still m) (call env run depth caller addr input gas 0) m := by
  refine ends_call_of depth caller (fun _ h => h) (.refl m) (fun hnone => ?_) fun _ t u ht hu => ?_
  · exact .of_eq ((Unwritten.refl _).createAccount hnone) rfl
      (StoreView.getBalance_createAccount m.stateDB addr)
  · obtain ⟨w, w', hw, hw', rfl⟩ := transfer_eq_some hu
    obtain rfl := hw.eq_of_zero
    obtain rfl := hw'.eq_of_zero
    have hmoved := ht.trans (.emit t (.transfer caller.address addr 0))
    exact ⟨hmoved, still_runFrame hrun hmoved _ input false⟩

theorem still_callCode (caller : ContractRef) (addr : Address) (input : Bytes) (gas : UInt64)
    (value : Int) (m : Evm) :
    Ends (Still m) (callCode env run depth caller addr input gas value) m := by
  apply ends_get
  split
  · exact ends_pure (.refl m)
  split
  · exact ends_pure (.refl m)
  exact still_runFrame hrun (.refl m) _ input false

theorem still_delegateCall (caller : ContractRef) (addr : Address) (input : Bytes) (gas : UInt64)
    (m : Evm) : Ends (Still m) (delegateCall env run depth caller addr input gas) m := by
  apply ends_get
  split
  · exact ends_pure (.refl m)
  dsimp only
  split
  · exact still_runFrame hrun (.refl m) _ input false
  · exact ends_throw (.refl m)

theorem still_staticCall (caller : ContractRef) (addr : Address) (input : Bytes) (gas : UInt64)
    (m : Evm) : Ends (Still m) (staticCall env run depth caller addr input gas) m := by
  apply ends_get
  split
  · exact ends_pure (.refl m)
  · exact still_runFrame hrun (.refl m) _ input true

omit hrun in
theorem execute_of_not_writes {op : OpCode} (h : (operation op).writes = false) :
    (∃ o, (operation op).execute = .pure o) ∨ op = .call ∨ op = .callcode ∨
      op = .delegatecall ∨ op = .staticcall := by
  cases op with
  | sstore | log _ | create | create2 | selfdestruct => cases h
  | call => exact .inr (.inl rfl)
  | callcode => exact .inr (.inr (.inl rfl))
  | delegatecall => exact .inr (.inr (.inr (.inl rfl)))
  | staticcall => exact .inr (.inr (.inr (.inr rfl)))
  | _ => exact .inl ⟨_, rfl⟩

omit hrun in
theorem of_enforceRestrictions {op : OpCode} {stack : Stack}
    (h : enforceRestrictions true op stack = none) :
    (operation op).writes = false ∧ (op = .call → stack.back 2 = 0) := by
  unfold enforceRestrictions at h
  split at h
  · cases h
  next hnot =>
    simp only [true_and, not_or, Bool.not_eq_true, not_and, not_not] at hnot
    exact hnot

theorem still_executeOp {op : OpCode} {f : Frame} (hwrites : (operation op).writes = false)
    (hvalue : op = .call → f.stack.back 2 = 0) (m : Evm) :
    Ends (Still m) (executeOp env run depth (operation op).execute f) m := by
  rcases execute_of_not_writes hwrites with ⟨o, ho⟩ | rfl | rfl | rfl | rfl
  · rw [ho]
    apply ends_get
    split <;> exact ends_pure (.refl m)
  · refine ends_get (ends_bind (P := Still m) ?_ (fun _ h => h) fun _ _ => ends_pure)
    rw [hvalue rfl]
    exact still_call hrun ..
  · exact ends_get (ends_bind_pure (still_callCode hrun ..))
  · exact ends_get (ends_bind_pure (still_delegateCall hrun ..))
  · exact ends_get (ends_bind_pure (still_staticCall hrun ..))

theorem still_step (f : Frame) (m : Evm) : Ends (Still m) (step env run depth true f) m := by
  apply ends_get
  split
  · exact ends_pure (.refl m)
  next op memorySize charge hprepare =>
    obtain ⟨-, -, hallowed⟩ := prepare_eq_ok hprepare
    obtain ⟨hwrites, hvalue⟩ := of_enforceRestrictions hallowed
    have hcharge : Ends (Still m) (orPanic fun m => m.applyCharge charge) m := by
      apply ends_orPanic_of (.refl m)
      intro t ht
      rw [Evm.applyCharge, bind_eq_bind, bind_eq_some_iff] at ht
      obtain ⟨w, hw, ht⟩ := ht
      obtain ⟨refund, rfl⟩ := foldlM_applyRefund hw
      cases ht
      exact .of_eq ⟨fun _ => ⟨rfl, rfl, rfl⟩, rfl, rfl⟩ rfl fun _ => rfl
    refine ends_seq hcharge fun _ t => ?_
    split
    · exact ends_pure (.refl t)
    next f₁ hgas =>
      obtain ⟨c, hc, rfl⟩ := map_eq_some_iff.mp hgas
      refine ends_seq (still_executeOp hrun hwrites ?_ t) fun r u =>
        ends_finishOp_of _ r (.refl u) (.of_eq (.refl _) rfl fun _ => rfl)
      exact hvalue

theorem still_loop (fuel : Nat) (f : Frame) (m : Evm) :
    Ends (Still m) (loop env run depth true fuel f) m := by
  induction fuel generalizing f m with
  | zero => exact ends_throw (.refl m)
  | succ fuel ih =>
    refine ends_seq (still_step hrun f m) fun next t => ?_
    cases next with
    | inl f' => exact ih f' t
    | inr r => exact ends_pure (.refl t)

end Frames

theorem still_interpret (env : Env) (fuel depth : Nat) :
    (runWith env (interpret env fuel) depth true).Still := by
  induction fuel generalizing depth with
  | zero =>
    intro c input readOnly m
    unfold runWith
    split
    · exact still_runPrecompiledContract env _ c input m
    · exact ends_throw (.refl m)
  | succ fuel ih =>
    intro c input readOnly m
    unfold runWith
    split
    · exact still_runPrecompiledContract env _ c input m
    · refine ends_modify_seq (.of_eq (.refl _) rfl fun _ => rfl) ?_
      split
      · exact ends_pure (.refl _)
      · exact still_loop (ih (depth + 1)) fuel _ _

/-- A static call leaves the sequences, codes, storages and logs as they are, and the balances
too unless a precompiled contract moves TFuel below it. -/
theorem staticCall_readOnly (env : Env) (fuel depth : Nat) (inReadOnly : Bool)
    (caller : ContractRef) (addr : Address) (input : Bytes) (gas : UInt64) (m : Evm) :
    Ends (fun m' => m.stateDB.SameContracts m'.stateDB ∧ m.trace <:+ m'.trace ∧
        (AllSince (Event.OfRun PrecompileRun.Idle) m m' →
          ∀ a, m'.stateDB.getBalance a = m.stateDB.getBalance a))
      (staticCall env (runWith env (interpret env fuel) depth inReadOnly) depth caller addr input
        gas) m := by
  have hstatic : Ends (Still m)
      (staticCall env (runWith env (interpret env fuel) depth true) depth caller addr input gas) m :=
    still_staticCall (still_interpret env fuel depth) caller addr input gas m
  -- a static call turns read-only mode on
  have hmode : staticCall env (runWith env (interpret env fuel) depth inReadOnly) depth caller addr
      input gas = staticCall env (runWith env (interpret env fuel) depth true) depth caller addr
      input gas := by
    cases inReadOnly with
    | true => rfl
    | false => rfl
  rw [hmode]
  exact hstatic.mono fun _ h => ⟨h.unwritten.sameContracts, h.grown, h.balance⟩

def burnByCall : Bytes :=
  [0x60, 5, 0x60, 0, 0x52, 0x60, 0, 0x60, 0, 0x60, 32, 0x60, 0, 0x60, 0, 0x60, 183, 0x61, 0xff,
    0xff, 0xf1, 0x00]

def spendingMachine : Evm where
  stateDB :=
    { height := 1
      store :=
        { account := fun a =>
            if a = 7 then some { address := 7, tfuelWei := 1000 }
            else if a = 100 then some { address := 100, codeHash := 55, tfuelWei := 50 }
            else none
          code := fun h => if h = 55 then burnByCall else []
          validatorSet := some ⟨1, []⟩
          tfuelTokenBank := some 9 } }

def spendingEnv : Env := txEnv constantinopleParams plainLibrary ⟨1, 0, 1⟩ (callTx 100 [])

def staticBalances (caller addr : Address) (input : Bytes) :
    Option (Option VmError × List Int) :=
  match staticCall spendingEnv (runWith spendingEnv (interpret spendingEnv 40) 0 false) 0
    (.account caller) addr input 1000000 spendingMachine with
  | .ok r m => some (r.err, [7, 8, 100].map m.stateDB.getBalance)
  | .error _ _ => none

/-- A static call of `burnTFuel` burns for its caller, one of `mintTFuel` by the bank makes
TFuel for 8, and one of a contract lets it burn what it has. -/
theorem staticCall_moves_tfuel :
    [7, 8, 100].map spendingMachine.stateDB.getBalance = [1000, 0, 50] ∧
      staticBalances 7 183 (Rlp.fixedBytes 32 5) = some (none, [995, 0, 50]) ∧
      staticBalances 9 182 (Rlp.fixedBytes 20 8 ++ Rlp.fixedBytes 32 5) =
        some (none, [1000, 5, 50]) ∧
      staticBalances 7 100 [] = some (none, [1000, 0, 45]) := by
  decide +kernel

end Vm

end ThetaSubchain
