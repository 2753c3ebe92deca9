/-
What an execution of the machine can do: elementary changes, and frames that are reverted.
-/
import ThetaSubchain.Vm.Evm
import ThetaSubchain.Lib.Ending

namespace ThetaSubchain.Vm

open Ending Option Precompile Contract StoreView

/-- The caller a contract was built with: a delegate call takes over the caller of the
executing frame, every other call has the executing frame itself. -/
def Contract.WellBuilt (c : Contract) : Prop :=
  if c.kind = .delegateCall then
    ∃ address callerAddress value,
      c.caller = .contract address callerAddress value ∧ c.callerAddress = callerAddress
  else c.callerAddress = c.caller.address

def Vacant (v : StoreView) (addr : Address) : Prop :=
  v.getNonce addr = 0 ∧ (v.getCodeHash addr = 0 ∨ v.getCodeHash addr = emptyCodeHash)

inductive Runs (env : Env) : Evm → Evm → Prop where
  | refl (m : Evm) : Runs env m m
  | trans {a b c : Evm} : Runs env a b → Runs env b c → Runs env a c
  | quiet (m : Evm) (refund callGas : UInt64) (ret : Bytes) :
    Runs env m
      { m with
        stateDB := { m.stateDB with refund := refund }, callGasTemp := callGas, returnData := ret }
  | openAccount (m : Evm) (addr : Address) (h : Vacant m.stateDB addr) :
    Runs env m (m.setView (m.stateDB.createAccountWithPreviousBalance addr))
  | setNonce (m : Evm) (addr : Address) :
    Runs env m (m.setView (m.stateDB.setNonce addr (m.stateDB.getNonce addr + 1)))
  | setCode (m : Evm) (addr : Address) (code : Bytes) :
    Runs env m ((m.setView (m.stateDB.setCode env.lib.keccak addr code)).emit
      (.install addr (env.lib.keccak code)))
  | setState (m : Evm) (addr : Address) (key val : Hash) :
    Runs env m (m.setView (m.stateDB.setState addr key val))
  | log (m : Evm) (l : Log) : Runs env m ((m.setView (m.stateDB.addLog l)).emit (.log l))
  | transfer (m m' : Evm) (sender recipient : Address) (amount : Int)
      (h : m.transfer sender recipient amount = some m') : Runs env m m'
  | suicide (m m' : Evm) (self beneficiary : Address)
      (h : m.suicide self beneficiary = some m') : Runs env m m'
  | precompile (m m' : Evm) (c : Contract) (p : Precompile) (input ret : Bytes)
      (err : Option VmError) (hc : c.WellBuilt) (hp : precompiledContracts c.codeAddr = some p)
      (h : p.run env m input c.callerAddress = some (m', ret, err)) :
    Runs env m
      (m'.emit (.precompile
        { kind := c.kind
          executor := c.caller
          address := c.codeAddr
          callerAddr := c.callerAddress
          before := m.stateDB
          after := m'.stateDB }))
  | reverted (start m : Evm) (h : Runs env start m) : Runs env start (start.revert m)

variable {env : Env}

instance : IsTrans Evm (Runs env) := ⟨fun _ _ _ => Runs.trans⟩

theorem wellBuilt_new {kind : CallKind} (hkind : kind ≠ .delegateCall) (caller : ContractRef)
    (object : Address) (value : Int) (gas : UInt64) (codeAddr : Address) (code : Bytes) :
    (new kind caller object value gas codeAddr code).WellBuilt := by
  simp [Contract.WellBuilt, new, hkind]

theorem wellBuilt_asDelegate {caller : ContractRef} {object : Address} {value : Int}
    {gas : UInt64} {codeAddr : Address} {code : Bytes} {c : Contract}
    (h : (new .delegateCall caller object value gas codeAddr code).asDelegate = some c) :
    c.WellBuilt := by
  cases caller with
  | account a => simp [asDelegate, new] at h
  | contract a callerAddress v =>
    simp only [asDelegate, new, some.injEq] at h
    subst h
    exact ⟨a, callerAddress, v, rfl, rfl⟩

theorem ends_orPanic_of {P : Evm → Prop} {g : Evm → Option Evm} {m : Evm} (hm : P m)
    (h : ∀ m', g m = some m' → P m') : Ends P (orPanic g) m := by
  unfold Ends orPanic
  cases hg : g m with
  | some m' => exact h m' hg
  | none => exact hm

theorem ends_orPanic {g : Evm → Option Evm} {m : Evm}
    (h : ∀ m', g m = some m' → Runs env m m') : Ends (Runs env m) (orPanic g) m :=
  ends_orPanic_of (.refl m) h

theorem ends_runPrecompiledContract {p : Precompile} {c : Contract} (hc : c.WellBuilt)
    (hp : precompiledContracts c.codeAddr = some p) (input : Bytes) (m : Evm) :
    Ends (Runs env m) (runPrecompiledContract env p input c) m := by
  unfold Ends runPrecompiledContract
  cases c.useGas (p.requiredGas env input m.stateDB.getBlockHeight) with
  | none => exact .refl m
  | some c' =>
    cases hrun : p.run env m input c.callerAddress with
    | none => exact .refl m
    | some out => exact .precompile m out.1 c p input out.2.1 out.2.2 hc hp hrun

def Runner.Sound (env : Env) (run : Runner) : Prop :=
  ∀ c input readOnly m, c.WellBuilt → Ends (Runs env m) (run c input readOnly) m

section Frames

variable {run : Runner} (hrun : run.Sound env) (depth : Nat) (caller : ContractRef)
include hrun

theorem ends_runFrame {start m : Evm} (hm : Runs env start m) {c : Contract} (hc : c.WellBuilt)
    (input : Bytes) (readOnly : Bool) :
    Ends (Runs env start) (runFrame run start c input readOnly) m := by
  have hbody : Ends (Runs env start) (run c input readOnly) m :=
    (hrun c input readOnly m hc).mono fun _ => hm.trans
  apply ends_bind hbody (fun _ h => h)
  intro r t ht
  split
  · exact ends_pure ht
  · exact show Runs env start (start.revert t) from .reverted start t ht

omit hrun in
/-- A call: `P` holds before the value is moved, also where the account had to be made. -/
theorem ends_call_of {P Q : Evm → Prop} {addr : Address} {input : Bytes} {gas : UInt64}
    {value : Int} {m : Evm} (hPQ : ∀ t, P t → Q t) (hm : P m)
    (hopen : m.stateDB.getAccount addr = none →
      P (m.setView (m.stateDB.createAccountWithPreviousBalance addr)))
    (hframe : depth ≤ env.params.callCreateDepth → ∀ t u, P t →
      t.transfer caller.address addr value = some u → Q u ∧ Ends Q (runFrame run m
        (.new .call caller addr value gas addr (u.stateDB.getCode addr)) input false) u) :
    Ends Q (call env run depth caller addr input gas value) m := by
  apply ends_get
  split
  · exact ends_pure (hPQ m hm)
  next hdepth =>
    split
    · exact ends_pure (hPQ m hm)
    split
    · exact ends_pure (hPQ m hm)
    have hrest : ∀ t, P t → Ends Q (do
        orPanic fun m => m.transfer caller.address addr value
        let code := (← get).stateDB.getCode addr
        runFrame run m (.new .call caller addr value gas addr code) input false) t := by
      intro t ht
      refine ends_bind_of_ok (ends_orPanic_of (hPQ t ht) fun u hu =>
        (hframe (not_lt.mp hdepth) t u ht hu).1) (fun _ h => h) fun _ u hu _ => ?_
      unfold orPanic at hu
      split at hu
      · next hmoved =>
        cases hu
        exact ends_get (hframe (not_lt.mp hdepth) t u ht hmoved).2
      · cases hu
    cases hexist : m.stateDB.exist addr with
    | true => exact hrest m hm
    | false => exact hrest _ (hopen (by simpa [exist] using hexist))

variable (addr : Address)

theorem ends_call (input : Bytes) (gas : UInt64) (value : Int) (m : Evm) :
    Ends (Runs env m) (call env run depth caller addr input gas value) m := by
  refine ends_call_of depth caller (fun _ h => h) (.refl m) (fun hnone => ?_)
    fun _ t u ht hu => ?_
  · refine .openAccount m addr ?_
    simp [Vacant, getNonce, getCodeHash, getOrCreateAccount, hnone, Account.new]
  · have hmu : Runs env m u := ht.trans (.transfer t u _ _ _ hu)
    exact ⟨hmu, ends_runFrame hrun hmu (wellBuilt_new (by decide) ..) input false⟩

theorem ends_callCode (input : Bytes) (gas : UInt64) (value : Int) (m : Evm) :
    Ends (Runs env m) (callCode env run depth caller addr input gas value) m := by
  apply ends_get
  split
  · exact ends_pure (.refl m)
  split
  · exact ends_pure (.refl m)
  exact ends_runFrame hrun (.refl m) (wellBuilt_new (by decide) ..) input false

theorem ends_delegateCall (input : Bytes) (gas : UInt64) (m : Evm) :
    Ends (Runs env m) (delegateCall env run depth caller addr input gas) m := by
  apply ends_get
  split
  · exact ends_pure (.refl m)
  dsimp only
  split
  · next hc => exact ends_runFrame hrun (.refl m) (wellBuilt_asDelegate hc) input false
  · exact ends_throw (.refl m)

theorem ends_staticCall (input : Bytes) (gas : UInt64) (m : Evm) :
    Ends (Runs env m) (staticCall env run depth caller addr input gas) m := by
  apply ends_get
  split
  · exact ends_pure (.refl m)
  exact ends_runFrame hrun (.refl m) (wellBuilt_new (by decide) ..) input true

omit hrun in
theorem ends_storeCode (address : Address) (r : RunResult) (m : Evm) :
    Ends (Runs env m) (storeCode env address r) m := by
  unfold storeCode
  dsimp only
  split
  · exact ends_pure (.refl m)
  split
  · exact ends_pure (.refl m)
  · exact show Runs env m _ from .setCode m address r.ret

variable (code : Bytes) (gas : UInt64)

theorem ends_createFrame (value : Int) {address : Address}
    {m : Evm} (hvacant : Vacant m.stateDB address) :
    Ends (Runs env m) (createFrame env run caller code gas value address) m := by
  have hopen : Runs env m (m.setView (m.stateDB.createAccountWithPreviousBalance address)) :=
    .openAccount m address hvacant
  apply ends_get
  apply ends_bind (ends_modify hopen) (fun _ h => h)
  intro _ t ht
  apply ends_bind ((ends_orPanic fun m' => .transfer t m' _ _ _).mono fun _ => ht.trans)
    (fun _ h => h)
  intro _ t ht
  apply ends_bind ((hrun _ _ _ t (wellBuilt_new (by decide) ..)).mono fun _ => ht.trans)
    (fun _ h => h)
  intro r t ht
  apply ends_bind ((ends_storeCode address r t).mono fun _ => ht.trans) (fun _ h => h)
  intro r' t ht
  split
  · exact show Runs env m (m.revert t) from .reverted m t ht
  · exact ends_pure ht

theorem ends_create (value : Int) (address : Address) (m : Evm) :
    Ends (Runs env m) (create env run depth caller code gas value address) m := by
  apply ends_get
  split
  · exact ends_pure (.refl m)
  split
  · exact ends_pure (.refl m)
  apply ends_modify_seq (.setNonce m caller.address)
  apply ends_get
  dsimp only
  split
  · exact ends_pure (.refl _)
  · next hfree =>
    have hvacant : Vacant (m.stateDB.setNonce caller.address
        (m.stateDB.getNonce caller.address + 1)) address := by
      simp only [not_or, not_and, not_not, ne_eq] at hfree
      exact ⟨hfree.1, or_iff_not_imp_left.mpr hfree.2⟩
    exact ends_bind_pure (ends_createFrame hrun caller code gas value hvacant)

theorem ends_create1 (value : Int) (m : Evm) :
    Ends (Runs env m) (create1 env run depth caller code gas value) m :=
  ends_get (ends_create hrun depth caller code gas value _ m)

theorem ends_create2 (endowment salt : Int) (m : Evm) :
    Ends (Runs env m) (create2 env run depth caller code gas endowment salt) m :=
  ends_create hrun depth caller code gas endowment _ m

theorem ends_executeOp (e : Execute) (f : Frame) (m : Evm) :
    Ends (Runs env m) (executeOp env run depth e f) m := by
  cases e with
  | pure op =>
    apply ends_get
    split <;> exact ends_pure (.refl m)
  | sstore => exact show Runs env m _ from .setState ..
  | log n => exact show Runs env m _ from .log ..
  | suicide =>
    exact ends_bind_pure (ends_orPanic fun m' => .suicide m m' _ _)
  | create => exact ends_seq (ends_create1 hrun ..) fun _ t => ends_pure (.refl t)
  | create2 => exact ends_seq (ends_create2 hrun ..) fun _ t => ends_pure (.refl t)
  | call =>
    exact ends_get (ends_bind_pure (ends_call hrun ..))
  | callCode =>
    exact ends_get (ends_bind_pure (ends_callCode hrun ..))
  | delegateCall =>
    exact ends_get (ends_bind_pure (ends_delegateCall hrun ..))
  | staticCall =>
    exact ends_get (ends_bind_pure (ends_staticCall hrun ..))

omit hrun in
theorem foldlM_applyRefund {refunds : List RefundChange} {v v' : StoreView}
    (h : refunds.foldlM applyRefund v = some v') : ∃ refund, v' = { v with refund := refund } := by
  induction refunds generalizing v with
  | nil =>
    rw [List.foldlM_nil] at h
    exact ⟨v.refund, (some.inj h).symm⟩
  | cons c refunds ih =>
    rw [List.foldlM_cons, bind_eq_bind, bind_eq_some_iff] at h
    obtain ⟨w, hw, h⟩ := h
    have hw' : ∃ refund, w = { v with refund := refund } := by
      cases c with
      | add gas => exact ⟨_, (some.inj hw).symm⟩
      | sub gas =>
        simp only [applyRefund, subRefund] at hw
        split at hw
        · cases hw
        · exact ⟨_, (some.inj hw).symm⟩
    obtain ⟨r, rfl⟩ := hw'
    obtain ⟨r', hv'⟩ := ih h
    exact ⟨r', hv'⟩

omit hrun in
theorem runs_applyCharge {m m' : Evm} {charge : GasCharge} (h : m.applyCharge charge = some m') :
    Runs env m m' := by
  rw [Evm.applyCharge, bind_eq_bind, bind_eq_some_iff] at h
  obtain ⟨v, hv, h⟩ := h
  obtain ⟨refund, rfl⟩ := foldlM_applyRefund hv
  cases h
  exact .quiet m refund _ m.returnData

omit hrun in
def Finished (o : Operation) (r : OpResult) (m : Evm) (next : Frame ⊕ RunResult) (m' : Evm) :
    Prop :=
  (m' = m ∨ m' = { m with returnData := r.2.1 }) ∧
    match next with
    | .inl f => o.halts = false ∧ o.reverts = false ∧ f.contract = r.1.contract ∧
        f.stack = r.1.stack
    | .inr res => res.gas = r.1.contract.gas

omit hrun in
theorem returns_finishOp (o : Operation) (r : OpResult) (m : Evm) :
    Returns (Finished o r m) (finishOp o r) m := by
  have hrest : ∀ t, (t = m ∨ t = { m with returnData := r.2.1 }) → Returns (Finished o r m)
      (show EvmM (Frame ⊕ RunResult) from
        if r.2.2 ≠ none then pure (.inr ⟨[], r.1.contract.gas, r.2.2⟩)
        else if o.reverts then pure (.inr ⟨r.2.1, r.1.contract.gas, some .executionReverted⟩)
        else if o.halts then pure (.inr ⟨r.2.1, r.1.contract.gas, none⟩)
        else if o.jumps then pure (.inl r.1)
        else pure (.inl { r.1 with pc := r.1.pc + 1 })) t := by
    intro t ht
    split_ifs with herr hreverts hhalts hjumps
    · exact returns_pure ⟨ht, rfl⟩
    · exact returns_pure ⟨ht, rfl⟩
    · exact returns_pure ⟨ht, rfl⟩
    · exact returns_pure ⟨ht, by simpa using hhalts, by simpa using hreverts, rfl, rfl⟩
    · exact returns_pure ⟨ht, by simpa using hhalts, by simpa using hreverts, rfl, rfl⟩
  unfold finishOp
  dsimp only
  split
  · exact hrest _ (.inr rfl)
  · exact hrest m (.inl rfl)

omit hrun in
theorem ends_finishOp_of {P : Evm → Prop} (o : Operation) (r : OpResult) {m : Evm} (hm : P m)
    (hret : P { m with returnData := r.2.1 }) : Ends P (finishOp o r) m := by
  obtain ⟨next, m', h, hm', -⟩ := returns_finishOp o r m
  rw [Ends, h]
  rcases hm' with rfl | rfl
  · exact hm
  · exact hret

omit hrun in
theorem ends_finishOp (o : Operation) (r : OpResult) (m : Evm) :
    Ends (Runs env m) (finishOp o r) m :=
  ends_finishOp_of o r (.refl m) (.quiet m m.stateDB.refund m.callGasTemp r.2.1)

theorem ends_step (readOnly : Bool) (f : Frame) (m : Evm) :
    Ends (Runs env m) (step env run depth readOnly f) m := by
  apply ends_get
  split
  · exact ends_pure (.refl m)
  · next op memorySize charge _ =>
    apply ends_seq (ends_orPanic fun _ => runs_applyCharge)
    intro _ t
    split
    · exact ends_pure (.refl t)
    · exact ends_seq (ends_executeOp hrun depth _ _ t) fun _ u => ends_finishOp _ _ u

theorem ends_loop (readOnly : Bool) (fuel : Nat) (f : Frame) (m : Evm) :
    Ends (Runs env m) (loop env run depth readOnly fuel f) m := by
  induction fuel generalizing f m with
  | zero => exact ends_throw (.refl m)
  | succ fuel ih =>
    apply ends_seq (ends_step hrun depth readOnly f m)
    intro next t
    cases next with
    | inl f' => exact ih f' t
    | inr r => exact ends_pure (.refl t)

end Frames

theorem sound_interpret (env : Env) (fuel depth : Nat) (inReadOnly : Bool) :
    (runWith env (interpret env fuel) depth inReadOnly).Sound env := by
  induction fuel generalizing depth inReadOnly with
  | zero =>
    intro c input readOnly m hc
    unfold runWith
    split
    · next hp => exact ends_runPrecompiledContract hc hp input m
    · exact ends_throw (.refl m)
  | succ fuel ih =>
    intro c input readOnly m hc
    unfold runWith
    split
    · next hp => exact ends_runPrecompiledContract hc hp input m
    · apply ends_modify_seq (.quiet m m.stateDB.refund m.callGasTemp [])
      split
      · exact ends_pure (.refl _)
      · exact ends_loop (ih _ _) _ _ _ _ _

theorem ends_execute (p : Params) (lib : Library) (fuel : Nat) (parentBlockInfo : BlockInfo)
    (tx : SmartContractTx) (m : Evm) :
    Ends (Runs (txEnv p lib parentBlockInfo tx) m) (execute p lib fuel parentBlockInfo tx) m := by
  have hrun := sound_interpret (txEnv p lib parentBlockInfo tx) fuel 0 false
  apply ends_get
  split
  · exact ends_pure (.refl m)
  split
  · exact ends_pure (.refl m)
  split
  · exact ends_pure (.refl m)
  split
  · exact ends_seq (ends_create1 hrun ..) fun _ t => ends_pure (.refl t)
  · exact ends_bind_pure (ends_call hrun ..)

/-! ## The changes of the balances

What a transfer, a self-destruct and the precompiled contracts do when they return. -/

variable {m m' : Evm}

theorem transfer_eq_some {sender recipient : Address} {amount : Int}
    (h : m.transfer sender recipient amount = some m') :
    ∃ v w, m.stateDB.Moved sender true amount v ∧ v.Moved recipient false amount w ∧
      m' = (m.setView w).emit (.transfer sender recipient amount) := by
  rw [Evm.transfer, bind_eq_bind, bind_eq_some_iff] at h
  obtain ⟨v, hv, h⟩ := h
  rw [bind_eq_some_iff] at h
  obtain ⟨w, hw, h⟩ := h
  cases h
  exact ⟨v, w, moved_subBalance hv, moved_addBalance hw, rfl⟩

theorem suicide_eq_some {self beneficiary : Address} (h : m.suicide self beneficiary = some m') :
    ∃ v, m.stateDB.Moved beneficiary false (m.stateDB.getBalance self) v ∧
      m' = (m.setView (v.suicide self)).emit
        (.selfdestruct self beneficiary (m.stateDB.getBalance self)
          ((v.getAccount self).map Account.tfuelWei)) := by
  rw [Evm.suicide, bind_eq_bind, bind_eq_some_iff] at h
  obtain ⟨v, hv, h⟩ := h
  cases h
  exact ⟨v, moved_addBalance hv, rfl⟩

variable {callerAddr : Address} {err : Option VmError} {input ret : Bytes}

theorem runMintTFuel_eq_some (h : runMintTFuel m input callerAddr = some (m', ret, err)) :
    m' = m ∨ m.stateDB.getTFuelTokenBankContractAddress = some callerAddr ∧
      ∃ recipient amount v, 0 ≤ amount ∧ m.stateDB.Moved recipient false amount v ∧
        m' = (m.setView v).emit (.mint recipient amount) := by
  rw [runMintTFuel, bind_eq_bind, bind_eq_some_iff] at h
  obtain ⟨privileged, hp, h⟩ := h
  obtain ⟨bank, hbank, rfl⟩ := map_eq_some_iff.mp hp
  split at h
  · next hbeq =>
    rw [bind_eq_bind, bind_eq_some_iff] at h
    obtain ⟨v, hv, h⟩ := h
    cases h
    have hcaller : callerAddr = bank := by simpa using hbeq
    exact .inr ⟨hcaller ▸ hbank, _, _, v, Int.natCast_nonneg _, moved_addBalance hv, rfl⟩
  · cases h
    exact .inl rfl

theorem runBurnTFuel_eq_some (h : runBurnTFuel m input callerAddr = some (m', ret, err)) :
    m' = m ∨ ∃ amount v, (0 ≤ amount ∧ amount ≤ m.stateDB.getBalance callerAddr) ∧
      m.stateDB.Moved callerAddr true amount v ∧
      m' = (m.setView v).emit (.burn callerAddr amount) := by
  unfold runBurnTFuel at h
  dsimp only at h
  split at h
  · next hle =>
    rw [bind_eq_bind, bind_eq_some_iff] at h
    obtain ⟨v, hv, h⟩ := h
    cases h
    have hnonneg : 0 ≤ ofBytes (getData input 0 32) := Int.natCast_nonneg _
    exact .inr ⟨_, v, ⟨hnonneg, by simpa [Evm.canTransfer] using hle⟩, moved_subBalance hv, rfl⟩
  · cases h
    exact .inl rfl

theorem precompile_run_eq_some {env : Env} {p : Precompile}
    (h : p.run env m input callerAddr = some (m', ret, err)) :
    m' = m ∨
      p = .mintTFuel ∧ m.stateDB.getTFuelTokenBankContractAddress = some callerAddr ∧
        (∃ recipient amount v, 0 ≤ amount ∧ m.stateDB.Moved recipient false amount v ∧
          m' = (m.setView v).emit (.mint recipient amount)) ∨
      p = .burnTFuel ∧ ∃ amount v, (0 ≤ amount ∧ amount ≤ m.stateDB.getBalance callerAddr) ∧
        m.stateDB.Moved callerAddr true amount v ∧
        m' = (m.setView v).emit (.burn callerAddr amount) := by
  cases p with
  | native n =>
    simp only [run, runNative] at h
    split at h <;> (cases h; exact .inl rfl)
  | dynasty =>
    rw [run, runDynasty, bind_eq_bind, bind_eq_some_iff] at h
    obtain ⟨_, _, h⟩ := h
    cases h
    exact .inl rfl
  | validatorSet =>
    simp only [run, runValidatorSet] at h
    split at h <;> (cases h; exact .inl rfl)
  | mintTFuel =>
    obtain hm | ⟨hbank, hmint⟩ := runMintTFuel_eq_some h
    · exact .inl hm
    · exact .inr (.inl ⟨rfl, hbank, hmint⟩)
  | burnTFuel =>
    obtain hm | hburn := runBurnTFuel_eq_some h
    · exact .inl hm
    · exact .inr (.inr ⟨rfl, hburn⟩)

/-- A relation between views that every change of a view keeps to. -/
structure ViewRel (lib : Library) (R : StoreView → StoreView → Prop) : Prop where
  trans : ∀ {u v w}, R u v → R v w → R u w
  refund : ∀ v refund, R v { v with refund := refund }
  openAccount : ∀ {v addr}, Vacant v addr → R v (v.createAccountWithPreviousBalance addr)
  setNonce : ∀ v addr, R v (v.setNonce addr (v.getNonce addr + 1))
  setCode : ∀ v addr code, R v (v.setCode lib.keccak addr code)
  setState : ∀ v addr key val, R v (v.setState addr key val)
  addLog : ∀ v l, R v (v.addLog l)
  moved : ∀ {v addr isNegative amount v'}, v.Moved addr isNegative amount v' → R v v'
  suicide : ∀ v addr, R v (v.suicide addr)
  revert : ∀ {v v'}, R v v' → R v (v'.revertToSnapshot v.snapshot)

theorem ViewRel.runs {R : StoreView → StoreView → Prop} (hR : ViewRel env.lib R)
    (h : Runs env m m') : R m.stateDB m'.stateDB := by
  induction h with
  | refl m => exact hR.refund _ m.stateDB.refund
  | trans _ _ ih₁ ih₂ => exact hR.trans ih₁ ih₂
  | quiet m refund => exact hR.refund _ refund
  | openAccount m addr h => exact hR.openAccount h
  | setNonce m addr => exact hR.setNonce _ addr
  | setCode m addr code => exact hR.setCode _ addr code
  | setState m addr key val => exact hR.setState _ addr key val
  | log m l => exact hR.addLog _ l
  | transfer m m' sender recipient amount h =>
    obtain ⟨v, w, hv, hw, rfl⟩ := transfer_eq_some h
    exact hR.trans (hR.moved hv) (hR.moved hw)
  | suicide m m' self beneficiary h =>
    obtain ⟨v, hv, rfl⟩ := suicide_eq_some h
    exact hR.trans (hR.moved hv) (hR.suicide v self)
  | precompile m m' c p input ret err hc hp h =>
    show R m.stateDB m'.stateDB
    obtain rfl | ⟨-, -, _, _, v, -, hv, rfl⟩ | ⟨-, _, v, -, hv, rfl⟩ := precompile_run_eq_some h
    · exact hR.refund _ m'.stateDB.refund
    · exact hR.moved hv
    · exact hR.moved hv
  | reverted start m _ ih => exact hR.revert ih

end ThetaSubchain.Vm
