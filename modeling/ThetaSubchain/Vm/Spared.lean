/-
What an execution leaves of the account that sent the transaction.

TFuel leaves an account by a transfer or a self-destruct of a frame that runs as it, or by
`burnTFuel` on behalf of its caller.  An account without code never runs a frame.
-/
import ThetaSubchain.Vm.Authority
import ThetaSubchain.Vm.Totality

namespace ThetaSubchain

open Option

/-- The account at `a` keeps its sequence and its code and loses at most `loss` of TFuel. -/
def StoreView.Spares (a : Address) (loss : Int) (sv sv' : StoreView) : Prop :=
  ∀ acc, sv.getAccount a = some acc → ∃ acc', sv'.getAccount a = some acc' ∧
    acc'.sequence = acc.sequence ∧ acc'.codeHash = acc.codeHash ∧
    (acc.tfuelWei : Int) ≤ acc'.tfuelWei + loss

namespace StoreView

variable {a addr : Address} {sv sv' sv'' : StoreView} {isNegative : Bool} {amount loss : Int}

theorem Spares.of_getAccount (h : sv'.getAccount a = sv.getAccount a) (hloss : 0 ≤ loss) :
    Spares a loss sv sv' :=
  fun acc hacc => ⟨acc, h.trans hacc, rfl, rfl, by omega⟩

theorem Spares.refl (a : Address) (sv : StoreView) (hloss : 0 ≤ loss) : Spares a loss sv sv :=
  .of_getAccount rfl hloss

theorem spares_setAccount (hne : addr ≠ a) (acc : Account) (hloss : 0 ≤ loss) :
    Spares a loss sv (sv.setAccount addr acc) :=
  .of_getAccount ((getAccount_setAccount ..).trans (if_neg (Ne.symm hne))) hloss

theorem Moved.spares (h : sv.Moved addr isNegative amount sv')
    (hmove : addr ≠ a ∨ -loss ≤ signed isNegative amount) (hloss : 0 ≤ loss) :
    Spares a loss sv sv' := by
  obtain ⟨-, rfl⟩ | ⟨-, hnonneg, rfl⟩ := h
  · exact .refl a _ hloss
  · rcases hmove with hne | hmove
    · exact spares_setAccount hne _ hloss
    · by_cases hne : addr = a
      · subst hne
        intro acc hacc
        obtain rfl := getOrCreateAccount_of_some hacc
        refine ⟨_, (getAccount_setAccount ..).trans (if_pos rfl), rfl, rfl, ?_⟩
        show sv.getBalance addr ≤ ((sv.getBalance addr + signed isNegative amount).toNat : Int) + loss
        omega
      · exact spares_setAccount hne _ hloss

theorem spares_createAccount (hne : addr ≠ a ∨ sv.getAccount addr = none) :
    Spares a 0 sv (sv.createAccountWithPreviousBalance addr) := by
  intro acc hacc
  have hne : addr ≠ a := by
    rcases hne with hne | hnone
    · exact hne
    · rintro rfl
      rw [hnone] at hacc
      cases hacc
  rw [createAccount_eq]
  exact spares_setAccount hne _ le_rfl acc hacc

theorem spares_suicide (hne : addr ≠ a) : Spares a 0 sv (sv.suicide addr) := by
  unfold suicide
  split
  · exact .refl a sv le_rfl
  · exact spares_setAccount hne _ le_rfl

end StoreView

namespace Vm

open Ending
open StoreView (Spares)

def PrecompileRun.Spares (a : Address) (r : PrecompileRun) : Prop :=
  r.before.getBalance a ≤ r.after.getBalance a

/-- The account at `a` keeps its sequence and its code, and it loses at most `loss` of TFuel
unless a precompiled contract takes some. -/
def Spared (a : Address) (loss : Int) (m m' : Evm) : Prop :=
  m.trace <:+ m'.trace ∧ ∀ acc, m.stateDB.getAccount a = some acc →
    ∃ acc', m'.stateDB.getAccount a = some acc' ∧ acc'.sequence = acc.sequence ∧
      acc'.codeHash = acc.codeHash ∧ (AllSince (Event.OfRun (PrecompileRun.Spares a)) m m' →
        (acc.tfuelWei : Int) ≤ acc'.tfuelWei + loss)

def Plain (a : Address) (m : Evm) : Prop :=
  ∃ acc, m.stateDB.getAccount a = some acc ∧ acc.codeHash = emptyCodeHash

variable {a : Address} {m m' : Evm} {loss : Int}

theorem Spared.of_spares (hgrown : m.trace <:+ m'.trace)
    (h : Spares a loss m.stateDB m'.stateDB) : Spared a loss m m' := by
  refine ⟨hgrown, fun acc hacc => ?_⟩
  obtain ⟨acc', hacc', hseq, hcode, hle⟩ := h acc hacc
  exact ⟨acc', hacc', hseq, hcode, fun _ => hle⟩

theorem Spared.of_view {v : StoreView} (h : Spares a loss m.stateDB v) :
    Spared a loss m (m.setView v) :=
  .of_spares (List.suffix_refl _) h

theorem Spared.refl (a : Address) (m : Evm) (hloss : 0 ≤ loss) : Spared a loss m m :=
  .of_spares (List.suffix_refl _) (Spares.refl a m.stateDB hloss)

theorem Spared.add {m₁ m₂ m₃ : Evm} {loss' : Int} (h₁ : Spared a loss m₁ m₂)
    (h₂ : Spared a loss' m₂ m₃) : Spared a (loss + loss') m₁ m₃ := by
  refine ⟨h₁.1.trans h₂.1, fun acc hacc => ?_⟩
  obtain ⟨acc', hacc', hseq, hcode, hle⟩ := h₁.2 acc hacc
  obtain ⟨acc'', hacc'', hseq', hcode', hle'⟩ := h₂.2 acc' hacc'
  refine ⟨acc'', hacc'', hseq'.trans hseq, hcode'.trans hcode, fun hall => ?_⟩
  obtain ⟨hbefore, hafter⟩ := hall.split h₁.1 h₂.1
  have := hle hbefore
  have := hle' hafter
  omega

theorem Spared.trans {m₁ m₂ m₃ : Evm} (h₁ : Spared a loss m₁ m₂) (h₂ : Spared a 0 m₂ m₃) :
    Spared a loss m₁ m₃ :=
  add_zero loss ▸ h₁.add h₂

theorem Spared.before {m₁ m₂ m₃ : Evm} (h₁ : Spared a 0 m₁ m₂) (h₂ : Spared a loss m₂ m₃) :
    Spared a loss m₁ m₃ :=
  zero_add loss ▸ h₁.add h₂

instance : IsTrans Evm (Spared a 0) := ⟨fun _ _ _ => Spared.trans⟩

theorem Spared.revert (h : Spared a loss m m') (hloss : 0 ≤ loss) : Spared a loss m (m.revert m') :=
  .of_spares (h.1.trans (List.suffix_cons ..)) (Spares.refl a m.stateDB hloss)

theorem Plain.spared (hm : Plain a m) (h : Spared a loss m m') : Plain a m' := by
  obtain ⟨acc, hacc, hcode⟩ := hm
  obtain ⟨acc', hacc', -, hcode', -⟩ := h.2 acc hacc
  exact ⟨acc', hacc', hcode'.trans hcode⟩

theorem Plain.getCode (hm : Plain a m) : m.stateDB.getCode a = [] := by
  obtain ⟨acc, hacc, hcode⟩ := hm
  rw [StoreView.getCode, hacc]
  exact if_pos (.inl hcode)

theorem spared_transfer {sender recipient : Address} {amount : Int}
    (h : m.transfer sender recipient amount = some m') (hamount : 0 ≤ amount)
    (hsender : sender ≠ a ∨ amount ≤ loss) (hloss : 0 ≤ loss) : Spared a loss m m' := by
  obtain ⟨v, w, hv, hw, rfl⟩ := transfer_eq_some h
  have htaken : Spared a loss m (m.setView v) :=
    .of_view (hv.spares (hsender.imp_right neg_le_neg) hloss)
  exact htaken.trans (.of_spares (List.suffix_cons ..) (hw.spares (.inr hamount) le_rfl))

theorem spared_suicide {self beneficiary : Address} (h : m.suicide self beneficiary = some m')
    (hne : self ≠ a) : Spared a 0 m m' := by
  obtain ⟨v, hv, rfl⟩ := suicide_eq_some h
  have hgiven : Spared a 0 m (m.setView v) :=
    .of_view (hv.spares (.inr (Int.natCast_nonneg _)) le_rfl)
  exact hgiven.trans (.of_spares (List.suffix_cons ..) (StoreView.spares_suicide hne))

/-- A precompiled contract takes nothing but TFuel, and only `burnTFuel` takes any. -/
theorem spared_precompile {env : Env} {p : Precompile} {input ret : Bytes} {callerAddr : Address}
    {err : Option VmError} (h : p.run env m input callerAddr = some (m', ret, err))
    {r : PrecompileRun} (hbefore : r.before = m.stateDB) (hafter : r.after = m'.stateDB) :
    Spared a 0 m (m'.emit (.precompile r)) := by
  have hrun : ∃ taken, Spares a taken m.stateDB m'.stateDB ∧ m.trace <:+ m'.trace := by
    obtain rfl | ⟨-, -, _, _, v, hamount, hv, rfl⟩ | ⟨-, amount, v, hamount, hv, rfl⟩ :=
      precompile_run_eq_some h
    · exact ⟨0, .refl a _ le_rfl, List.suffix_refl _⟩
    · exact ⟨0, hv.spares (.inr hamount) le_rfl, List.suffix_cons ..⟩
    · exact ⟨amount, hv.spares (.inr le_rfl) hamount.1, List.suffix_cons ..⟩
  obtain ⟨taken, hspares, hgrown⟩ := hrun
  refine ⟨hgrown.trans (List.suffix_cons ..), fun acc hacc => ?_⟩
  obtain ⟨acc', hacc', hseq, hcode, -⟩ := hspares acc hacc
  refine ⟨acc', hacc', hseq, hcode, fun hall => ?_⟩
  have hr : r.before.getBalance a ≤ r.after.getBalance a := hall.last hgrown
  unfold StoreView.getBalance StoreView.getOrCreateAccount at hr
  rw [hbefore, hafter, hacc, hacc'] at hr
  rw [add_zero]
  exact hr

/-- A contract that does not run code as `a`. -/
structure Apart (a : Address) (c : Contract) : Prop where
  self : c.self ≠ a ∨ c.code = []
  value : 0 ≤ c.value

def Runner.Spares (a : Address) (run : Runner) : Prop :=
  ∀ c input readOnly m, c.WellBuilt → Apart a c → Plain a m → Ready m →
    Ends (Spared a 0 m) (run c input readOnly) m

/-- No contract is created at the address. -/
structure Library.Avoids (lib : Library) (a : Address) : Prop where
  create : ∀ creator nonce, lib.createAddress creator nonce ≠ a
  create2 : ∀ creator salt hash, lib.createAddress2 creator salt hash ≠ a

theorem ends_transfer_spared (env : Env) {sender : Address} (recipient : Address) {value : Int}
    (hvalue : 0 ≤ value) (hsender : sender ≠ a ∨ value ≤ loss) (hloss : 0 ≤ loss)
    (hready : Ready m) :
    Ends (fun u => Spared a loss m u ∧ Ready u)
      (orPanic fun m => m.transfer sender recipient value) m := by
  apply ends_orPanic_of ⟨.refl a m hloss, hready⟩
  intro u hu
  have hruns : Runs env m u := .transfer m u _ _ _ hu
  exact ⟨spared_transfer hu hvalue hsender hloss, hready.runs hruns⟩

theorem ends_runPrecompiledContract_spared (env : Env) (p : Precompile) (c : Contract)
    (input : Bytes) (m : Evm) : Ends (Spared a 0 m) (runPrecompiledContract env p input c) m := by
  unfold Ends runPrecompiledContract
  cases c.useGas (p.requiredGas env input m.stateDB.getBlockHeight) with
  | none => exact .refl a m le_rfl
  | some c' =>
    cases hrun : p.run env m input c.callerAddress with
    | none => exact .refl a m le_rfl
    | some out => exact spared_precompile hrun rfl rfl

section Frames

variable {env : Env} {run : Runner} {depth : Nat} {caller : ContractRef}

theorem spared_runFrame (hrun : run.Spares a) {start : Evm} (hm : Spared a loss start m)
    (hloss : 0 ≤ loss) (hplain : Plain a m) (hready : Ready m) {c : Contract}
    (hbuilt : c.WellBuilt) (hc : Apart a c) (input : Bytes) (readOnly : Bool) :
    Ends (Spared a loss start) (runFrame run start c input readOnly) m := by
  have hbody : Ends (Spared a loss start) (run c input readOnly) m :=
    (hrun c input readOnly m hbuilt hc hplain hready).mono fun _ => hm.trans
  apply ends_bind hbody (fun _ h => h)
  intro r t ht
  split
  · exact ends_pure ht
  · exact show Spared a loss start (start.revert t) from ht.revert hloss

theorem ne_or_code_eq_nil (hplain : Plain a m) (addr : Address) :
    addr ≠ a ∨ m.stateDB.getCode addr = [] := by
  by_cases haddr : addr = a
  · right
    rw [haddr]
    exact hplain.getCode
  · exact .inl haddr

variable (hrun : depth ≤ env.params.callCreateDepth → run.Spares a)
include hrun

variable {value : Int}

theorem spared_call (addr : Address) (input : Bytes) (gas : UInt64) (hvalue : 0 ≤ value)
    (hcaller : caller.address ≠ a ∨ value ≤ loss) (hloss : 0 ≤ loss) (hplain : Plain a m)
    (hready : Ready m) :
    Ends (Spared a loss m) (call env run depth caller addr input gas value) m := by
  refine ends_call_of depth caller (P := fun t => Spared a 0 m t ∧ Ready t)
    (fun t ht => ht.1.before (.refl a t hloss)) ⟨.refl a m le_rfl, hready⟩ (fun hnone => ?_) ?_
  · exact ⟨.of_view (StoreView.spares_createAccount (.inr hnone)),
      hready.of_system (m.stateDB.system_createAccountWithPreviousBalance addr)⟩
  · rintro hdepth t u ⟨ht, htready⟩ hu
    have hmu := ht.before (spared_transfer hu hvalue hcaller hloss)
    have huplain := hplain.spared hmu
    exact ⟨hmu, spared_runFrame (hrun hdepth) hmu hloss huplain
      (htready.runs (show Runs env t u from .transfer t u _ _ _ hu)) (wellBuilt_new (by decide) ..)
      ⟨ne_or_code_eq_nil huplain addr, hvalue⟩ input false⟩

theorem spared_callCode (hcaller : caller.address ≠ a) (addr : Address) (input : Bytes)
    (gas : UInt64) (hvalue : 0 ≤ value) (hplain : Plain a m) (hready : Ready m) :
    Ends (Spared a 0 m) (callCode env run depth caller addr input gas value) m := by
  apply ends_get
  split
  · exact ends_pure (.refl a m le_rfl)
  next hdepth =>
    split
    · exact ends_pure (.refl a m le_rfl)
    · exact spared_runFrame (hrun (not_lt.mp hdepth)) (.refl a m le_rfl) le_rfl hplain hready
        (wellBuilt_new (by decide) ..) ⟨.inl hcaller, hvalue⟩ input false

theorem spared_delegateCall {self callerAddress : Address} (hself : self ≠ a)
    (hvalue : 0 ≤ value) (addr : Address) (input : Bytes)
    (gas : UInt64) (hplain : Plain a m) (hready : Ready m) :
    Ends (Spared a 0 m)
      (delegateCall env run depth (.contract self callerAddress value) addr input gas) m := by
  apply ends_get
  split
  · exact ends_pure (.refl a m le_rfl)
  next hdepth =>
    refine spared_runFrame (hrun (not_lt.mp hdepth)) (.refl a m le_rfl) le_rfl hplain hready ?_
      ⟨.inl hself, hvalue⟩ input false
    exact ⟨self, callerAddress, value, rfl, rfl⟩

theorem spared_staticCall (addr : Address) (input : Bytes)
    (gas : UInt64) (hplain : Plain a m) (hready : Ready m) :
    Ends (Spared a 0 m) (staticCall env run depth caller addr input gas) m := by
  apply ends_get
  split
  · exact ends_pure (.refl a m le_rfl)
  next hdepth =>
    exact spared_runFrame (hrun (not_lt.mp hdepth)) (.refl a m le_rfl) le_rfl hplain hready
      (wellBuilt_new (by decide) ..)
      ⟨ne_or_code_eq_nil hplain addr, le_rfl⟩ input true

variable {address : Address}

omit hrun in
theorem spared_storeCode (hne : address ≠ a) (r : RunResult) (m : Evm) :
    Ends (Spared a 0 m) (storeCode env address r) m := by
  unfold storeCode
  dsimp only
  split
  · exact ends_pure (.refl a m le_rfl)
  split
  · exact ends_pure (.refl a m le_rfl)
  · exact show Spared a 0 m _ from
      .of_spares (List.suffix_cons ..) (StoreView.spares_setAccount hne _ le_rfl)

omit hrun in
theorem spared_createFrame (hrun : run.Spares a) (code : Bytes) (gas : UInt64) (hvalue : 0 ≤ value)
    (haddress : address ≠ a) (hcaller : caller.address ≠ a ∨ value ≤ loss) (hloss : 0 ≤ loss)
    (hplain : Plain a m) (hready : Ready m) :
    Ends (Spared a loss m) (createFrame env run caller code gas value address) m := by
  apply ends_get
  set t := m.setView (m.stateDB.createAccountWithPreviousBalance address) with ht
  have hmt : Spared a 0 m t := .of_view (StoreView.spares_createAccount (.inl haddress))
  have htready : Ready t :=
    hready.of_system (m.stateDB.system_createAccountWithPreviousBalance address)
  apply ends_bind (ends_modify (show t = t from rfl))
    (fun _ h => h ▸ hmt.before (.refl a t hloss))
  rintro _ t' rfl
  refine ends_bind (ends_transfer_spared env address hvalue hcaller hloss htready)
    (fun u hu => hmt.before hu.1) ?_
  rintro _ u ⟨hu, huready⟩
  have hmu := hmt.before hu
  have hbody := hrun (.new .create caller address value gas address code) [] false u
    (wellBuilt_new (by decide) ..) ⟨.inl haddress, hvalue⟩ (hplain.spared hmu) huready
  apply ends_bind (hbody.mono fun _ => hmu.trans) (fun _ h => h)
  intro r w hw
  apply ends_bind ((spared_storeCode haddress r w).mono fun _ => hw.trans) (fun _ h => h)
  intro r' w hw
  split
  · exact show Spared a loss m (m.revert w) from hw.revert hloss
  · exact ends_pure hw

theorem spared_create (hcaller : caller.address ≠ a) (code : Bytes) (gas : UInt64)
    (hvalue : 0 ≤ value) (haddress : address ≠ a) (hplain : Plain a m) (hready : Ready m) :
    Ends (Spared a 0 m) (create env run depth caller code gas value address) m := by
  apply ends_get
  split
  · exact ends_pure (.refl a m le_rfl)
  next hdepth =>
    split
    · exact ends_pure (.refl a m le_rfl)
    have hnonce : Spared a 0 m (m.setView (m.stateDB.setNonce caller.address
        (m.stateDB.getNonce caller.address + 1))) :=
      .of_view (StoreView.spares_setAccount hcaller _ le_rfl)
    apply ends_modify_seq hnonce
    apply ends_get
    dsimp only
    split
    · exact ends_pure (.refl a _ le_rfl)
    · exact ends_bind_pure (spared_createFrame (hrun (not_lt.mp hdepth)) code gas hvalue haddress
        (.inl hcaller) le_rfl (hplain.spared hnonce) (hready.of_system rfl))

variable {f : Frame}

theorem spared_executeOp (hlib : env.lib.Avoids a) {e : Execute} (hf : f.Sound)
    (hself : f.contract.self ≠ a) (hplain : Plain a m) (hready : Ready m) :
    Ends (Spared a 0 m) (executeOp env run depth e f) m := by
  have hcaller : f.contract.ref.address ≠ a := hself
  cases e with
  | pure op =>
    apply ends_get
    split <;> exact ends_pure (.refl a m le_rfl)
  | sstore => exact show Spared a 0 m _ from .of_view (StoreView.spares_setAccount hself _ le_rfl)
  | log n =>
    exact show Spared a 0 m _ from
      .of_spares (List.suffix_cons ..) (Spares.of_getAccount rfl le_rfl)
  | suicide =>
    exact ends_bind_pure (ends_orPanic_of (.refl a m le_rfl) fun m' hm' => spared_suicide hm' hself)
  | create =>
    exact ends_seq (ends_get (spared_create hrun hcaller _ _ (hf.words.back 0)
      (hlib.create _ _) hplain hready)) fun _ t => ends_pure (.refl a t le_rfl)
  | create2 =>
    exact ends_seq (spared_create hrun hcaller _ _ (hf.words.back 0) (hlib.create2 _ _ _) hplain
      hready) fun _ t => ends_pure (.refl a t le_rfl)
  | call =>
    exact ends_get (ends_bind_pure (spared_call hrun _ _ _ (u256_nonneg _) (.inl hself) le_rfl hplain
      hready))
  | callCode =>
    exact ends_get (ends_bind_pure (spared_callCode hrun hcaller _ _ _ (u256_nonneg _) hplain hready))
  | delegateCall =>
    exact ends_get (ends_bind_pure (spared_delegateCall hrun hself hf.value _ _ _ hplain hready))
  | staticCall =>
    exact ends_get (ends_bind_pure (spared_staticCall hrun _ _ _ hplain hready))

omit hrun in
theorem spared_applyCharge {charge : GasCharge} (h : m.applyCharge charge = some m') :
    Spared a 0 m m' := by
  rw [Evm.applyCharge, bind_eq_bind, bind_eq_some_iff] at h
  obtain ⟨v, hv, h⟩ := h
  obtain ⟨refund, rfl⟩ := foldlM_applyRefund hv
  cases h
  exact .of_spares (List.suffix_refl _) (Spares.of_getAccount rfl le_rfl)

theorem spared_step (hlib : env.lib.Avoids a) (readOnly : Bool) (hf : f.Sound)
    (hself : f.contract.self ≠ a) (hplain : Plain a m) (hready : Ready m) :
    Ends (Spared a 0 m) (step env run depth readOnly f) m := by
  apply ends_get
  split
  · exact ends_pure (.refl a m le_rfl)
  next op memorySize charge _ =>
    have hcharge : Ends (fun t => Spared a 0 m t ∧ Ready t)
        (orPanic fun m => m.applyCharge charge) m := by
      apply ends_orPanic_of ⟨.refl a m le_rfl, hready⟩
      intro t ht
      exact ⟨spared_applyCharge ht, hready.runs (show Runs env m t from runs_applyCharge ht)⟩
    apply ends_bind hcharge (fun _ h => h.1)
    rintro _ t ⟨ht, htready⟩
    split
    · exact ends_pure ht
    next f₁ hgas =>
      obtain ⟨c, hc, rfl⟩ := map_eq_some_iff.mp hgas
      obtain ⟨rfl, -⟩ := useGas_eq_some hc
      refine Ends.mono (ends_seq (R := Spared a 0) ?_ fun r u =>
        ends_finishOp_of _ r (.refl a u le_rfl)
          (.of_spares (List.suffix_refl _) (Spares.of_getAccount rfl le_rfl))) fun _ => ht.trans
      exact spared_executeOp hrun hlib ⟨hf.words, hf.value⟩ hself (hplain.spared ht) htready

theorem spared_loop (htotal : depth ≤ env.params.callCreateDepth → run.Total)
    (hsound : run.Sound env) (hp : env.params.Charges) (henv : env.Nonneg) (hlib : env.lib.Avoids a)
    (readOnly : Bool) (fuel : Nat) (hf : f.Sound) (hself : f.contract.self ≠ a) (hplain : Plain a m)
    (hready : Ready m) :
    Ends (Spared a 0 m) (loop env run depth readOnly fuel f) m := by
  induction fuel generalizing f m with
  | zero => exact ends_throw (.refl a m le_rfl)
  | succ fuel ih =>
    have hstep := ((returns_step htotal hp henv readOnly hf hready).and_ends
      (ends_step hsound depth readOnly f m)).and_ends
      (spared_step hrun hlib readOnly hf hself hplain hready)
    refine hstep.ends_bind ?_
    rintro next t ⟨⟨hnext, hruns⟩, ht⟩
    cases next with
    | inl f' =>
      obtain ⟨hf', hsame, -⟩ := hnext
      refine Ends.mono (ih hf' ?_ (hplain.spared ht) (hready.runs hruns)) fun _ => ht.trans
      rw [hsame]
      exact hself
    | inr r => exact ends_pure ht

end Frames

theorem spares_interpret {env : Env} (hp : env.params.Charges) (henv : env.Nonneg)
    (hlib : env.lib.Avoids a) (fuel depth : Nat) (inReadOnly : Bool)
    (hdepth : depth ≤ env.params.callCreateDepth)
    (hfuel : 2 ^ 64 + (env.params.callCreateDepth + 1 - depth) ≤ fuel) :
    (runWith env (interpret env fuel) depth inReadOnly).Spares a := by
  induction fuel generalizing depth inReadOnly with
  | zero => omega
  | succ fuel ih =>
    intro c input readOnly m hbuilt hc hplain hready
    unfold runWith
    split
    · exact ends_runPrecompiledContract_spared env _ c input m
    · refine ends_modify_seq
        (.of_spares (List.suffix_refl _) (Spares.of_getAccount rfl le_rfl)) ?_
      split
      · exact ends_pure (.refl a _ le_rfl)
      next hcode =>
        refine spared_loop ?_ ?_ (sound_interpret env fuel _ _) hp henv hlib _ fuel
          ⟨Words.nil, hc.value⟩ (hc.self.resolve_right hcode) hplain (hready.of_system rfl)
        · exact fun hdeeper => ih (depth + 1) _ hdeeper (by omega)
        · exact fun hdeeper => total_interpret hp henv fuel _ _ hdeeper (by omega)

/-- What an execution leaves of the account of its sender: the creation of a contract takes a
sequence number, and nothing but the value is taken from the balance unless a precompiled
contract takes it. -/
def SenderKept (tx : SmartContractTx) (acc : Account) (m : Evm) : Prop :=
  ∃ acc', m.stateDB.getAccount tx.sender.address = some acc' ∧
    acc'.sequence = (if tx.toAddress = 0 then acc.sequence + 1 else acc.sequence) ∧
    ((∀ e ∈ m.trace, e.OfRun (PrecompileRun.Spares tx.sender.address)) →
      (acc.tfuelWei : Int) ≤ acc'.tfuelWei + tx.sender.coins.tfuel)

section Transactions

variable {env : Env} {run : Runner} {tx : SmartContractTx} {acc : Account}
  (hrun : run.Spares tx.sender.address) (hvalue : 0 ≤ tx.sender.coins.tfuel) (hready : Ready m)
  (htrace : m.trace = []) (hacc : m.stateDB.getAccount tx.sender.address = some acc)
  (hcode : acc.codeHash = emptyCodeHash)

include htrace in
omit hrun hvalue hready hacc hcode in
theorem allSince_start {P : Event → Prop} (h : ∀ e ∈ m'.trace, P e) : AllSince P m m' := by
  intro new hnew e he
  rw [htrace, List.append_nil] at hnew
  exact h e (hnew ▸ he)

include hrun hvalue hready htrace hacc hcode

theorem ends_call_senderKept (hto : tx.toAddress ≠ 0) (gas : UInt64) :
    Ends (SenderKept tx acc) (call env run 0 (.account tx.sender.address) tx.toAddress tx.data gas
      tx.sender.coins.tfuel) m := by
  refine Ends.mono (spared_call (fun _ => hrun) tx.toAddress tx.data gas hvalue (.inr le_rfl)
    hvalue ⟨acc, hacc, hcode⟩ hready) ?_
  intro t ht
  obtain ⟨acc', hacc', hseq, -, hle⟩ := ht.2 acc hacc
  refine ⟨acc', hacc', ?_, fun hall => hle (allSince_start htrace hall)⟩
  rw [if_neg hto]
  exact hseq

theorem ends_create_senderKept (hlib : env.lib.Avoids tx.sender.address) (hto : tx.toAddress = 0)
    (gas : UInt64) (hfunds : tx.sender.coins.tfuel ≤ acc.tfuelWei) :
    Ends (SenderKept tx acc) (create1 env run 0 (.account tx.sender.address) tx.data gas
      tx.sender.coins.tfuel) m := by
  set a := tx.sender.address with ha
  apply ends_get
  -- the sequence number is taken before the frame, and a failed frame does not give it back
  set t := m.setView (m.stateDB.setNonce a (m.stateDB.getNonce a + 1)) with ht
  have htacc : t.stateDB.getAccount a = some { acc with sequence := acc.sequence + 1 } := by
    show (m.stateDB.setNonce a (m.stateDB.getNonce a + 1)).getAccount a = _
    unfold StoreView.setNonce StoreView.getNonce StoreView.getOrCreateAccount
    rw [StoreView.getAccount_setAccount, if_pos rfl, hacc]
    rfl
  have hkept : ∀ u, Spared a tx.sender.coins.tfuel t u → SenderKept tx acc u := by
    intro u hu
    obtain ⟨acc', hacc', hseq, -, hle⟩ := hu.2 _ htacc
    refine ⟨acc', hacc', ?_, fun hall => hle (allSince_start htrace hall)⟩
    rw [if_pos hto]
    exact hseq
  apply ends_get
  rw [if_neg (Nat.not_lt_zero _)]
  have htransfer : Evm.canTransfer m.stateDB a tx.sender.coins.tfuel = true := by
    rw [Evm.canTransfer, decide_eq_true_eq, StoreView.getBalance, StoreView.getOrCreateAccount,
      hacc]
    exact hfunds
  rw [show (ContractRef.account a).address = a from rfl, htransfer, Bool.not_true,
    if_neg Bool.false_ne_true]
  refine Ends.mono (P := Spared a tx.sender.coins.tfuel t) ?_ hkept
  apply ends_modify_bind
  apply ends_get
  dsimp only
  split
  · exact ends_pure (.refl a t hvalue)
  · refine ends_bind (spared_createFrame hrun tx.data gas hvalue (hlib.create _ _) (.inr le_rfl)
      hvalue ⟨_, htacc, hcode⟩ (hready.of_system rfl)) (fun _ h => h) ?_
    exact fun _ u hu => ends_pure hu

end Transactions

theorem ends_execute_senderKept {p : Params} (hp : p.Charges) {lib : Library} {fuel : Nat}
    (hfuel : p.enoughFuel ≤ fuel) {parentBlockInfo : BlockInfo}
    (hchain : 0 ≤ parentBlockInfo.chainID) {tx : SmartContractTx} (hprice : 0 ≤ tx.gasPrice.getD 0)
    (hlib : lib.Avoids tx.sender.address) (hvalue : 0 ≤ tx.sender.coins.tfuel)
    (hready : Ready m) (htrace : m.trace = []) {acc : Account}
    (hacc : m.stateDB.getAccount tx.sender.address = some acc)
    (hcode : acc.codeHash = emptyCodeHash) (hfunds : tx.sender.coins.tfuel ≤ acc.tfuelWei)
    (hlimit : tx.gasLimit.toNat ≤ p.maxGasLimit m.stateDB.getBlockHeight) {gas : UInt64}
    (hgas : calculateIntrinsicGas p tx.data (tx.toAddress == 0) = some gas)
    (hle : gas ≤ tx.gasLimit) :
    Ends (SenderKept tx acc) (execute p lib fuel parentBlockInfo tx) m := by
  have hrun : (runWith (txEnv p lib parentBlockInfo tx)
      (interpret (txEnv p lib parentBlockInfo tx) fuel) 0 false).Spares tx.sender.address :=
    spares_interpret hp ⟨hprice, hchain⟩ hlib fuel 0 false (Nat.zero_le _) hfuel
  apply ends_get
  rw [if_neg (not_lt.mpr hlimit), hgas]
  dsimp only
  rw [if_neg (UInt64.not_lt.mpr hle)]
  split
  · next hto =>
    exact ends_bind_pure (ends_create_senderKept hrun hvalue hready htrace hacc hcode hlib
      (by simpa using hto) _ hfunds)
  · next hto =>
    exact ends_bind_pure (ends_call_senderKept hrun hvalue hready htrace hacc hcode
      (by simpa using hto) _)

end Vm

end ThetaSubchain
