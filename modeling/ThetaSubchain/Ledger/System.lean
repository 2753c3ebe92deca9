/-
What the execution of transactions leaves alone: the height of the view and the record of the
validators.
-/
import ThetaSubchain.Ledger.Execution
import ThetaSubchain.Vm.Runs

namespace ThetaSubchain

open Ending StoreView
open Vm (Halt Evm)

/-- A view without its accounts and its code, and without what an execution records. -/
def StoreView.system (sv : StoreView) : StoreView where
  height := sv.height
  store := { sv.store with account := fun _ => none, code := fun _ => [] }
  coinbaseTransactinProcessed := sv.coinbaseTransactinProcessed
  subchainValidatorSetTransactinProcessed := sv.subchainValidatorSetTransactinProcessed

def StoreView.fixed (sv : StoreView) : UInt64 × Option (List UInt64) :=
  (sv.height, sv.store.updateTxHeights)

namespace StoreView

variable {sv sv' : StoreView}

theorem fixed_eq_of_system (h : sv'.system = sv.system) : sv'.fixed = sv.fixed := by
  show sv'.system.fixed = sv.system.fixed
  rw [h]

theorem validatorSet_eq_of_system (h : sv'.system = sv.system) :
    sv'.getValidatorSet = sv.getValidatorSet := by
  show sv'.system.getValidatorSet = sv.system.getValidatorSet
  rw [h]

theorem dynasty_eq_of_system (h : sv'.system = sv.system) : sv'.getDynasty = sv.getDynasty := by
  show sv'.system.getDynasty = sv.system.getDynasty
  rw [h]

theorem system_createAccountWithPreviousBalance (sv : StoreView) (addr : Address) :
    (sv.createAccountWithPreviousBalance addr).system = sv.system := by
  rw [createAccount_eq]
  rfl

theorem system_moved {addr : Address} {isNegative : Bool} {amount : Int}
    (h : sv.Moved addr isNegative amount sv') : sv'.system = sv.system := by
  obtain ⟨-, rfl⟩ | ⟨-, -, rfl⟩ := h
  · rfl
  · rfl

theorem system_suicide (sv : StoreView) (addr : Address) :
    (sv.suicide addr).system = sv.system := by
  unfold suicide
  cases sv.getAccount addr with
  | none => rfl
  | some acc => rfl

end StoreView

theorem system_runs {env : Vm.Env} {m m' : Evm} (h : Vm.Runs env m m') :
    m'.stateDB.system = m.stateDB.system := by
  have hrel : Vm.ViewRel env.lib fun v v' => v'.system = v.system :=
    { trans := fun h₁ h₂ => h₂.trans h₁
      refund := fun _ _ => rfl
      openAccount := fun _ => system_createAccountWithPreviousBalance _ _
      setNonce := fun _ _ => rfl
      setCode := fun _ _ _ => rfl
      setState := fun _ _ _ _ => rfl
      addLog := fun _ _ => rfl
      moved := system_moved
      suicide := system_suicide
      revert := fun {v v'} h => by
        -- the content is that of the snapshot, the rest is as the frame left it
        simp only [system, mk.injEq] at h
        obtain ⟨hheight, -, hcoinbase, hupdate, -⟩ := h
        simp only [system, revertToSnapshot, snapshot, hheight, hcoinbase, hupdate] }
  exact hrel.runs h

namespace Executor

variable {x : Executor} {pos : Position} {sel : ViewSelector} {view : StoreView}

theorem system_makeValidatorAccount (view : StoreView) (v : Validator) :
    (makeValidatorAccount view v).system = view.system := by
  unfold makeValidatorAccount
  cases view.getAccount v.address with
  | none => rfl
  | some acc => rfl

theorem system_makeValidatorAccounts (validators : List Validator) (view : StoreView) :
    (makeValidatorAccounts view validators).system = view.system := by
  induction validators generalizing view with
  | nil => rfl
  | cons v vs ih =>
    show (makeValidatorAccounts (makeValidatorAccount view v) vs).system = view.system
    rw [ih, system_makeValidatorAccount]

theorem system_adjust {change : Account → Option Account} {s s' : StoreView × Accounts}
    {addr : Address} (h : adjust change s addr = some s') : s'.1.system = s.1.system := by
  unfold adjust at h
  rw [Option.bind_eq_bind, Option.bind_eq_some_iff] at h
  obtain ⟨acc, -, h⟩ := h
  rw [Option.bind_eq_some_iff] at h
  obtain ⟨acc', -, h⟩ := h
  cases h
  rfl

theorem system_foldlM {ι : Type} {f : StoreView × Accounts → ι → Option (StoreView × Accounts)}
    (hf : ∀ s i s', f s i = some s' → s'.1.system = s.1.system) (is : List ι)
    {s s' : StoreView × Accounts} (h : is.foldlM f s = some s') : s'.1.system = s.1.system := by
  induction is generalizing s with
  | nil =>
    cases h
    rfl
  | cons i is ih =>
    rw [List.foldlM_cons, Option.bind_eq_bind, Option.bind_eq_some_iff] at h
    obtain ⟨t, ht, h⟩ := h
    exact (ih h).trans (hf s i t ht)

variable {out : Outcome}

inductive SendOutcome (x : Executor) (view : StoreView) (tx : SendTx) : Outcome → Prop where
  | refused (message : String) : SendOutcome x view tx ⟨view, .error message, none⟩
  | sent {accounts accounts' : Accounts} {s : StoreView × Accounts} {view' : StoreView}
    (hload : (do x.getOrMakeOutputs view (← x.getInputs view tx.inputs) tx.outputs) = .ok accounts)
    (hin : adjustByInputs (view, accounts) tx.inputs = some s)
    (hout : adjustByOutputs s tx.outputs = some (view', accounts')) :
    SendOutcome x view tx ⟨view', .ok, none⟩

theorem sendOutcome {tx : SendTx} (h : x.processSend view tx = .ok out) :
    x.SendOutcome view tx out := by
  unfold processSend at h
  dsimp only at h
  split at h
  · cases h
  · cases h
    exact .refused _
  next accounts hload =>
    split at h
    · cases h
    next view' accounts' hadjust =>
      cases h
      obtain ⟨s, hin, hout⟩ := Option.bind_eq_some_iff.mp hadjust
      exact .sent hload hin hout

inductive Settled (x : Executor) (sel : ViewSelector) (tx : SmartContractTx)
    (r : Vm.ExecuteResult) (view : StoreView) : Outcome → Prop where
  | refused (message : String) : Settled x sel tx r view ⟨view, .error message, none⟩
  | charged {acc : Account} {charged : StoreView} {receipt : Option TxReceipt}
    (hacc : x.getInput view tx.sender = some acc)
    (hcharged : chargeSender view tx acc r.gasUsed = .ok (some charged))
    (hreceipt : x.receiptOf sel tx charged r = .ok receipt) :
    Settled x sel tx r view ⟨charged.resetLogs.resetBalanceChanges, .ok, receipt⟩

theorem settled {tx : SmartContractTx} {r : Vm.ExecuteResult}
    (h : x.settle sel tx r view = .ok out) : x.Settled sel tx r view out := by
  unfold settle at h
  split at h
  · cases h
    exact .refused _
  next acc hacc =>
    split at h
    · cases h
    · cases h
      exact .refused _
    · cases h
      exact .refused _
    next charged hcharged =>
      obtain ⟨receipt, hreceipt, h⟩ := bind_eq_ok.mp h
      cases h
      exact .charged hacc hcharged hreceipt

theorem processSmartContract_eq_ok {tx : SmartContractTx}
    (h : x.processSmartContract pos sel view tx = .ok out) :
    ∃ r m, x.executeSmartContract pos view tx = .ok r m ∧
      x.settle sel tx r m.stateDB = .ok out := by
  unfold processSmartContract at h
  split at h
  · cases h
  next r m hexec => exact ⟨r, m, hexec, h⟩

/-- What processing a validator set update does.  A refused or undecided update has made
the accounts of its validators. -/
inductive UpdateOutcome (x : Executor) (view : StoreView) (tx : SubchainValidatorSetUpdateTx) :
    Outcome → Prop where
  | again (hflag : view.subchainValidatorSetTransactinProcessed = true) :
    UpdateOutcome x view tx ⟨view, .error validatorSetProcessed, none⟩
  | older {d : Int} (message : String)
    (hflag : view.subchainValidatorSetTransactinProcessed = false)
    (hd : view.getDynasty = some d) (hle : tx.dynasty ≤ d) :
    UpdateOutcome x view tx ⟨makeValidatorAccounts view tx.validators, .error message, none⟩
  | undecided {d : Int} (hflag : view.subchainValidatorSetTransactinProcessed = false)
    (hd : view.getDynasty = some d) (hlt : d < tx.dynasty)
    (hnone : x.getValidatorSetByDynasty tx.dynasty = none) :
    UpdateOutcome x view tx ⟨makeValidatorAccounts view tx.validators, .undecided "", none⟩
  | differs {d : Int} {vs : ValidatorSet} (message : String)
    (hflag : view.subchainValidatorSetTransactinProcessed = false)
    (hd : view.getDynasty = some d) (hlt : d < tx.dynasty)
    (hvs : x.getValidatorSetByDynasty tx.dynasty = some vs)
    (hne : (newValidatorSet tx).equals vs = false) :
    UpdateOutcome x view tx ⟨makeValidatorAccounts view tx.validators, .error message, none⟩
  | installed {d : Int} {vs : ValidatorSet}
    (hflag : view.subchainValidatorSetTransactinProcessed = false)
    (hd : view.getDynasty = some d) (hlt : d < tx.dynasty)
    (hvs : x.getValidatorSetByDynasty tx.dynasty = some vs)
    (heq : (newValidatorSet tx).equals vs = true) :
    UpdateOutcome x view tx
      ⟨{ (makeValidatorAccounts view tx.validators).updateValidatorSet x.selfChainID
            (newValidatorSet tx) with
          subchainValidatorSetTransactinProcessed := true }, .ok, none⟩

theorem exists_processValidatorSetUpdate {d : Int} (hd : view.getDynasty = some d)
    (tx : SubchainValidatorSetUpdateTx) :
    ∃ out, x.processValidatorSetUpdate view tx = .ok out := by
  unfold processValidatorSetUpdate
  dsimp only
  rw [dynasty_eq_of_system (system_makeValidatorAccounts tx.validators view), hd]
  dsimp only
  split
  · exact ⟨_, rfl⟩
  split
  · exact ⟨_, rfl⟩
  split
  · exact ⟨_, rfl⟩
  split
  · exact ⟨_, rfl⟩
  · exact ⟨_, rfl⟩

theorem updateOutcome {tx : SubchainValidatorSetUpdateTx}
    (h : x.processValidatorSetUpdate view tx = .ok out) : x.UpdateOutcome view tx out := by
  have hdyn : (makeValidatorAccounts view tx.validators).getDynasty = view.getDynasty :=
    dynasty_eq_of_system (system_makeValidatorAccounts tx.validators view)
  unfold processValidatorSetUpdate at h
  split at h
  next hflag =>
    cases h
    exact .again hflag
  next hflag =>
    rw [Bool.not_eq_true] at hflag
    dsimp only at h
    rw [hdyn] at h
    split at h
    · cases h
    next d hd =>
      split at h
      next hle =>
        cases h
        exact .older _ hflag hd hle
      next hlt =>
        have hlt := Int.not_le.mp hlt
        split at h
        next hnone =>
          cases h
          exact .undecided hflag hd hlt hnone
        next vs hvs =>
          split at h
          next hne =>
            cases h
            exact .differs _ hflag hd hlt hvs (by simpa using hne)
          next heq =>
            cases h
            exact .installed hflag hd hlt hvs (by simpa using heq)

theorem processTx_cases {tx : Tx} (h : x.processTx pos sel view tx = .ok out) :
    (∃ message, out = ⟨view, .error message, none⟩ ∧ x.sanityCheck pos view tx ≠ .ok ()) ∨
      (x.sanityCheck pos view tx = .ok () ∧ x.process pos sel view tx = .ok out) := by
  unfold processTx at h
  split at h
  · cases h
  next hcheck =>
    cases h
    exact .inl ⟨_, rfl, by rw [hcheck]; simp⟩
  next hcheck => exact .inr ⟨hcheck, h⟩

inductive TxOutcome (x : Executor) (pos : Position) (sel : ViewSelector) (view : StoreView) :
    Tx → Outcome → Prop where
  | refused {tx : Tx} (message : String) (hother : x.sanityCheck pos view tx = .ok () →
      ∀ update, tx ≠ .subchainValidatorSetUpdate update) :
    TxOutcome x pos sel view tx ⟨view, .error message, none⟩
  | coinbase (tx : CoinbaseTx) :
    TxOutcome x pos sel view (.coinbase tx)
      ⟨{ view with coinbaseTransactinProcessed := true }, .ok, none⟩
  | update {tx : SubchainValidatorSetUpdateTx} {out : Outcome}
    (hcheck : x.sanityCheck pos view (.subchainValidatorSetUpdate tx) = .ok ())
    (h : x.UpdateOutcome view tx out) :
    TxOutcome x pos sel view (.subchainValidatorSetUpdate tx) out
  | send {tx : SendTx} {out : Outcome} (h : x.SendOutcome view tx out) :
    TxOutcome x pos sel view (.send tx) out
  | contract {tx : SmartContractTx} {r : Vm.ExecuteResult} {m : Evm} {out : Outcome}
    (hcheck : x.sanityCheck pos view (.smartContract tx) = .ok ())
    (hexec : x.executeSmartContract pos view tx = .ok r m)
    (h : x.settle sel tx r m.stateDB = .ok out) :
    TxOutcome x pos sel view (.smartContract tx) out

theorem txOutcome {tx : Tx} (h : x.processTx pos sel view tx = .ok out) :
    x.TxOutcome pos sel view tx out := by
  obtain ⟨message, rfl, hcheck⟩ | ⟨hcheck, h⟩ := processTx_cases h
  · exact .refused message fun h => absurd h hcheck
  unfold process at h
  split at h
  next hunsupported =>
    cases h
    refine .refused _ fun _ update heq => ?_
    rw [heq] at hunsupported
    simp [isTxTypeSupported] at hunsupported
  cases tx with
  | coinbase tx =>
    cases h
    unfold processCoinbase
    split
    · exact .refused _ (by simp)
    · exact .coinbase tx
  | subchainValidatorSetUpdate tx => exact .update hcheck (updateOutcome h)
  | send tx => exact .send (sendOutcome h)
  | smartContract tx =>
    obtain ⟨r, m, hexec, h⟩ := processSmartContract_eq_ok h
    exact .contract hcheck hexec h
  | depositStake forValidator =>
    cases h
    exact .refused _ (by simp)
  | withdrawStake forValidator =>
    cases h
    exact .refused _ (by simp)

theorem SendOutcome.system {tx : SendTx} (h : x.SendOutcome view tx out) :
    out.view.system = view.system := by
  cases h with
  | refused => rfl
  | sent _ hin hout =>
    have h₁ := system_foldlM (fun _ _ _ => system_adjust) tx.inputs hin
    have h₂ := system_foldlM (fun _ _ _ => system_adjust) tx.outputs hout
    exact h₂.trans h₁

variable {tx : SmartContractTx}

theorem chargeSender_eq {acc : Account} {gasUsed : UInt64} {charged : StoreView}
    (h : chargeSender view tx acc gasUsed = .ok (some charged)) :
    ∃ acc', charged = view.setAccount tx.sender.address acc' := by
  obtain ⟨gasPrice, -, h⟩ := bind_eq_ok.mp h
  obtain ⟨paid, -, h⟩ := bind_eq_ok.mp h
  cases paid with
  | none => cases h
  | some acc' =>
    cases h
    exact ⟨_, rfl⟩

theorem system_contract {r : Vm.ExecuteResult} {m : Evm}
    (hexec : x.executeSmartContract pos view tx = .ok r m)
    (h : x.settle sel tx r m.stateDB = .ok out) : out.view.system = view.system := by
  have hmachine : m.stateDB.system = view.system :=
    (system_runs ((Vm.ends_execute ..).of_ok hexec)).trans rfl
  cases settled h with
  | refused => exact hmachine
  | charged _ hcharged _ =>
    obtain ⟨acc', rfl⟩ := chargeSender_eq hcharged
    exact hmachine

theorem fixed_processTx {tx : Tx} (h : x.processTx pos sel view tx = .ok out) :
    out.view.fixed = view.fixed := by
  cases txOutcome h with
  | refused => rfl
  | coinbase => rfl
  | @update tx _ _ h =>
    have hsys := fixed_eq_of_system (system_makeValidatorAccounts tx.validators view)
    cases h with
    | again => rfl
    | _ => exact hsys
  | send h => exact fixed_eq_of_system h.system
  | contract _ hexec h => exact fixed_eq_of_system (system_contract hexec h)

theorem height_processTx {tx : Tx} (h : x.processTx pos sel view tx = .ok out) :
    out.view.height = view.height :=
  congrArg Prod.fst (fixed_processTx h)

end Executor

end ThetaSubchain
