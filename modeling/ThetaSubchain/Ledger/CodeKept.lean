/-
An account that has code keeps it.

A self-destruct leaves a code hash of its own, and an account is opened again only where there is
no code.  Only the end of a creation at the address can replace the code.
-/
import ThetaSubchain.Ledger.LaterViews

namespace ThetaSubchain

open Ending StoreView Option

/-- A code hash at which `create` refuses to create a contract. -/
def Occupies (codeHash : Hash) : Prop := codeHash ≠ 0 ∧ codeHash ≠ emptyCodeHash

theorem occupies_suicidedCodeHash : Occupies suicidedCodeHash := by
  unfold Occupies
  decide

namespace StoreView

def Coded (v : StoreView) (a : Address) : Prop :=
  ∃ acc, v.getAccount a = some acc ∧ Occupies acc.codeHash

variable {v v' : StoreView} {a addr : Address}

theorem Coded.of_getAccount (hv : v.Coded a) (h : v'.getAccount a = v.getAccount a) :
    v'.Coded a := by
  obtain ⟨acc, hacc, hcode⟩ := hv
  exact ⟨acc, h.trans hacc, hcode⟩

theorem Coded.setAccount (hv : v.Coded a) {acc : Account}
    (h : ∀ old, v.getAccount addr = some old → Occupies old.codeHash → Occupies acc.codeHash) :
    (v.setAccount addr acc).Coded a := by
  obtain ⟨old, hold, hcode⟩ := hv
  by_cases heq : a = addr
  · subst heq
    exact ⟨acc, (getAccount_setAccount ..).trans (if_pos rfl), h old hold hcode⟩
  · exact ⟨old, (getAccount_setAccount ..).trans ((if_neg heq).trans hold), hcode⟩

theorem Coded.update (hv : v.Coded a) {acc : Account}
    (h : acc.codeHash = (v.getOrCreateAccount addr).codeHash) :
    (v.setAccount addr acc).Coded a := by
  apply hv.setAccount
  intro old hold hcode
  rw [h, getOrCreateAccount_of_some hold]
  exact hcode

theorem Coded.moved {isNegative : Bool} {amount : Int} (hv : v.Coded a)
    (h : v.Moved addr isNegative amount v') : v'.Coded a := by
  obtain ⟨-, rfl⟩ | ⟨-, -, rfl⟩ := h
  · exact hv
  · have hset : (v.setAccount addr { v.getOrCreateAccount addr with
        tfuelWei := (v.getBalance addr + signed isNegative amount).toNat }).Coded a :=
      hv.update rfl
    exact hset.of_getAccount rfl

theorem Coded.suicide (hv : v.Coded a) (addr : Address) : (v.suicide addr).Coded a := by
  unfold StoreView.suicide
  split
  · exact hv
  · have hkept : ∀ change, (v.addBalanceChange change).Coded a := fun _ => hv.of_getAccount rfl
    exact (hkept _).setAccount fun _ _ _ => occupies_suicidedCodeHash

theorem Coded.not_vacant (hv : v.Coded a) : ¬ Vm.Vacant v a := by
  obtain ⟨acc, hacc, hzero, hempty⟩ := hv
  rintro ⟨-, hcode⟩
  rw [getCodeHash, hacc] at hcode
  exact hcode.elim hzero hempty

theorem Coded.openAccount (hv : v.Coded a) (h : Vm.Vacant v addr) :
    (v.createAccountWithPreviousBalance addr).Coded a := by
  rw [createAccount_eq]
  apply hv.setAccount
  intro old hold hcode
  exact absurd h (Coded.not_vacant ⟨old, hold, hcode⟩)

end StoreView

namespace Vm

/-- A creation that ends at the address ends with code. -/
def Event.KeepsCode (a : Address) : Event → Prop
  | .install c codeHash => c = a → Occupies codeHash
  | _ => True

theorem coded_precompile {env : Env} {p : Precompile} {m m' : Evm} {input ret : Bytes}
    {callerAddr a : Address} {err : Option VmError}
    (h : p.run env m input callerAddr = some (m', ret, err)) :
    m.trace <:+ m'.trace ∧ (m.stateDB.Coded a → m'.stateDB.Coded a) := by
  obtain rfl | ⟨-, -, _, _, v, -, hv, rfl⟩ | ⟨-, _, v, -, hv, rfl⟩ := precompile_run_eq_some h
  · exact ⟨List.suffix_refl _, fun h => h⟩
  · exact ⟨List.suffix_cons .., fun h => h.moved hv⟩
  · exact ⟨List.suffix_cons .., fun h => h.moved hv⟩

theorem coded_runs {env : Env} {m m' : Evm} {a : Address} (h : Runs env m m') :
    m.trace <:+ m'.trace ∧ (AllSince (Event.KeepsCode a) m m' → m.stateDB.Coded a →
      m'.stateDB.Coded a) := by
  induction h with
  | refl => exact ⟨List.suffix_refl _, fun _ h => h⟩
  | trans _ _ ih₁ ih₂ =>
    refine ⟨ih₁.1.trans ih₂.1, fun hall hm => ?_⟩
    obtain ⟨h₁, h₂⟩ := hall.split ih₁.1 ih₂.1
    exact ih₂.2 h₂ (ih₁.2 h₁ hm)
  | quiet => exact ⟨List.suffix_refl _, fun _ h => h.of_getAccount rfl⟩
  | openAccount m addr hvacant => exact ⟨List.suffix_refl _, fun _ h => h.openAccount hvacant⟩
  | setNonce => exact ⟨List.suffix_refl _, fun _ h => h.update rfl⟩
  | setState => exact ⟨List.suffix_refl _, fun _ h => h.update rfl⟩
  | setCode m addr code =>
    refine ⟨List.suffix_cons .., fun hall hm => ?_⟩
    have hinstall : addr = a → Occupies (env.lib.keccak code) := hall.last (List.suffix_refl _)
    obtain ⟨old, hold, hcode⟩ := hm
    by_cases heq : addr = a
    · exact ⟨_, (getAccount_setAccount ..).trans (if_pos heq.symm), hinstall heq⟩
    · exact ⟨old, (getAccount_setAccount ..).trans ((if_neg (Ne.symm heq)).trans hold), hcode⟩
  | log => exact ⟨List.suffix_cons .., fun _ h => h.of_getAccount rfl⟩
  | transfer m m' sender recipient amount h =>
    obtain ⟨v, w, hv, hw, rfl⟩ := transfer_eq_some h
    exact ⟨List.suffix_cons .., fun _ h => (h.moved hv).moved hw⟩
  | suicide m m' self beneficiary h =>
    obtain ⟨v, hv, rfl⟩ := suicide_eq_some h
    exact ⟨List.suffix_cons .., fun _ h => (h.moved hv).suicide self⟩
  | precompile m m' c p input ret err hc hp h =>
    obtain ⟨hgrown, hcoded⟩ := coded_precompile (a := a) h
    exact ⟨hgrown.trans (List.suffix_cons ..), fun _ h => hcoded h⟩
  | reverted start m _ ih =>
    exact ⟨ih.1.trans (List.suffix_cons ..), fun _ h => h.of_getAccount rfl⟩

end Vm

namespace Executor

variable {x : Executor} {pos : Position} {sel : ViewSelector} {view : StoreView} {out : Outcome}
  {a : Address}

def KeepsCodes (x : Executor) : Prop :=
  ∀ height acc, (x.lib.updateToHeight height acc).codeHash = acc.codeHash

theorem codeHash_loaded (hlib : x.KeepsCodes) (view : StoreView) (addr : Address) :
    (x.loaded view addr).codeHash = (view.getOrCreateAccount addr).codeHash := by
  rw [loaded, hlib, getOrCreateAccount]
  cases view.getAccount addr with
  | none => rfl
  | some acc => rfl

theorem coded_processSend (hlawful : x.lib.Lawful) (hlib : x.KeepsCodes) {tx : SendTx}
    (hcheck : x.sanityCheckSend view tx = .ok ()) (h : x.processSend view tx = .ok out)
    (hview : view.Coded a) : out.view.Coded a := by
  have hloaded : Occupies (x.loaded view a).codeHash := by
    obtain ⟨acc, hacc, hcode⟩ := hview
    rw [codeHash_loaded hlib, getOrCreateAccount_of_some hacc]
    exact hcode
  have haddr : ∀ addr acc, out.view.getAccount a = some acc → acc.codeHash =
      (x.loaded view addr).codeHash → addr = a → out.view.Coded a := by
    rintro addr acc hacc hcode rfl
    exact ⟨acc, hacc, hcode ▸ hloaded⟩
  obtain ⟨view', hprocess, hin, hout, hother, -⟩ :=
    exists_processSend hlawful (sendChecked_of_sanityCheck hcheck)
  obtain rfl : _ = out := Except.ok.inj (hprocess.symm.trans h)
  by_cases hi : a ∈ tx.inputs.map TxInput.address
  · obtain ⟨i, hmem, rfl⟩ := List.mem_map.mp hi
    exact haddr i.address _ (hin i hmem) rfl rfl
  · by_cases ho : a ∈ tx.outputs.map TxOutput.address
    · obtain ⟨o, hmem, rfl⟩ := List.mem_map.mp ho
      exact haddr o.address _ (hout o hmem) rfl rfl
    · exact hview.of_getAccount (hother a hi ho)

theorem coded_makeValidatorAccounts (validators : List Validator) {view : StoreView}
    (hview : view.Coded a) : (makeValidatorAccounts view validators).Coded a := by
  induction validators generalizing view with
  | nil => exact hview
  | cons v validators ih =>
    refine ih ?_
    unfold makeValidatorAccount
    split
    · exact hview
    · next hnone =>
      apply hview.setAccount
      intro old hold _
      cases hnone.symm.trans hold

theorem coded_settle (hlib : x.KeepsCodes) {tx : SmartContractTx} {r : Vm.ExecuteResult}
    (h : x.settle sel tx r view = .ok out) (hview : view.Coded a) : out.view.Coded a := by
  cases settled h with
  | refused => exact hview
  | charged =>
    obtain ⟨gasPrice, acc, -, hacc, -, heq⟩ := settle_eq_ok h rfl
    rw [heq]
    refine (hview.update ?_).of_getAccount rfl
    rw [getInput, getOrMakeAccountImpl] at hacc
    cases hold : view.getAccount tx.sender.address with
    | none =>
      rw [hold] at hacc
      cases hacc
    | some old =>
      rw [hold] at hacc
      cases hacc
      rw [getOrCreateAccount_of_some hold]
      exact hlib _ _

theorem coded_processTx (hlawful : x.lib.Lawful) (hlib : x.KeepsCodes) {tx : Tx}
    (h : x.processTx pos sel view tx = .ok out)
    (hevents : ∀ sc r m, tx = .smartContract sc → x.executeSmartContract pos view sc = .ok r m →
      ∀ e ∈ m.trace, Vm.Event.KeepsCode a e) (hview : view.Coded a) : out.view.Coded a := by
  cases txOutcome h with
  | refused => exact hview
  | coinbase => exact hview
  | @update tx _ _ h =>
    have hmade := coded_makeValidatorAccounts tx.validators hview
    cases h with
    | again => exact hview
    | _ => exact hmade
  | send _ =>
    obtain heq | ⟨hcheck, h⟩ := send_of_processTx h
    · rw [heq]
      exact hview
    · exact coded_processSend hlawful hlib hcheck h hview
  | @contract sc r m _ _ hexec h =>
    have hruns := (Vm.ends_execute ..).of_ok hexec
    refine coded_settle hlib h ((Vm.coded_runs hruns).2 ?_ (hview.of_getAccount rfl))
    exact Vm.allSince_start rfl (hevents sc r m rfl hexec)

end Executor

end ThetaSubchain
