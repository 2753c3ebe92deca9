/-
The validators of every later state have accounts: no transaction and no contract removes one, and
an update makes those that are missing.
-/
import ThetaSubchain.Ledger.DynastyHistory
import ThetaSubchain.Ledger.LaterViews
import ThetaSubchain.Ledger.NoTrace

namespace ThetaSubchain

open Ending StoreView Option

namespace StoreView

def KeepsAccounts (v w : StoreView) : Prop := ∀ a, (v.getAccount a).isSome → (w.getAccount a).isSome

variable {v w : StoreView} {addr : Address}

theorem KeepsAccounts.trans {u : StoreView} (h : u.KeepsAccounts v) (h' : v.KeepsAccounts w) :
    u.KeepsAccounts w := fun a ha => h' a (h a ha)

theorem keepsAccounts_setAccount (v : StoreView) (addr : Address) (acc : Account) :
    v.KeepsAccounts (v.setAccount addr acc) := by
  intro a ha
  rw [getAccount_setAccount]
  split
  · rfl
  · exact ha

theorem keepsAccounts_runs {env : Vm.Env} {m m' : Vm.Evm} (h : Vm.Runs env m m') :
    m.stateDB.KeepsAccounts m'.stateDB := by
  have hrel : Vm.ViewRel env.lib KeepsAccounts :=
    { trans := .trans
      refund := fun _ _ _ h => h
      openAccount := fun _ => by
        rw [createAccount_eq]
        exact keepsAccounts_setAccount _ _ _
      setNonce := fun _ _ => keepsAccounts_setAccount _ _ _
      setCode := fun v a code => keepsAccounts_setAccount v a _
      setState := fun _ _ _ _ => keepsAccounts_setAccount _ _ _
      addLog := fun _ _ _ h => h
      moved := fun h => by
        obtain ⟨-, rfl⟩ | ⟨-, -, rfl⟩ := h
        · exact fun _ h => h
        · exact keepsAccounts_setAccount _ _ _
      suicide := fun v a => by
        unfold suicide
        split
        · exact fun _ h => h
        · exact keepsAccounts_setAccount _ _ _
      revert := fun _ _ h => h }
  exact hrel.runs h

/-- Every validator of the state has an account. -/
def ValidatorsHaveAccounts (view : StoreView) : Prop :=
  ∀ vs, view.getValidatorSet = some vs → ∀ v ∈ vs.validators, (view.getAccount v.address).isSome

theorem ValidatorsHaveAccounts.of_system (h : v.ValidatorsHaveAccounts)
    (hsystem : w.system = v.system) (hkeeps : v.KeepsAccounts w) : w.ValidatorsHaveAccounts := by
  intro vs hvs val hval
  rw [validatorSet_eq_of_system hsystem] at hvs
  exact hkeeps _ (h vs hvs val hval)

end StoreView

namespace Executor

variable {x : Executor} {pos : Position} {sel : ViewSelector} {view : StoreView} {out : Outcome}

theorem mem_newValidatorSet {tx : SubchainValidatorSetUpdateTx} {v : Validator}
    (h : v ∈ (newValidatorSet tx).validators) : v ∈ tx.validators := by
  suffices hgen : ∀ (validators : List Validator) (vs : ValidatorSet),
      v ∈ (validators.foldl ValidatorSet.addValidator vs).validators →
        v ∈ validators ∨ v ∈ vs.validators by
    exact (hgen _ _ h).resolve_right List.not_mem_nil
  intro validators
  induction validators with
  | nil => exact fun _ h => .inr h
  | cons w validators ih =>
    intro vs h
    rcases ih _ h with h | h
    · exact .inl (.tail _ h)
    · rw [ValidatorSet.addValidator, List.mem_insertionSort, List.mem_append,
        List.mem_singleton] at h
      rcases h with h | rfl
      · exact .inr h
      · exact .inl (.head _)

theorem validatorsHaveAccounts_processTx (hlib : x.lib.Lawful) {tx : Tx}
    (h : x.processTx pos sel view tx = .ok out) (hview : view.ValidatorsHaveAccounts) :
    out.view.ValidatorsHaveAccounts := by
  cases txOutcome h with
  | refused => exact hview
  | coinbase => exact hview
  | @update tx _ _ h =>
    have hmade : (makeValidatorAccounts view tx.validators).ValidatorsHaveAccounts :=
      hview.of_system (system_makeValidatorAccounts _ _)
        fun a ha => isSome_makeValidatorAccounts _ _ a (.inl ha)
    cases h with
    | again => exact hview
    | installed =>
      intro vs hvs v hv
      obtain rfl : newValidatorSet tx = vs := some.inj hvs
      exact isSome_makeValidatorAccounts _ _ _ (.inr ⟨v, mem_newValidatorSet hv, rfl⟩)
    | _ => exact hmade
  | @send tx _ hsend =>
    refine hview.of_system hsend.system fun a ha => ?_
    obtain heq | ⟨hcheck, h⟩ := send_of_processTx h
    · rw [heq]
      exact ha
    · obtain ⟨i, -, heq⟩ | ⟨o, -, heq⟩ | heq := getAccount_processSend hlib hcheck h a
      · rw [heq]
        rfl
      · rw [heq]
        rfl
      · rw [heq]
        exact ha
  | contract _ hexec h =>
    refine hview.of_system (system_contract hexec h) ?_
    have hruns := keepsAccounts_runs ((Vm.ends_execute ..).of_ok hexec)
    cases settled h with
    | refused => exact hruns
    | charged _ hcharged _ =>
      obtain ⟨acc', rfl⟩ := chargeSender_eq hcharged
      exact .trans hruns (keepsAccounts_setAccount _ _ acc')

end Executor

/-- The validators of every later state have accounts, if those of the first state have. -/
theorem later_validatorsHaveAccounts {v v' : StoreView} (h : Later (fun x => x.lib.Lawful) v v')
    (hv : v.ValidatorsHaveAccounts) : v'.ValidatorsHaveAccounts := by
  induction h with
  | refl => exact hv
  | tx _ hx hstep ih => exact Executor.validatorsHaveAccounts_processTx hx hstep ih
  | opened _ hstore ih =>
    intro vs hvs val hval
    rw [getValidatorSet, hstore] at hvs
    rw [getAccount, hstore]
    exact ih vs hvs val hval

namespace Ledger

def updatingConfig : LedgerConfig :=
  { dynastyConfig with exec := { dynastyConfig.exec with lib := strictTxLibrary } }

theorem later_validatorsHaveAccounts_update :
    ∃ l', (atGenesis genesisBlock dynastyGenesis).applyBlockTxs updatingConfig dynastyBlock =
      .ok (l', .ok, some false) ∧ l'.delivered.ValidatorsHaveAccounts := by
  obtain ⟨l', happly⟩ : ∃ l', (atGenesis genesisBlock dynastyGenesis).applyBlockTxs updatingConfig
      dynastyBlock = .ok (l', .ok, some false) := ⟨_, rfl⟩
  refine ⟨l', happly, later_validatorsHaveAccounts
    (later_applyBlockTxs lawful_strictTxLibrary happly) ?_⟩
  rintro vs ⟨⟩ v hv
  obtain rfl := List.mem_singleton.mp hv
  rfl

end Ledger

end ThetaSubchain
