/-
What a transaction that fails leaves in the view (ledger/execution/executor.go).

An update of the validator set makes the accounts of its validators before it compares dynasties
and asks the witness, and a smart contract has run before its fee is charged.
-/
import ThetaSubchain.Ledger.ContractCharge

namespace ThetaSubchain

open Vm (ExecuteResult)
open StoreView

/-- The same state root, as a root names its content, and the same flags. -/
def StoreView.SameState (view view' : StoreView) : Prop :=
  view'.store = view.store ∧
    view'.coinbaseTransactinProcessed = view.coinbaseTransactinProcessed ∧
    view'.subchainValidatorSetTransactinProcessed = view.subchainValidatorSetTransactinProcessed

theorem StoreView.SameState.refl (view : StoreView) : view.SameState view := ⟨rfl, rfl, rfl⟩

namespace Executor

variable {x : Executor} {pos : Position} {sel : ViewSelector} {view : StoreView}

/-- A transaction that fails or stays undecided leaves the state and the flags as they are. -/
def NoTrace (x : Executor) (pos : Position) (sel : ViewSelector) (view : StoreView) (tx : Tx) :
    Prop :=
  ∀ out, x.processTx pos sel view tx = .ok out → out.result ≠ .ok → view.SameState out.view

/-- The dynasty is not new, or the witness does not know it, or knows another validator set. -/
def TurnsDown (x : Executor) (view : StoreView) (tx : SubchainValidatorSetUpdateTx) : Prop :=
  ∃ d, view.getDynasty = some d ∧ (tx.dynasty ≤ d ∨
    ∀ vs, x.getValidatorSetByDynasty tx.dynasty = some vs → (newValidatorSet tx).equals vs = false)

theorem isSome_makeValidatorAccount (view : StoreView) (v : Validator) (a : Address)
    (h : (view.getAccount a).isSome ∨ v.address = a) :
    ((makeValidatorAccount view v).getAccount a).isSome := by
  unfold makeValidatorAccount
  split
  · next acc hacc =>
    rcases h with h | rfl
    · exact h
    · rw [hacc]
      rfl
  · rw [getAccount_setAccount]
    split
    · rfl
    · next hne =>
      rcases h with h | h
      · exact h
      · exact absurd h.symm hne

theorem isSome_makeValidatorAccounts (validators : List Validator) (view : StoreView)
    (a : Address) (h : (view.getAccount a).isSome ∨ ∃ v ∈ validators, v.address = a) :
    ((makeValidatorAccounts view validators).getAccount a).isSome := by
  induction validators generalizing view with
  | nil =>
    rcases h with h | ⟨v, hv, -⟩
    · exact h
    · exact nomatch hv
  | cons w validators ih =>
    show ((makeValidatorAccounts (makeValidatorAccount view w) validators).getAccount a).isSome
    apply ih
    rcases h with h | ⟨v, hv, hva⟩
    · exact .inl (isSome_makeValidatorAccount view w a (.inl h))
    · rcases List.mem_cons.mp hv with rfl | hv
      · exact .inl (isSome_makeValidatorAccount view v a (.inr hva))
      · exact .inr ⟨v, hv, hva⟩

variable {tx : SubchainValidatorSetUpdateTx}

theorem processValidatorSetUpdate_eq {out : Outcome}
    (hflag : view.subchainValidatorSetTransactinProcessed = false)
    (h : x.processValidatorSetUpdate view tx = .ok out) :
    (x.TurnsDown view tx ∧ out.view = makeValidatorAccounts view tx.validators ∧
      out.result ≠ .ok) ∨ (¬ x.TurnsDown view tx ∧ out.result = .ok) := by
  cases updateOutcome h with
  | again hdone => cases hflag.symm.trans hdone
  | older _ _ hd hle => exact .inl ⟨⟨_, hd, .inl hle⟩, rfl, nofun⟩
  | undecided _ hd _ hnone =>
    refine .inl ⟨⟨_, hd, .inr fun vs hvs => ?_⟩, rfl, nofun⟩
    cases hnone.symm.trans hvs
  | differs _ _ hd _ hvs hne =>
    refine .inl ⟨⟨_, hd, .inr fun vs hvs' => ?_⟩, rfl, nofun⟩
    obtain rfl := Option.some.inj (hvs.symm.trans hvs')
    exact hne
  | installed _ hd hlt hvs heq =>
    refine .inr ⟨?_, rfl⟩
    rintro ⟨d, hd', hle | hall⟩
    · obtain rfl := Option.some.inj (hd.symm.trans hd')
      exact absurd hlt (Int.not_lt.mpr hle)
    · rw [hall _ hvs] at heq
      cases heq

theorem flag_of_sanityCheckUpdate
    (h : x.sanityCheck pos view (.subchainValidatorSetUpdate tx) = .ok ()) :
    view.subchainValidatorSetTransactinProcessed = false := by
  obtain ⟨-, -, h⟩ := Ending.bind_eq_ok.mp h
  change x.sanityCheckValidatorSetUpdate pos view tx = .ok () at h
  unfold sanityCheckValidatorSetUpdate checkProposer at h
  obtain ⟨vs, -, h⟩ := Ending.bind_eq_ok.mp h
  obtain ⟨-, -, h⟩ := Ending.bind_eq_ok.mp h
  obtain ⟨_, hflag, -⟩ := Ending.bind_eq_ok.mp h
  simpa using require_eq_ok.mp hflag

theorem noTrace_update_iff :
    x.NoTrace pos sel view (.subchainValidatorSetUpdate tx) ↔
      (x.sanityCheck pos view (.subchainValidatorSetUpdate tx) = .ok () → x.TurnsDown view tx →
        ∀ v ∈ tx.validators, (view.getAccount v.address).isSome) := by
  constructor
  · intro hno hcheck hdown v hv
    have hflag := flag_of_sanityCheckUpdate hcheck
    obtain ⟨d, hd, hturn⟩ := hdown
    obtain ⟨out, hout⟩ := exists_processValidatorSetUpdate hd tx
    have hprocess : x.processTx pos sel view (.subchainValidatorSetUpdate tx) = .ok out := by
      rw [processTx, hcheck]
      exact hout
    obtain ⟨-, hview, hne⟩ | ⟨hnot, -⟩ := processValidatorSetUpdate_eq hflag hout
    · obtain ⟨hstore, -⟩ := hno out hprocess hne
      have hmade := isSome_makeValidatorAccounts tx.validators view v.address (.inr ⟨v, hv, rfl⟩)
      rw [getAccount, ← hview, hstore] at hmade
      exact hmade
    · exact absurd ⟨d, hd, hturn⟩ hnot
  · intro haccounts out h hne
    obtain ⟨_, rfl, -⟩ | ⟨hcheck, h⟩ := processTx_cases h
    · exact .refl view
    · obtain ⟨hdown, hview, -⟩ | ⟨-, hok⟩ :=
        processValidatorSetUpdate_eq (flag_of_sanityCheckUpdate hcheck) h
      · rw [hview, makeValidatorAccounts_eq (haccounts hcheck hdown)]
        exact .refl view
      · exact absurd hok hne

/-- A transaction whose sender no precompiled contract takes TFuel from: of a plain account
without Theta, on a chain with its token bank. -/
structure Affordable (x : Executor) (pos : Position) (view : StoreView) (tx : SmartContractTx) :
    Prop where
  height : pos.height = view.height
  chainID : 0 ≤ pos.parentBlock.chainID
  bank : view.getTFuelTokenBankContractAddress.isSome
  sender : ∀ acc, view.getAccount tx.sender.address = some acc →
    acc.thetaWei = 0 ∧ acc.codeHash = emptyCodeHash
  avoids : x.vmLib.Avoids tx.sender.address
  spares : x.SparesSender pos view tx

theorem processSmartContract_ok (hlib : x.lib.Lawful) (hparams : x.vmParams.Charges)
    (hfuel : x.vmParams.enoughFuel ≤ x.fuel) {tx : SmartContractTx}
    (haffordable : x.Affordable pos view tx)
    (hcheck : x.sanityCheckSmartContract pos view tx = .ok ()) {out : Outcome}
    (h : x.processSmartContract pos sel view tx = .ok out) : out.result = .ok := by
  obtain ⟨gasPrice, acc, r, m, htheta, hprice, hnonneg, hacc, hfunds, hexec, hused, hkept⟩ :=
    exists_senderKept x hlib hparams hfuel pos view tx haffordable.height haffordable.chainID
      haffordable.bank haffordable.sender haffordable.avoids hcheck
  obtain ⟨left, updated, -, -, -, hinput, hfee⟩ :=
    exists_left hlib htheta hnonneg hfunds hexec hused haffordable.spares hkept
  have hpays : x.PaysFee tx r m.stateDB := by
    refine ⟨_, gasPrice, hinput, hprice, ?_⟩
    simp only [Account.isGTE, Bool.and_eq_true, decide_eq_true_eq]
    exact ⟨Int.natCast_nonneg _, hfee⟩
  unfold processSmartContract at h
  rw [hexec] at h
  exact settle_ok_of_paysFee hpays h

theorem noTrace_of_process {tx : Tx}
    (h : x.sanityCheck pos view tx = .ok () → ∀ out, x.process pos sel view tx = .ok out →
      out.result ≠ .ok → view.SameState out.view) : x.NoTrace pos sel view tx := by
  intro out hout hne
  obtain ⟨_, rfl, -⟩ | ⟨hcheck, hout⟩ := processTx_cases hout
  · exact .refl view
  · exact h hcheck out hout hne

theorem noTrace_coinbase (tx : CoinbaseTx) : x.NoTrace pos sel view (.coinbase tx) := by
  apply noTrace_of_process
  intro _ out hout hne
  change Except.ok (processCoinbase view) = Except.ok out at hout
  cases hout
  unfold processCoinbase at hne ⊢
  split at hne
  · next hflag =>
    rw [if_pos hflag]
    exact .refl view
  · exact absurd rfl hne

theorem noTrace_send (tx : SendTx) : x.NoTrace pos sel view (.send tx) := by
  apply noTrace_of_process
  intro _ out hout hne
  change x.processSend view tx = .ok out at hout
  cases sendOutcome hout with
  | refused => exact .refl view
  | sent => exact absurd rfl hne

theorem noTrace_stake (forValidator : Bool) :
    x.NoTrace pos sel view (.depositStake forValidator) ∧
      x.NoTrace pos sel view (.withdrawStake forValidator) := by
  constructor
  · refine noTrace_of_process fun _ out hout _ => ?_
    cases hout
    exact .refl view
  · refine noTrace_of_process fun _ out hout _ => ?_
    cases hout
    exact .refl view

theorem noTrace_smartContract (hlib : x.lib.Lawful) (hparams : x.vmParams.Charges)
    (hfuel : x.vmParams.enoughFuel ≤ x.fuel) {tx : SmartContractTx}
    (haffordable : x.Affordable pos view tx) : x.NoTrace pos sel view (.smartContract tx) := by
  apply noTrace_of_process
  intro hcheck out hout hne
  obtain ⟨_, hsupported, hcheck⟩ := Ending.bind_eq_ok.mp hcheck
  unfold process at hout
  rw [require_eq_ok.mp hsupported] at hout
  exact absurd (processSmartContract_ok hlib hparams hfuel haffordable hcheck hout) hne

end Executor

def newcomerUpdate : SubchainValidatorSetUpdateTx where
  proposer := { address := 7, signature := some ⟨[1]⟩ }
  dynasty := 2
  validators := [⟨9, 5⟩]

def newcomerExecutor : Executor :=
  { plainExecutor [] (fun _ => none) ⟨1, [⟨7, 10⟩]⟩ with
    lib := strictTxLibrary
    fuel := Vm.constantinopleParams.enoughFuel }

def leftBehind (x : Executor) (tx : Tx) : Option (Result × Bool × Int) :=
  match x.processTx burnerPosition .checked burnerView tx with
  | .ok out => some (out.result, (out.view.getAccount 9).isSome, out.view.getBalance 7)
  | .error _ => none

theorem not_noTrace_of_leftBehind {x : Executor} {tx : Tx} {result : Result} {made : Bool}
    {left : Int}
    (h : leftBehind x tx = some (result, made, left)) (hne : result ≠ .ok)
    (hleft : made = true ∨ left ≠ 1000000000000000) :
    ¬ x.NoTrace burnerPosition .checked burnerView tx := by
  intro hno
  unfold leftBehind at h
  split at h
  · next out hout =>
    obtain ⟨rfl, rfl, rfl⟩ : out.result = result ∧ (out.view.getAccount 9).isSome = made ∧
        out.view.getBalance 7 = left := by simpa using h
    obtain ⟨hstore, -⟩ := hno out hout hne
    have haccount : out.view.getAccount = burnerView.getAccount := by
      unfold getAccount
      rw [hstore]
    have hbalance : out.view.getBalance 7 = burnerView.getBalance 7 := by
      rw [getBalance, getOrCreateAccount, haccount]
      rfl
    rcases hleft with h | h
    · rw [haccount] at h
      cases h
    · exact h hbalance
  · cases h

def renewalUpdate : SubchainValidatorSetUpdateTx := { newcomerUpdate with validators := [⟨7, 5⟩] }

end ThetaSubchain
