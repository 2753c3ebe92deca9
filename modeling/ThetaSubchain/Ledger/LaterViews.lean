/-
What every later view of the chain keeps: an account never has Theta.

The checks of ledger/execution/tx_send.go admit inputs and a fee without Theta only, and the virtual
machine moves none.
-/
import ThetaSubchain.Ledger.Returns

namespace ThetaSubchain

open Ending StoreView Option

/-- A later view of the chain: after a transaction, whatever its result, or opened on the state of
an earlier view. -/
inductive Later (P : Executor → Prop) (v : StoreView) : StoreView → Prop where
  | refl : Later P v v
  | tx {v' : StoreView} {x : Executor} {pos : Position} {sel : ViewSelector} {tx : Tx}
    {out : Outcome} (h : Later P v v') (hx : P x)
    (hstep : x.processTx pos sel v' tx = .ok out) : Later P v out.view
  | opened {v' v'' : StoreView} (h : Later P v v') (hstore : v''.store = v'.store) : Later P v v''

/-- The ledger goes on to a later view with every block that it applies. -/
theorem Ledger.later_applyBlockTxs {P : Executor → Prop} {cfg : LedgerConfig} (hcfg : P cfg.exec)
    {block : Block} {l l' : Ledger} {update : Option Bool}
    (h : l.applyBlockTxs cfg block = .ok (l', .ok, update)) :
    Later P l.delivered l'.delivered := by
  obtain ⟨l₁, flag, hexec, -, rfl⟩ := applyBlockTxs_eq_ok h
  suffices hlater : Later P l.delivered l₁.delivered from hlater.opened rfl
  refine (executeTxs_spec (P := fun l₁ => Later P l.delivered l₁.delivered) ?_ hexec .refl).1
  intro l₁ tx l₂ res hl₁ hstep
  obtain ⟨out, hout, -, rfl⟩ := processTx_eq_ok hstep
  exact hl₁.tx hcfg hout

namespace Executor

variable {x : Executor} {pos : Position} {sel : ViewSelector} {view : StoreView} {out : Outcome}

variable {tx : SendTx}

theorem send_of_processTx (h : x.processTx pos sel view (.send tx) = .ok out) :
    out.view = view ∨ x.sanityCheckSend view tx = .ok () ∧ x.processSend view tx = .ok out := by
  obtain ⟨_, rfl, -⟩ | ⟨hcheck, h⟩ := processTx_cases h
  · exact .inl rfl
  · obtain ⟨_, -, hcheck⟩ := bind_eq_ok.mp hcheck
    exact .inr ⟨hcheck, h⟩

/-- The account that a send transaction leaves at an address. -/
theorem getAccount_processSend (hlib : x.lib.Lawful) (hcheck : x.sanityCheckSend view tx = .ok ())
    (h : x.processSend view tx = .ok out) (a : Address) :
    (∃ i ∈ tx.inputs, out.view.getAccount a = some (x.paidAccount view i)) ∨
      (∃ o ∈ tx.outputs, out.view.getAccount a = some (x.creditedAccount view o)) ∨
      out.view.getAccount a = view.getAccount a := by
  obtain ⟨view', hprocess, hin, hout, hother, -⟩ :=
    exists_processSend hlib (sendChecked_of_sanityCheck hcheck)
  obtain rfl : _ = out := Except.ok.inj (hprocess.symm.trans h)
  by_cases hi : a ∈ tx.inputs.map TxInput.address
  · obtain ⟨i, hmem, rfl⟩ := List.mem_map.mp hi
    exact .inl ⟨i, hmem, hin i hmem⟩
  · by_cases ho : a ∈ tx.outputs.map TxOutput.address
    · obtain ⟨o, hmem, rfl⟩ := List.mem_map.mp ho
      exact .inr (.inl ⟨o, hmem, hout o hmem⟩)
    · exact .inr (.inr (hother a hi ho))

theorem le_foldl_theta (outs : List TxOutput) (c : Coins) (h : ∀ o ∈ outs, 0 ≤ o.coins.theta) :
    c.theta ≤ (outs.foldl (fun total out => total.plus out.coins) c).theta ∧ ∀ o ∈ outs,
      c.theta + o.coins.theta ≤ (outs.foldl (fun total out => total.plus out.coins) c).theta := by
  induction outs generalizing c with
  | nil => exact ⟨le_rfl, fun _ h => absurd h List.not_mem_nil⟩
  | cons o outs ih =>
    obtain ⟨ho, houts⟩ := List.forall_mem_cons.mp h
    obtain ⟨hle, hall⟩ := ih (c.plus o.coins) houts
    have hplus : (c.plus o.coins).theta = c.theta + o.coins.theta := rfl
    rw [List.foldl_cons]
    refine ⟨by omega, List.forall_mem_cons.mpr ⟨by omega, fun o' ho' => ?_⟩⟩
    have := hall o' ho'
    omega

/-- Inputs without Theta and a fee without Theta leave none for the outputs. -/
theorem theta_outputs (hlib : x.lib.Lawful) (h : x.sanityCheckSend view tx = .ok ()) {o : TxOutput}
    (ho : o ∈ tx.outputs) : o.coins.theta = 0 := by
  have hchecked := sendChecked_of_sanityCheck h
  have hnonneg : ∀ o ∈ tx.outputs, 0 ≤ o.coins.theta := by
    intro o ho
    have hvalid := hlib.validateOutput o (hchecked.outputs o ho)
    simp only [Coins.isNonnegative, Bool.and_eq_true, decide_eq_true_eq] at hvalid
    exact hvalid.1
  obtain ⟨_, -, h⟩ := bind_eq_ok.mp h
  obtain ⟨_, -, h⟩ := bind_eq_ok.mp h
  obtain ⟨_, -, h⟩ := bind_eq_ok.mp h
  obtain ⟨_, -, h⟩ := bind_eq_ok.mp h
  obtain ⟨accounts, -, h⟩ := bind_eq_ok.mp h
  obtain ⟨_, -, h⟩ := bind_eq_ok.mp h
  obtain ⟨accounts', -, h⟩ := bind_eq_ok.mp h
  obtain ⟨_, -, h⟩ := bind_eq_ok.mp h
  obtain ⟨total, htotal, h⟩ := bind_eq_ok.mp h
  obtain ⟨_, hfee, hequal⟩ := bind_eq_ok.mp h
  have hin : total.theta = 0 := by
    refine foldlM_ok (P := fun c : Coins => c.theta = 0) htotal rfl ?_
    intro i hi c c' hc hround
    obtain ⟨acc, -, hround⟩ := bind_eq_ok.mp hround
    obtain ⟨_, -, hround⟩ := bind_eq_ok.mp hround
    cases hround
    show c.theta + i.coins.theta = 0
    rw [hc, (hchecked.inputs i hi).2]
    rfl
  have hfee := require_eq_ok.mp hfee
  have hequal := require_eq_ok.mp hequal
  simp only [sanityCheckForSendTxFee, Coins.isEqual, Bool.and_eq_true, beq_iff_eq] at hfee hequal
  have hsum : total.theta = (sumOutputs tx.outputs).theta + tx.fee.theta := hequal.1
  have hle : 0 + o.coins.theta ≤ (sumOutputs tx.outputs).theta :=
    (le_foldl_theta tx.outputs ⟨some 0, some 0⟩ hnonneg).2 o ho
  have := hnonneg o ho
  omega

theorem noTheta_setAccount {addr : Address} {acc : Account} (hview : view.NoTheta)
    (hacc : acc.thetaWei = 0) : (view.setAccount addr acc).NoTheta := by
  intro a acc' h
  rw [getAccount_setAccount] at h
  split at h
  · cases h
    exact hacc
  · exact hview a acc' h

theorem noTheta_makeValidatorAccounts (validators : List Validator) {view : StoreView}
    (hview : view.NoTheta) : (makeValidatorAccounts view validators).NoTheta := by
  induction validators generalizing view with
  | nil => exact hview
  | cons v validators ih =>
    refine ih ?_
    unfold makeValidatorAccount
    split
    · exact hview
    · exact noTheta_setAccount hview rfl

theorem theta_of_noTheta {v : StoreView} (hv : v.NoTheta) (a : Address) : v.theta a = 0 := by
  rw [theta, getOrCreateAccount]
  cases hold : v.getAccount a with
  | none => rfl
  | some old => exact hv a old hold

theorem noTheta_of_theta {v w : StoreView} (h : ∀ a, w.theta a = v.theta a) (hv : v.NoTheta) :
    w.NoTheta := by
  intro a acc hacc
  have hw : w.theta a = acc.thetaWei := by rw [theta, getOrCreateAccount, hacc]; rfl
  rw [← hw, h a, theta_of_noTheta hv a]

theorem noTheta_settle (hlib : x.lib.Lawful) {tx : SmartContractTx} {r : Vm.ExecuteResult}
    (h : x.settle sel tx r view = .ok out) (hview : view.NoTheta) : out.view.NoTheta := by
  cases settled h with
  | refused => exact hview
  | charged =>
    obtain ⟨gasPrice, acc, -, hacc, -, heq⟩ := settle_eq_ok h rfl
    rw [heq]
    refine noTheta_setAccount hview ?_
    rw [getInput, getOrMakeAccountImpl] at hacc
    cases hold : view.getAccount tx.sender.address with
    | none =>
      rw [hold] at hacc
      cases hacc
    | some old =>
      obtain ⟨updated, hloaded⟩ := hlib.updateToHeight view.height old (hview _ old hold)
      rw [hold] at hacc
      cases hacc
      show (x.lib.updateToHeight view.height old).thetaWei = 0
      rw [hloaded]
      exact hview _ old hold

theorem noTheta_processTx (hlib : x.lib.Lawful) {tx : Tx}
    (h : x.processTx pos sel view tx = .ok out) (hview : view.NoTheta) : out.view.NoTheta := by
  cases txOutcome h with
  | refused => exact hview
  | coinbase => exact hview
  | @update tx _ _ h =>
    have hmade := noTheta_makeValidatorAccounts tx.validators hview
    cases h with
    | again => exact hview
    | _ => exact hmade
  | @send tx _ hsend =>
    obtain heq | ⟨hcheck, h⟩ := send_of_processTx h
    · rw [heq]
      exact hview
    · have hzero : ∀ addr, (x.loaded view addr).thetaWei = 0 := by
        intro addr
        obtain ⟨updated, heq⟩ := loaded_eq hlib hview addr
        rw [heq]
        unfold getOrCreateAccount
        cases hold : view.getAccount addr with
        | none => rfl
        | some old => exact hview addr old hold
      intro a acc hacc
      obtain ⟨i, hi, heq⟩ | ⟨o, ho, heq⟩ | heq := getAccount_processSend hlib hcheck h a
      · obtain rfl := some.inj (heq.symm.trans hacc)
        show ((x.loaded view i.address).thetaWei - i.coins.theta).toNat = 0
        rw [hzero, ((sendChecked_of_sanityCheck hcheck).inputs i hi).2]
        rfl
      · obtain rfl := some.inj (heq.symm.trans hacc)
        show ((x.loaded view o.address).thetaWei + o.coins.theta).toNat = 0
        rw [hzero, theta_outputs hlib hcheck ho]
        rfl
      · exact hview a acc (heq.symm.trans hacc)
  | contract _ hexec h =>
    refine noTheta_settle hlib h ?_
    exact noTheta_of_theta (theta_runs ((Vm.ends_execute ..).of_ok hexec)) hview

end Executor

/-- No account of a chain that starts without Theta ever has any. -/
theorem later_noTheta {v v' : StoreView} (h : Later (fun x => x.lib.Lawful) v v')
    (hv : v.NoTheta) : v'.NoTheta := by
  induction h with
  | refl => exact hv
  | tx _ hx hstep ih => exact Executor.noTheta_processTx hx hstep ih
  | opened _ hstore ih =>
    intro a acc hacc
    rw [getAccount, hstore] at hacc
    exact ih a acc hacc

def sendPosition : Position := ⟨4, ⟨4, 0, 1⟩, 0⟩

theorem processTx_sampleSend :
    ∃ out, sendExecutor.processTx sendPosition .delivered sendView (.send sampleSend) = .ok out ∧
      out.result = .ok := by
  have hcheck : sendExecutor.sanityCheckSend sendView sampleSend = .ok () := by decide
  obtain ⟨view', hsend, -⟩ :=
    Executor.exists_processSend lawful_strictTxLibrary (Executor.sendChecked_of_sanityCheck hcheck)
  exact ⟨⟨view', .ok, none⟩, hsend, rfl⟩

theorem later_noTheta_payment :
    ∃ out, sendExecutor.processTx sendPosition .delivered sendView (.send sampleSend) = .ok out ∧
      out.view.NoTheta := by
  obtain ⟨out, hout, -⟩ := processTx_sampleSend
  exact ⟨out, hout, later_noTheta (.tx .refl lawful_strictTxLibrary hout) sendView_noTheta⟩

end ThetaSubchain
