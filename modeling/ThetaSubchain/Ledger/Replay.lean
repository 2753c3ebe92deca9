/-
A transaction is executed once (ledger/execution/tx_{send,smart_contract}.go).

The check compares the sequences of the inputs with those of their accounts, which processing the
transaction increments.  The machine increments that of a creator.
-/
import ThetaSubchain.Ledger.CreateOnce
import ThetaSubchain.Ledger.LaterViews

namespace ThetaSubchain

open Ending StoreView Option

/-- On the way to the later view the sequence of `a` is incremented, after `j` and before `k` other
increments. -/
def StoreView.Advances (a : Address) (j k : Nat) (v v' : StoreView) : Prop :=
  ∃ w w', Onward j v w ∧ w'.getNonce a = w.getNonce a + 1 ∧ Onward k w' v'

theorem StoreView.Advances.lt {a : Address} {j k : Nat} {v v' : StoreView}
    (h : Advances a j k v v') (hwrap : (v.getNonce a).toNat + j + 1 + k < 2 ^ 64) :
    (v.getNonce a).toNat < (v'.getNonce a).toNat := by
  obtain ⟨w, w', hj, hnext, hk⟩ := h
  have hbefore := hj.bounds a (by omega)
  have hone : (w'.getNonce a).toNat = (w.getNonce a).toNat + 1 := by
    rw [hnext, UInt64.toNat_add, show (1 : UInt64).toNat = 1 from rfl]
    exact Nat.mod_eq_of_lt (by omega)
  have hafter := hk.bounds a (by omega)
  omega

open StoreView (Onward Advances)

namespace Vm

variable {env : Env} {run : Runner} {caller : ContractRef} {code : Bytes} {gas : UInt64}
  {value : Int} {m : Evm}

theorem ends_create1_begun (hrun : run.Sound env)
    (hfunds : Evm.canTransfer m.stateDB caller.address value = true) :
    Ends (Runs env (begun caller m)) (create1 env run 0 caller code gas value) m := by
  apply ends_get
  apply ends_get
  rw [if_neg (Nat.not_lt_zero _), hfunds, Bool.not_true, if_neg Bool.false_ne_true]
  apply ends_modify_bind
  apply ends_get
  dsimp only
  split
  · exact ends_pure (.refl _)
  · next hfree =>
    simp only [not_or, not_and, not_not, ne_eq] at hfree
    exact ends_bind_pure (ends_createFrame hrun caller code gas value
      ⟨hfree.1, or_iff_not_imp_left.mpr hfree.2⟩)

theorem ends_execute_begun {p : Params} {lib : Library} {fuel : Nat} {parentBlockInfo : BlockInfo}
    {tx : SmartContractTx} (hto : tx.toAddress = 0)
    (hfunds : Evm.canTransfer m.stateDB tx.sender.address tx.sender.coins.tfuel = true)
    (hlimit : tx.gasLimit.toNat ≤ p.maxGasLimit m.stateDB.getBlockHeight)
    (hgas : calculateIntrinsicGas p tx.data (tx.toAddress == 0) = some gas)
    (hle : gas ≤ tx.gasLimit) :
    Ends (Runs (txEnv p lib parentBlockInfo tx) (begun (.account tx.sender.address) m))
      (execute p lib fuel parentBlockInfo tx) m := by
  apply ends_get
  rw [if_neg (not_lt.mpr hlimit), hgas]
  dsimp only
  rw [if_neg (UInt64.not_lt.mpr hle), if_pos (by simpa using hto)]
  exact ends_bind_pure (ends_create1_begun (sound_interpret _ fuel 0 false) hfunds)

end Vm

namespace Executor

variable {x : Executor} {pos : Position} {sel : ViewSelector} {view : StoreView} {out : Outcome}

/-- The inputs whose sequences the check of a transaction compares. -/
def numberedInputs : Tx → List TxInput
  | .send tx => tx.inputs
  | .smartContract tx => [tx.sender]
  | _ => []

variable {tx : Tx} {i : TxInput}

theorem sequence_of_sanityCheck (hkeeps : x.KeepsSequences)
    (h : x.sanityCheck pos view tx = .ok ()) (hi : i ∈ numberedInputs tx) :
    view.getNonce i.address + 1 = i.sequence := by
  obtain ⟨_, -, h⟩ := bind_eq_ok.mp h
  cases tx with
  | send tx =>
    rw [← sequence_of_getOrMake hkeeps (getOrMakeAccountImpl_true i.address)]
    exact ((sendChecked_of_sanityCheck h).funded i hi).1
  | smartContract tx =>
    obtain rfl : i = tx.sender := List.mem_singleton.mp hi
    obtain ⟨_, -, h⟩ := bind_eq_ok.mp h
    obtain ⟨_, -, h⟩ := bind_eq_ok.mp h
    split at h
    · cases h
    · next acc hacc =>
      obtain ⟨_, hseq, -⟩ := bind_eq_ok.mp h
      rw [← sequence_of_getOrMake hkeeps hacc]
      exact eq_of_beq (require_eq_ok.mp hseq)
  | _ => cases hi

theorem advances_send (hkeeps : x.KeepsSequences) (hlib : x.lib.Lawful) {tx : SendTx}
    (h : x.sanityCheckSend view tx = .ok ()) (hprocess : x.processSend view tx = .ok out)
    (hi : i ∈ tx.inputs) : Advances i.address 0 0 view out.view := by
  obtain ⟨view', heq, hin, -⟩ := exists_processSend hlib (sendChecked_of_sanityCheck h)
  obtain rfl : _ = out := Except.ok.inj (heq.symm.trans hprocess)
  refine ⟨_, _, .refl _, ?_, .refl _⟩
  rw [getNonce_of_some (hin i hi)]
  exact congrArg (· + 1) (sequence_of_getOrMake hkeeps (getOrMakeAccountImpl_true i.address))

theorem next_of_settle (hkeeps : x.KeepsSequences) {tx : SmartContractTx} {r : Vm.ExecuteResult}
    (hto : tx.toAddress ≠ 0) (h : x.settle sel tx r view = .ok out) (hok : out.result = .ok) :
    out.view.getNonce tx.sender.address = view.getNonce tx.sender.address + 1 := by
  obtain ⟨gasPrice, acc, -, hacc, -, heq⟩ := settle_eq_ok h hok
  rw [heq]
  show (view.setAccount _ _).getNonce _ = _
  rw [getNonce_setAccount, if_pos rfl, ← sequence_of_getOrMake hkeeps hacc]
  exact if_neg (by simpa using hto)

theorem runs_of_create {tx : SmartContractTx} {r : Vm.ExecuteResult} {m : Vm.Evm}
    (hlib : x.lib.Lawful) (hheight : pos.height = view.height)
    (htheta : view.theta tx.sender.address = 0) (hto : tx.toAddress = 0)
    (hcheck : x.sanityCheckSmartContract pos view tx = .ok ())
    (hexec : x.executeSmartContract pos view tx = .ok r m) :
    Vm.Runs (Vm.txEnv x.vmParams x.vmLib pos.parentBlock tx)
      (Vm.begun (.account tx.sender.address) (startMachine view)) m := by
  obtain ⟨gasPrice, acc, hchecked⟩ := contractChecked_of_sanityCheck hcheck
  obtain ⟨gas, hgas, hle⟩ := exists_intrinsicGas hchecked.intrinsicGas
  refine (Vm.ends_execute_begun hto ?_ ?_ hgas hle).of_ok hexec
  · exact hchecked.canTransfer hlib htheta
  · have hlimit := hchecked.gasLimit
    rw [hheight] at hlimit
    exact hlimit

theorem advances_processTx (hkeeps : x.KeepsSequences) (hlib : x.lib.Lawful)
    (hheight : pos.height = view.height) (h : x.processTx pos sel view tx = .ok out)
    (hok : out.result = .ok) (hi : i ∈ numberedInputs tx) (htheta : view.theta i.address = 0) :
    ∃ j k, Advances i.address j k view out.view := by
  obtain ⟨_, rfl, -⟩ | ⟨hcheck, hprocess⟩ := processTx_cases h
  · cases hok
  cases txOutcome h with
  | refused => cases hok
  | coinbase => cases hi
  | update => cases hi
  | send =>
    obtain ⟨_, -, hcheck⟩ := bind_eq_ok.mp hcheck
    exact ⟨0, 0, advances_send hkeeps hlib hcheck hprocess hi⟩
  | @contract tx _ m _ _ hexec h =>
    obtain rfl : i = tx.sender := List.mem_singleton.mp hi
    have hstart : Onward 0 view (startMachine view).stateDB := .keep _ _ fun _ => rfl
    by_cases hto : tx.toAddress = 0
    · obtain ⟨_, -, hcheck⟩ := bind_eq_ok.mp hcheck
      obtain ⟨j, hj⟩ := onward_runs (runs_of_create hlib hheight htheta hto hcheck hexec)
      obtain ⟨k, hk⟩ := onward_settle hkeeps h
      refine ⟨0, j + k, _, _, hstart, ?_, hj.trans hk⟩
      exact (getNonce_setAccount ..).trans (if_pos rfl)
    · obtain ⟨j, hj⟩ := onward_runs ((Vm.ends_execute ..).of_ok hexec)
      exact ⟨0 + j, 0, _, _, hstart.trans hj, next_of_settle hkeeps hto h hok, .refl _⟩

end Executor

theorem Later.onward {v v' : StoreView} (h : Later Executor.KeepsSequences v v') :
    ∃ k, Onward k v v' := by
  induction h with
  | refl => exact ⟨0, .refl _⟩
  | tx _ hkeeps hstep ih =>
    obtain ⟨j, hj⟩ := ih
    obtain ⟨k, hk⟩ := Executor.onward_processTx hkeeps hstep
    exact ⟨j + k, hj.trans hk⟩
  | opened _ hstore ih =>
    obtain ⟨j, hj⟩ := ih
    refine ⟨j + 0, hj.trans (.keep _ _ fun c => ?_)⟩
    rw [getNonce, getNonce, getOrCreateAccount, getOrCreateAccount, getAccount, getAccount, hstore]

/-- A transaction that was executed is refused in every later view, whoever checks it, unless
`2 ^ 64` increments have led a sequence around. -/
theorem replay_refused {x x' : Executor} {pos pos' : Position} {sel : ViewSelector}
    {view later : StoreView} {tx : Tx} {out : Outcome} {i : TxInput} (hkeeps : x.KeepsSequences)
    (hkeeps' : x'.KeepsSequences) (hlib : x.lib.Lawful) (hheight : pos.height = view.height)
    (hprocess : x.processTx pos sel view tx = .ok out) (hok : out.result = .ok)
    (hi : i ∈ Executor.numberedInputs tx) (htheta : view.theta i.address = 0)
    (hlater : Later Executor.KeepsSequences out.view later) :
    (∃ j k, Advances i.address j k view later) ∧
      ∀ j k, Advances i.address j k view later →
        (view.getNonce i.address).toNat + j + 1 + k < 2 ^ 64 →
          x'.sanityCheck pos' later tx ≠ .ok () := by
  constructor
  · obtain ⟨j, k, w, w', hj, hnext, hk⟩ :=
      Executor.advances_processTx hkeeps hlib hheight hprocess hok hi htheta
    obtain ⟨n, hn⟩ := hlater.onward
    exact ⟨j, k + n, w, w', hj, hnext, hk.trans hn⟩
  · intro j k hadvances hwrap hagain
    have hcheck : x.sanityCheck pos view tx = .ok () := by
      obtain ⟨_, rfl, -⟩ | ⟨hcheck, -⟩ := Executor.processTx_cases hprocess
      · cases hok
      · exact hcheck
    have hsame : later.getNonce i.address + 1 = view.getNonce i.address + 1 :=
      (Executor.sequence_of_sanityCheck hkeeps' hagain hi).trans
        (Executor.sequence_of_sanityCheck hkeeps hcheck hi).symm
    have hgrown := hadvances.lt hwrap
    rw [(UInt64.add_left_inj 1).mp hsame] at hgrown
    exact Nat.lt_irrefl _ hgrown

theorem replay_refused_payment :
    ∃ out, sendExecutor.processTx sendPosition .delivered sendView (.send sampleSend) = .ok out ∧
      Advances 1 0 0 sendView out.view ∧
      sendExecutor.sanityCheck sendPosition out.view (.send sampleSend) ≠ .ok () := by
  have hkeeps : sendExecutor.KeepsSequences := fun _ _ => rfl
  obtain ⟨out, hout, hok⟩ := processTx_sampleSend
  have hadvances : Advances 1 0 0 sendView out.view := by
    obtain ⟨_, rfl, -⟩ | ⟨hcheck, hprocess⟩ := Executor.processTx_cases hout
    · cases hok
    obtain ⟨_, -, hcheck⟩ := bind_eq_ok.mp hcheck
    exact Executor.advances_send hkeeps lawful_strictTxLibrary hcheck hprocess
      (List.mem_singleton.mpr rfl)
  exact ⟨out, hout, hadvances, (replay_refused hkeeps hkeeps lawful_strictTxLibrary rfl hout hok
    (List.mem_singleton.mpr rfl) rfl .refl).2 0 0 hadvances (by decide)⟩

end ThetaSubchain
