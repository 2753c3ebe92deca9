/-
What the receipt of a smart contract transaction records: the logs and the balance changes that the
view has collected during the execution.
-/
import ThetaSubchain.Ledger.System
import ThetaSubchain.Vm.Revert

namespace ThetaSubchain

open Rollback Ending
open Vm (Halt Evm Event ExecuteResult RevertsRestore QuietReverts)

def traceOf {α : Type} : EStateM.Result Halt Evm α → List Event
  | .ok _ m => m.trace
  | .error _ m => m.trace

namespace Executor

variable {x : Executor} {pos : Position} {view : StoreView} {tx : SmartContractTx}

variable {receipt : TxReceipt} {r : ExecuteResult}

theorem receiptOf_eq {sel : ViewSelector} (h : x.receiptOf sel tx view r = .ok (some receipt)) :
    receipt.evmErr = r.evmErr ∧ (r.evmErr = none →
      receipt.logs = view.logs ∧ receipt.balanceChanges = view.balanceChanges) := by
  unfold receiptOf at h
  split at h
  · obtain ⟨receipt', hadd, hrec⟩ := map_eq_ok.mp h
    cases hrec
    unfold addTxReceipt at hadd
    split at hadd
    · cases hadd
    · cases hadd
      refine ⟨rfl, fun hnone => ?_⟩
      simp [hnone]
  · cases h

theorem settle_receipt {sel : ViewSelector} {out : Outcome} (h : x.settle sel tx r view = .ok out)
    (hr : out.receipt = some receipt) :
    receipt.evmErr = r.evmErr ∧ (r.evmErr = none →
      receipt.logs = view.logs ∧ receipt.balanceChanges = view.balanceChanges) := by
  cases settled h with
  | refused => cases hr
  | @charged _ _ recorded _ hcharged hreceipt =>
    obtain ⟨acc', rfl⟩ := chargeSender_eq hcharged
    rw [show recorded = some receipt from hr] at hreceipt
    exact receiptOf_eq hreceipt

theorem recorded_execute (x : Executor) (pos : Position) (view : StoreView) (tx : SmartContractTx) :
    Ends (Vm.Recorded (startMachine view))
      (Vm.execute x.vmParams x.vmLib x.fuel pos.parentBlock tx) (startMachine view) :=
  (Vm.ends_execute ..).mono fun _ h => Vm.Recorded.runs h

theorem described_execute (x : Executor) (pos : Position) (view : StoreView)
    (tx : SmartContractTx) : Vm.Described (traceOf (x.executeSmartContract pos view tx)) := by
  have h := recorded_execute x pos view tx
  unfold Ends at h
  unfold executeSmartContract traceOf
  split at h <;> next heq =>
    rw [heq]
    obtain ⟨-, -, -, -, hd⟩ := h
    exact hd trivial

theorem records_execute {m : Evm} (h : x.executeSmartContract pos view tx = .ok r m) :
    m.stateDB.logs = collect Event.logs m.trace ∧
      m.stateDB.balanceChanges = collect Event.changes m.trace := by
  obtain ⟨evs, ht, hl, hb, -⟩ := (recorded_execute x pos view tx).of_ok h
  have hevs : evs = m.trace := by simpa [startMachine] using ht.symm
  subst hevs
  exact ⟨hl, hb⟩

/-- The receipt of a successful transaction has the logs and balance changes of the frames
that were not reverted, in order. -/
def ReceiptOfSurvivors (trace : List Event) (receipt : TxReceipt) : Prop :=
  receipt.logs = collect Event.logs (survivors Event.mark 0 trace) ∧
    receipt.balanceChanges = collect Event.changes (survivors Event.mark 0 trace)

theorem receiptOfSurvivors_of_quiet {out : Outcome}
    (hquiet : QuietReverts (traceOf (x.executeSmartContract pos view tx)))
    (h : x.processSmartContract pos .delivered view tx = .ok out) (hr : out.receipt = some receipt)
    (hok : receipt.evmErr = none) :
    ReceiptOfSurvivors (traceOf (x.executeSmartContract pos view tx)) receipt := by
  obtain ⟨r, m, hexec, h⟩ := processSmartContract_eq_ok h
  obtain ⟨herr, hrecorded⟩ := settle_receipt h hr
  obtain ⟨hl, hb⟩ := hrecorded (herr ▸ hok)
  obtain ⟨hl', hb'⟩ := records_execute hexec
  rw [hexec, traceOf] at hquiet
  rw [hexec]
  constructor
  · rw [hl, hl', traceOf]
    exact (Vm.collect_survivors_of_quiet (fun e he => ((Event.quiet_iff e).mp he).1) hquiet).symm
  · rw [hb, hb', traceOf]
    exact (Vm.collect_survivors_of_quiet (fun e he => ((Event.quiet_iff e).mp he).2) hquiet).symm

/-- Every failed frame is undone as a whole and the receipt of a successful transaction
records the surviving frames, exactly if no failed frame had written a log, moved, minted or
burnt TFuel, or destroyed an account. -/
theorem undone_and_receipt_iff_quiet (x : Executor) (pos : Position) (view : StoreView)
    (tx : SmartContractTx) :
    (RevertsRestore (traceOf (x.executeSmartContract pos view tx)) ∧
      ∀ out receipt, x.processSmartContract pos .delivered view tx = .ok out →
        out.receipt = some receipt → receipt.evmErr = none →
        ReceiptOfSurvivors (traceOf (x.executeSmartContract pos view tx)) receipt) ↔
      QuietReverts (traceOf (x.executeSmartContract pos view tx)) := by
  have hiff := Vm.revertsRestore_iff (described_execute x pos view tx)
  constructor
  · intro h
    exact hiff.mp h.1
  · intro hquiet
    refine ⟨hiff.mpr hquiet, ?_⟩
    intro out receipt h hr hok
    exact receiptOfSurvivors_of_quiet hquiet h hr hok

/-! ## A frame that is reverted after it wrote a log -/

def revertingView : StoreView where
  height := 1
  store :=
    { account := fun a =>
        if a = 7 then some { address := 7, tfuelWei := 1000 }
        else if a = 100 then some { address := 100, tfuelWei := 10, codeHash := 55 }
        else if a = 200 then some { address := 200, codeHash := 56 }
        else none
      code := fun h =>
        if h = 55 then
          [0x60, 0, 0x60, 0, 0x60, 0, 0x60, 0, 0x60, 5, 0x60, 200, 0x61, 0xff, 0xff, 0xf1, 0x00]
        else if h = 56 then [0x60, 0, 0x60, 0, 0xa0, 0x60, 0, 0x60, 0, 0xfd]
        else []
      tfuelTokenBank := some 9 }

def callContractTx : SmartContractTx where
  sender := { address := 7, sequence := 1 }
  toAddress := 100
  gasLimit := 1000000
  gasPrice := some 0
  data := []

def callExecutor : Executor := plainExecutor [.smartContract callContractTx] (fun _ => none) ⟨0, []⟩

def callPosition : Position := ⟨1, ⟨1, 0, 1⟩, 0⟩

def callReceipt : Option TxReceipt :=
  match callExecutor.processSmartContract callPosition .delivered revertingView callContractTx with
  | .ok out => out.receipt
  | .error _ => none

def callTrace : List Event :=
  traceOf (callExecutor.executeSmartContract callPosition revertingView callContractTx)

def leavesLog : Event → Bool
  | .reverted _ before after => before.logs == [] && after.logs == [⟨200, [], []⟩]
  | _ => false

/-- The transaction succeeds, no surviving frame wrote a log or received TFuel, and the
receipt has the log of the reverted frame and the TFuel it was sent.  The revert has left
them in the view. -/
theorem receipt_keeps_records_of_reverted_frame :
    callReceipt.map (fun r => (r.evmErr, r.logs, r.balanceChanges)) =
      some (none, [⟨200, [], []⟩], [⟨100, 1, true, 5⟩, ⟨200, 1, false, 5⟩]) ∧
    collect Event.logs (survivors Event.mark 0 callTrace) = [] ∧
    collect Event.changes (survivors Event.mark 0 callTrace) = [] ∧
    ∃ n before after, .reverted n before after ∈ callTrace ∧ before.logs = [] ∧
      after.logs = [⟨200, [], []⟩] := by
  refine ⟨by decide +kernel, by decide +kernel, by decide +kernel, ?_⟩
  have hany : callTrace.any leavesLog = true := by decide +kernel
  obtain ⟨e, he, hr⟩ := List.any_eq_true.mp hany
  cases e with
  | reverted n before after =>
    simp only [leavesLog, Bool.and_eq_true, beq_iff_eq] at hr
    exact ⟨n, before, after, he, hr⟩
  | _ => cases hr

end Executor

end ThetaSubchain
