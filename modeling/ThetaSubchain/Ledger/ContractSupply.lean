/-
The TFuel supply under smart contract transactions.

TFuel is created by `mintTFuel`, removed by `burnTFuel` and lost when a contract destroys itself in
its own favour; all other steps move it.
-/
import ThetaSubchain.Ledger.Supply
import ThetaSubchain.Ledger.System
import ThetaSubchain.Vm.Revert

namespace ThetaSubchain

open Ending Rollback StoreView
open Vm (Evm Event ExecuteResult Runs)

/-! ## What an event does to the supply -/

namespace Vm.Event

def minted : Event → Int
  | .mint _ amount => amount
  | _ => 0

def burned : Event → Int
  | .burn _ amount => amount
  | _ => 0

/-- The balance lost by a self-destruct whose beneficiary is the contract itself. -/
def destroyed : Event → Int
  | .selfdestruct account beneficiary balance _ => if account = beneficiary then balance else 0
  | _ => 0

end Vm.Event

def surviving (amount : Event → Int) (trace : List Event) : Int :=
  ((survivors Event.mark 0 trace).map amount).sum

theorem surviving_cons {e : Event} (he : e.mark = none) (amount : Event → Int)
    (trace : List Event) : surviving amount (e :: trace) = amount e + surviving amount trace := by
  simp only [surviving, survivors, he, List.map_cons, List.sum_cons]

theorem surviving_reverted {start m : Evm} {evs : List Event} (h : m.trace = evs ++ start.trace)
    (amount : Event → Int) :
    surviving amount (start.revert m).trace = surviving amount start.trace := by
  have hdrop : m.trace.drop (m.trace.length - start.trace.length) = start.trace := by
    rw [h, List.length_append, Nat.add_sub_cancel, List.drop_left]
  show ((survivors Event.mark (m.trace.length - start.trace.length) m.trace).map amount).sum = _
  rw [survivors_eq_drop, hdrop]
  rfl

def netMinted (trace : List Event) : Int :=
  surviving Event.minted trace - surviving Event.burned trace - surviving Event.destroyed trace

theorem netMinted_cons {e : Event} (he : e.mark = none) (trace : List Event) :
    netMinted (e :: trace) = e.minted - e.burned - e.destroyed + netMinted trace := by
  simp only [netMinted, surviving_cons he]
  ring

namespace StoreView

variable {sv sv' : StoreView} {addr : Address} {isNegative : Bool} {amount : Int}

theorem totalTFuel_moved (h : sv.Moved addr isNegative amount sv') :
    sv'.totalTFuel = sv.totalTFuel + signed isNegative amount := by
  have hother : ∀ a, a ≠ addr → sv'.getBalance a = sv.getBalance a := by
    intro a ha
    rw [h.getBalance, if_neg ha, add_zero]
  rw [totalTFuel_of_one hother, h.getBalance, if_pos rfl]
  ring

theorem totalTFuel_setAccount_same {acc : Account}
    (h : acc.tfuelWei = (sv.getOrCreateAccount addr).tfuelWei) :
    (sv.setAccount addr acc).totalTFuel = sv.totalTFuel := by
  rw [totalTFuel_setAccount, getBalance, h]
  ring

theorem totalTFuel_createAccount (sv : StoreView) (addr : Address) :
    (sv.createAccountWithPreviousBalance addr).totalTFuel = sv.totalTFuel := by
  rw [createAccount_eq]
  exact totalTFuel_setAccount_same rfl

theorem totalTFuel_suicide (sv : StoreView) (addr : Address) :
    (sv.suicide addr).totalTFuel = sv.totalTFuel - sv.getBalance addr := by
  unfold suicide
  cases hacc : sv.getAccount addr with
  | none =>
    have hzero : sv.getBalance addr = 0 := by
      rw [getBalance, getOrCreateAccount, hacc]
      rfl
    rw [hzero, sub_zero]
  | some acc =>
    show (sv.setAccount addr { acc with codeHash := suicidedCodeHash, tfuelWei := 0 }).totalTFuel =
      _
    rw [totalTFuel_setAccount]
    show _ + (((0 : Nat) : Int) - _) = _
    rw [Nat.cast_zero]
    ring

end StoreView

structure Accounted (s m : Evm) : Prop where
  trace : ∃ evs, m.trace = evs ++ s.trace
  total : m.stateDB.totalTFuel - netMinted m.trace = s.stateDB.totalTFuel - netMinted s.trace

namespace Accounted

theorem trans {a b c : Evm} (h₁ : Accounted a b) (h₂ : Accounted b c) : Accounted a c := by
  obtain ⟨es, hes⟩ := h₁.trace
  obtain ⟨fs, hfs⟩ := h₂.trace
  refine ⟨⟨fs ++ es, ?_⟩, h₂.total.trans h₁.total⟩
  rw [hfs, hes, List.append_assoc]

theorem of_eq {s m : Evm} (ht : m.trace = s.trace)
    (h : m.stateDB.totalTFuel = s.stateDB.totalTFuel) : Accounted s m :=
  ⟨⟨[], ht⟩, by rw [ht, h]⟩

theorem of_event {s m : Evm} {e : Event} (he : e.mark = none) (ht : m.trace = e :: s.trace)
    (h : m.stateDB.totalTFuel =
      s.stateDB.totalTFuel + (e.minted - e.burned - e.destroyed)) : Accounted s m := by
  refine ⟨⟨[e], ht⟩, ?_⟩
  rw [ht, netMinted_cons he, h]
  ring

theorem revert {s m : Evm} (h : Accounted s m) : Accounted s (s.revert m) := by
  obtain ⟨evs, hevs⟩ := h.trace
  refine ⟨⟨_ :: evs, by rw [List.cons_append, ← hevs]; rfl⟩, ?_⟩
  have hnet : netMinted (s.revert m).trace = netMinted s.trace := by
    simp only [netMinted, surviving_reverted hevs]
  rw [hnet]
  rfl

variable {m m' : Evm}

theorem transfer {sender recipient : Address} {amount : Int}
    (h : m.transfer sender recipient amount = some m') : Accounted m m' := by
  obtain ⟨v, w, hv, hw, rfl⟩ := Vm.transfer_eq_some h
  apply of_event (e := .transfer sender recipient amount) rfl rfl
  show w.totalTFuel = _
  rw [totalTFuel_moved hw, totalTFuel_moved hv]
  simp only [signed, Event.minted, Event.burned, Event.destroyed]
  ring

theorem suicide {self beneficiary : Address} (h : m.suicide self beneficiary = some m') :
    Accounted m m' := by
  obtain ⟨v, hv, rfl⟩ := Vm.suicide_eq_some h
  apply of_event rfl rfl
  show (v.suicide self).totalTFuel = _
  rw [totalTFuel_suicide, totalTFuel_moved hv, hv.getBalance]
  simp only [signed, Event.minted, Event.burned, Event.destroyed]
  ring

theorem precompile {env : Vm.Env} {p : Vm.Precompile} {input ret : Bytes} {callerAddr : Address}
    {err : Option Vm.VmError} (h : p.run env m input callerAddr = some (m', ret, err)) :
    Accounted m m' := by
  obtain rfl | ⟨-, -, recipient, amount, v, -, hv, rfl⟩ | ⟨-, amount, v, -, hv, rfl⟩ :=
    Vm.precompile_run_eq_some h
  · exact of_eq rfl rfl
  · apply of_event (e := .mint recipient amount) rfl rfl
    show v.totalTFuel = _
    rw [totalTFuel_moved hv]
    simp only [signed, Event.minted, Event.burned, Event.destroyed]
    ring
  · apply of_event (e := .burn callerAddr amount) rfl rfl
    show v.totalTFuel = _
    rw [totalTFuel_moved hv]
    simp only [signed, Event.minted, Event.burned, Event.destroyed]
    ring

theorem runs {env : Vm.Env} (h : Runs env m m') : Accounted m m' := by
  induction h with
  | refl => exact of_eq rfl rfl
  | trans _ _ ih₁ ih₂ => exact ih₁.trans ih₂
  | quiet => exact of_eq rfl rfl
  | openAccount m addr => exact of_eq rfl (m.stateDB.totalTFuel_createAccount addr)
  | setNonce => exact of_eq rfl (totalTFuel_setAccount_same rfl)
  | setCode m addr code =>
    refine of_event (e := .install addr _) rfl rfl ?_
    have hsame : (m.stateDB.setCode env.lib.keccak addr code).totalTFuel = m.stateDB.totalTFuel :=
      totalTFuel_setAccount_same rfl
    show (m.stateDB.setCode env.lib.keccak addr code).totalTFuel = _
    simp only [Event.minted, Event.burned, Event.destroyed]
    rw [hsame]
    ring
  | setState => exact of_eq rfl (totalTFuel_setAccount_same rfl)
  | log m l =>
    refine of_event (e := .log l) rfl rfl ?_
    show m.stateDB.totalTFuel = _
    simp only [Event.minted, Event.burned, Event.destroyed]
    ring
  | transfer m m' sender recipient amount h => exact transfer h
  | suicide m m' self beneficiary h => exact suicide h
  | precompile m m' c p input ret err hc hp h =>
    refine (precompile h).trans (of_event (e := .precompile _) rfl rfl ?_)
    show m'.stateDB.totalTFuel = _
    simp only [Event.minted, Event.burned, Event.destroyed]
    ring
  | reverted start m _ ih => exact ih.revert

end Accounted

namespace StoreView

variable {sv sv' : StoreView} {addr : Address} {isNegative : Bool} {amount : Int}

def theta (sv : StoreView) (a : Address) : Nat := (sv.getOrCreateAccount a).thetaWei

theorem theta_setAccount {acc : Account} (h : acc.thetaWei = sv.theta addr) (a : Address) :
    (sv.setAccount addr acc).theta a = sv.theta a := by
  rw [theta, getOrCreateAccount, getAccount_setAccount]
  split
  · next ha =>
    rw [ha]
    exact h
  · rfl

theorem theta_moved (h : sv.Moved addr isNegative amount sv') (a : Address) :
    sv'.theta a = sv.theta a := by
  obtain ⟨-, rfl⟩ | ⟨-, -, rfl⟩ := h
  · rfl
  · show (sv.setAccount addr _).theta a = _
    apply theta_setAccount
    rfl

theorem theta_createAccount (sv : StoreView) (addr a : Address) :
    (sv.createAccountWithPreviousBalance addr).theta a = sv.theta a := by
  rw [createAccount_eq]
  apply theta_setAccount
  rfl

theorem theta_suicide (sv : StoreView) (addr a : Address) :
    (sv.suicide addr).theta a = sv.theta a := by
  unfold suicide
  cases hacc : sv.getAccount addr with
  | none => rfl
  | some acc =>
    show (sv.setAccount addr { acc with codeHash := suicidedCodeHash, tfuelWei := 0 }).theta a = _
    apply theta_setAccount
    rw [theta, getOrCreateAccount, hacc]
    rfl

end StoreView

theorem theta_runs {env : Vm.Env} {m m' : Evm} (h : Runs env m m') (a : Address) :
    m'.stateDB.theta a = m.stateDB.theta a := by
  have hrel : Vm.ViewRel env.lib fun v v' => v'.theta a = v.theta a :=
    { trans := fun h₁ h₂ => h₂.trans h₁
      refund := fun _ _ => rfl
      openAccount := fun _ => theta_createAccount _ _ a
      setNonce := fun _ _ => theta_setAccount (by rfl) a
      setCode := fun _ _ _ => theta_setAccount (by rfl) a
      setState := fun _ _ _ _ => theta_setAccount (by rfl) a
      addLog := fun _ _ => rfl
      moved := fun h => theta_moved h a
      suicide := fun v addr => v.theta_suicide addr a
      revert := fun _ => rfl }
  exact hrel.runs h

namespace Executor

variable {x : Executor} {pos : Position} {sel : ViewSelector} {view : StoreView}

theorem chargeFee_eq_some {acc acc' : Account} {fee : Int}
    (h : chargeFee acc ⟨some 0, some fee⟩ = .ok (some acc')) :
    fee ≤ acc.tfuelWei ∧ acc' = { acc with tfuelWei := (acc.tfuelWei - fee).toNat } := by
  unfold chargeFee at h
  split at h
  · next hgte =>
    simp only [Account.isGTE, Bool.and_eq_true, decide_eq_true_eq] at hgte
    have hle : fee ≤ acc.tfuelWei := hgte.2
    obtain ⟨paid, hpaid, h⟩ := bind_eq_ok.mp h
    cases h
    have hminus := deref_eq_ok.mp hpaid
    unfold Account.minus Account.setBalance at hminus
    split at hminus
    · cases hminus
      refine ⟨hle, ?_⟩
      show { acc with thetaWei := ((acc.thetaWei : Int) - 0).toNat, tfuelWei := _ } = _
      rw [sub_zero, Int.toNat_natCast]
      rfl
    · cases hminus
  · cases h

theorem settle_eq_ok {tx : SmartContractTx} {r : ExecuteResult} {out : Outcome}
    (h : x.settle sel tx r view = .ok out) (hok : out.result = .ok) :
    ∃ gasPrice acc, tx.gasPrice = some gasPrice ∧ x.getInput view tx.sender = some acc ∧
      gasPrice * r.gasUsed.toNat ≤ acc.tfuelWei ∧
      out.view = (view.setAccount tx.sender.address { acc with
        tfuelWei := (acc.tfuelWei - gasPrice * r.gasUsed.toNat).toNat
        sequence := if tx.toAddress == 0 then acc.sequence else acc.sequence + 1
        }).resetLogs.resetBalanceChanges := by
  cases settled h with
  | refused => cases hok
  | @charged acc _ _ hacc hcharged _ =>
    obtain ⟨gasPrice, hprice, hcharged⟩ := bind_eq_ok.mp hcharged
    obtain ⟨paid, hpaid, hcharged⟩ := bind_eq_ok.mp hcharged
    cases paid with
    | none => cases hcharged
    | some acc' =>
      obtain ⟨hle, rfl⟩ := chargeFee_eq_some hpaid
      cases hcharged
      refine ⟨gasPrice, acc, deref_eq_ok.mp hprice, hacc, hle, ?_⟩
      cases tx.toAddress == 0 <;> rfl

theorem tfuelWei_getInput (hlib : x.lib.Lawful) {input : TxInput} {acc : Account}
    (htheta : view.theta input.address = 0) (h : x.getInput view input = some acc) :
    (acc.tfuelWei : Int) = view.getBalance input.address := by
  unfold getInput getOrMakeAccountImpl at h
  cases hstored : view.getAccount input.address with
  | none =>
    rw [hstored] at h
    cases h
  | some stored =>
    rw [hstored] at h
    cases h
    have hzero : stored.thetaWei = 0 := by
      rw [theta, getOrCreateAccount, hstored] at htheta
      exact htheta
    obtain ⟨updated, heq⟩ := hlib.updateToHeight view.height stored hzero
    rw [heq, getBalance_of_some hstored]

/-- A smart contract transaction that succeeds changes the supply by what its surviving frames
minted, burned and destroyed, and by the fee. -/
theorem contract_supply (x : Executor) (hlib : x.lib.Lawful) (pos : Position)
    (sel : ViewSelector) (view : StoreView) (tx : SmartContractTx) (out : Outcome)
    (htheta : view.theta tx.sender.address = 0)
    (h : x.processSmartContract pos sel view tx = .ok out) (hok : out.result = .ok) :
    ∃ r m gasPrice, x.executeSmartContract pos view tx = .ok r m ∧ tx.gasPrice = some gasPrice ∧
      out.view.totalTFuel = view.totalTFuel + surviving Event.minted m.trace -
        surviving Event.burned m.trace - surviving Event.destroyed m.trace -
        gasPrice * r.gasUsed.toNat ∧
      ∀ a, 0 ≤ out.view.getBalance a := by
  obtain ⟨r, m, hexec, h⟩ := processSmartContract_eq_ok h
  have hruns := (Vm.ends_execute x.vmParams x.vmLib x.fuel pos.parentBlock tx
    (startMachine view)).of_ok hexec
  obtain ⟨gasPrice, acc, hprice, hacc, hle, hview⟩ := settle_eq_ok h hok
  have hmachine : m.stateDB.totalTFuel = view.totalTFuel + netMinted m.trace := by
    have htotal := (Accounted.runs hruns).total
    have hstart : netMinted (startMachine view).trace = 0 := rfl
    have hbefore : (startMachine view).stateDB.totalTFuel = view.totalTFuel := rfl
    rw [hstart, hbefore, sub_zero] at htotal
    omega
  have hbalance : (acc.tfuelWei : Int) = m.stateDB.getBalance tx.sender.address :=
    tfuelWei_getInput hlib ((theta_runs hruns _).trans htheta) hacc
  have hcharged : out.view.totalTFuel =
      m.stateDB.totalTFuel - gasPrice * r.gasUsed.toNat := by
    rw [hview]
    show (m.stateDB.setAccount tx.sender.address _).totalTFuel = _
    rw [totalTFuel_setAccount]
    show _ + (((acc.tfuelWei - gasPrice * r.gasUsed.toNat).toNat : Int) - _) = _
    rw [Int.toNat_of_nonneg (by omega), hbalance]
    ring
  refine ⟨r, m, gasPrice, hexec, hprice, ?_, fun a => Int.natCast_nonneg _⟩
  rw [hcharged, hmachine, netMinted]
  ring

end Executor

/-! ## A contract that mints, burns and destroys itself -/

def mintingCode : Bytes :=
  [0x60, 5, 0x60, 20, 0x52,
    0x60, 0, 0x60, 0, 0x60, 52, 0x60, 0, 0x60, 0, 0x60, 182, 0x61, 0xff, 0xff, 0xf1, 0x50,
    0x60, 2, 0x60, 0, 0x52,
    0x60, 0, 0x60, 0, 0x60, 32, 0x60, 0, 0x60, 0, 0x60, 183, 0x61, 0xff, 0xff, 0xf1, 0x50,
    0x30, 0xff]

def mintingView : StoreView where
  height := 1
  store :=
    { account := fun a =>
        if a = 7 then some { address := 7, tfuelWei := 1000000 }
        else if a = 100 then some { address := 100, tfuelWei := 10, codeHash := 55 }
        else none
      code := fun h => if h = 55 then mintingCode else []
      tfuelTokenBank := some 100 }

def mintingTx : SmartContractTx where
  sender := { address := 7, sequence := 1 }
  toAddress := 100
  gasLimit := 500000
  gasPrice := some 1
  data := []

def mintingExecutor : Executor :=
  { plainExecutor [.smartContract mintingTx] (fun _ => none) ⟨0, []⟩ with lib := strictTxLibrary }

def mintingPosition : Position := ⟨1, ⟨1, 0, 1⟩, 0⟩

theorem contract_supply_minting :
    ∃ out, mintingExecutor.processSmartContract mintingPosition .delivered mintingView mintingTx =
        .ok out ∧ out.result = .ok ∧
      ∃ r m gasPrice, mintingExecutor.executeSmartContract mintingPosition mintingView mintingTx =
          .ok r m ∧ mintingTx.gasPrice = some gasPrice ∧
        out.view.totalTFuel = mintingView.totalTFuel + surviving Event.minted m.trace -
          surviving Event.burned m.trace - surviving Event.destroyed m.trace -
          gasPrice * r.gasUsed.toNat ∧
        ∀ a, 0 ≤ out.view.getBalance a := by
  have hrun : (match mintingExecutor.processSmartContract mintingPosition .delivered mintingView
        mintingTx with
      | .ok out => decide (out.result = .ok)
      | .error _ => false) = true := by decide +kernel
  split at hrun
  · next out hout =>
    have hok : out.result = .ok := of_decide_eq_true hrun
    exact ⟨out, hout, hok, Executor.contract_supply mintingExecutor lawful_strictTxLibrary
      mintingPosition .delivered mintingView mintingTx out rfl hout hok⟩
  · cases hrun

example :
    (match mintingExecutor.executeSmartContract mintingPosition mintingView mintingTx with
      | .ok _ m => some (surviving Event.minted m.trace, surviving Event.burned m.trace,
          surviving Event.destroyed m.trace)
      | .error _ _ => none) = some (5, 2, 8) := by
  decide +kernel

end ThetaSubchain
