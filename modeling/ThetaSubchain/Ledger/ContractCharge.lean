/-
What a smart contract transaction costs its sender.

The fee for the gas used is taken from what the execution has left, and `burnTFuel` takes TFuel
from its caller without any condition.
-/
import ThetaSubchain.Ledger.ContractSupply
import ThetaSubchain.Ledger.Propose
import ThetaSubchain.Vm.Spared

namespace ThetaSubchain

open Ending StoreView Option
open Vm (Evm ExecuteResult SenderKept)

namespace Executor

variable {x : Executor} {pos : Position} {sel : ViewSelector} {view : StoreView}
  {tx : SmartContractTx}

variable {gasPrice : Int}

theorem nonneg_of_sanityCheckForGasPrice {sender target : Address} {data : Bytes}
    (h : x.sanityCheckForGasPrice view sender target data (some gasPrice) = .ok true) :
    view.getValidatorSet.isSome ∧ 0 ≤ gasPrice := by
  obtain ⟨whitelisted, hwhite, h⟩ := bind_eq_ok.mp h
  obtain ⟨vs, hvs, -⟩ := bind_eq_ok.mp hwhite
  refine ⟨?_, ?_⟩
  · rw [deref_eq_ok.mp hvs]
    rfl
  · split at h
    · next hzero =>
      simp only [Bool.and_eq_true, beq_iff_eq] at hzero
      omega
    · have hmin : minimumGasPrice ≤ gasPrice := by simpa [pure, Except.pure] using h
      unfold minimumGasPrice at hmin
      omega

-- An equation of functions: with arguments, the kernel evaluates the gas to compare the sides.
theorem intrinsicGasOK_def : intrinsicGasOK = fun x tx =>
    match Vm.calculateIntrinsicGas x.vmParams tx.data (tx.toAddress == 0) with
    | none => false
    | some intrinsicGas => decide (intrinsicGas ≤ tx.gasLimit) := rfl

theorem exists_intrinsicGas (h : x.intrinsicGasOK tx = true) :
    ∃ gas, Vm.calculateIntrinsicGas x.vmParams tx.data (tx.toAddress == 0) = some gas ∧
      gas ≤ tx.gasLimit := by
  rw [intrinsicGasOK_def] at h
  dsimp only at h
  generalize Vm.calculateIntrinsicGas x.vmParams tx.data (tx.toAddress == 0) = gas at h ⊢
  cases gas with
  | none => cases h
  | some gas => exact ⟨gas, rfl, of_decide_eq_true h⟩

structure ContractChecked (x : Executor) (pos : Position) (view : StoreView)
    (tx : SmartContractTx) (gasPrice : Int) (acc : Account) : Prop where
  account : x.getInput view tx.sender = some acc
  validators : view.getValidatorSet.isSome
  value : 0 ≤ tx.sender.coins.tfuel
  price : tx.gasPrice = some gasPrice
  price_nonneg : 0 ≤ gasPrice
  gasLimit : tx.gasLimit.toNat ≤ x.vmParams.maxGasLimit (pos.height + 1)
  intrinsicGas : x.intrinsicGasOK tx = true
  funds : gasPrice * tx.gasLimit.toNat + tx.sender.coins.tfuel ≤ acc.tfuelWei

theorem contractChecked_of_sanityCheck (h : x.sanityCheckSmartContract pos view tx = .ok ()) :
    ∃ gasPrice acc, x.ContractChecked pos view tx gasPrice acc := by
  unfold sanityCheckSmartContract at h
  dsimp only at h
  obtain ⟨-, -, h⟩ := bind_eq_ok.mp h
  obtain ⟨-, -, h⟩ := bind_eq_ok.mp h
  split at h
  · cases h
  next acc hacc =>
    obtain ⟨-, -, h⟩ := bind_eq_ok.mp h
    obtain ⟨-, -, h⟩ := bind_eq_ok.mp h
    obtain ⟨_, hnonneg, h⟩ := bind_eq_ok.mp h
    obtain ⟨gasPriceOK, hpriceOK, h⟩ := bind_eq_ok.mp h
    obtain ⟨_, hrequired, h⟩ := bind_eq_ok.mp h
    obtain ⟨_, hlimit, h⟩ := bind_eq_ok.mp h
    obtain ⟨_, hintrinsic, h⟩ := bind_eq_ok.mp h
    obtain ⟨gasPrice, hprice, h⟩ := bind_eq_ok.mp h
    obtain ⟨-, -, h⟩ := bind_eq_ok.mp h
    obtain ⟨_, _, hfunds⟩ := bind_eq_ok.mp h
    have hprice := deref_eq_ok.mp hprice
    rw [require_eq_ok.mp hrequired, hprice] at hpriceOK
    obtain ⟨hvalidators, hpos⟩ := nonneg_of_sanityCheckForGasPrice hpriceOK
    have hvalue := require_eq_ok.mp hnonneg
    simp only [Coins.isNonnegative, Bool.and_eq_true, decide_eq_true_eq] at hvalue
    have hgte := require_eq_ok.mp hfunds
    simp only [Account.isGTE, Bool.and_eq_true, decide_eq_true_eq] at hgte
    exact ⟨gasPrice, acc, hacc, hvalidators, hvalue.2, hprice, hpos,
      of_decide_eq_true (require_eq_ok.mp hlimit), require_eq_ok.mp hintrinsic, hgte.2⟩

variable {acc : Account}

theorem ContractChecked.canTransfer (h : x.ContractChecked pos view tx gasPrice acc)
    (hlib : x.lib.Lawful) (htheta : view.theta tx.sender.address = 0) :
    Evm.canTransfer view tx.sender.address tx.sender.coins.tfuel = true := by
  have hmul : 0 ≤ gasPrice * tx.gasLimit.toNat := mul_nonneg h.price_nonneg (Int.natCast_nonneg _)
  have hfunds := h.funds
  rw [tfuelWei_getInput hlib htheta h.account] at hfunds
  exact decide_eq_true (by omega)

theorem getInput_eq (hlib : x.lib.Lawful) (htheta : view.theta tx.sender.address = 0)
    (hacc : view.getAccount tx.sender.address = some acc) :
    ∃ updated, x.getInput view tx.sender = some { acc with lastUpdatedBlockHeight := updated } := by
  have hzero : acc.thetaWei = 0 := by
    rw [theta, getOrCreateAccount, hacc] at htheta
    exact htheta
  obtain ⟨updated, heq⟩ := hlib.updateToHeight view.height acc hzero
  refine ⟨updated, ?_⟩
  rw [getInput, getOrMakeAccountImpl, hacc, ← heq]

variable {r : ExecuteResult}

theorem exists_settle (sel : ViewSelector) (hacc : x.getInput view tx.sender = some acc)
    (hprice : tx.gasPrice = some gasPrice) (hfee : gasPrice * r.gasUsed.toNat ≤ acc.tfuelWei)
    (hcodec : (x.codec.encode (.smartContract tx)).isSome) :
    ∃ out, x.settle sel tx r view = .ok out ∧ out.result = .ok := by
  have hgte : acc.isGTE ⟨some 0, some (gasPrice * r.gasUsed.toNat)⟩ = true := by
    simp only [Account.isGTE, Bool.and_eq_true, decide_eq_true_eq]
    exact ⟨Int.natCast_nonneg _, hfee⟩
  obtain ⟨charged, hcharged⟩ := chargeSender_of_isGTE view hprice hgte
  have hreceipt : ∃ receipt, x.receiptOf sel tx charged r = .ok receipt := by
    by_cases hsel : sel = .delivered
    · subst hsel
      exact receiptOf_delivered charged r hcodec
    · exact ⟨none, if_neg hsel⟩
  obtain ⟨receipt, hreceipt⟩ := hreceipt
  refine ⟨⟨charged.resetLogs.resetBalanceChanges, .ok, receipt⟩, ?_, rfl⟩
  unfold settle
  rw [hacc]
  dsimp only
  rw [hcharged]
  dsimp only
  rw [hreceipt]
  rfl

/-- A transaction that is charged as it should be: processing succeeds, the sequence of the
sender grows by one, the fee is the gas price times the gas used, at most the gas limit, and
the sender pays at most the value and the fee. -/
def Charged (x : Executor) (pos : Position) (sel : ViewSelector) (view : StoreView)
    (tx : SmartContractTx) : Prop :=
  ∃ r m out gasPrice acc acc', x.executeSmartContract pos view tx = .ok r m ∧
    x.processSmartContract pos sel view tx = .ok out ∧ out.result = .ok ∧
    tx.gasPrice = some gasPrice ∧
    view.getAccount tx.sender.address = some acc ∧
    out.view.getAccount tx.sender.address = some acc' ∧
    acc'.sequence = acc.sequence + 1 ∧
    r.gasUsed ≤ tx.gasLimit ∧
    (acc'.tfuelWei : Int) = m.stateDB.getBalance tx.sender.address - gasPrice * r.gasUsed.toNat ∧
    (acc.tfuelWei : Int) - acc'.tfuelWei ≤
      tx.sender.coins.tfuel + gasPrice * r.gasUsed.toNat

/-- No precompiled contract takes TFuel from the sender while the transaction is executed. -/
def SparesSender (x : Executor) (pos : Position) (view : StoreView) (tx : SmartContractTx) : Prop :=
  ∀ r m, x.executeSmartContract pos view tx = .ok r m →
    ∀ e ∈ m.trace, e.OfRun (Vm.PrecompileRun.Spares tx.sender.address)

theorem exists_left (hlib : x.lib.Lawful) (htheta : view.theta tx.sender.address = 0)
    (hnonneg : 0 ≤ gasPrice)
    (hfunds : gasPrice * tx.gasLimit.toNat + tx.sender.coins.tfuel ≤ acc.tfuelWei) {m : Evm}
    (hexec : x.executeSmartContract pos view tx = .ok r m) (hgas : r.gasUsed ≤ tx.gasLimit)
    (hspares : x.SparesSender pos view tx) (hkept : SenderKept tx acc m) :
    ∃ left updated, m.stateDB.getAccount tx.sender.address = some left ∧
      left.sequence = (if tx.toAddress = 0 then acc.sequence + 1 else acc.sequence) ∧
      (acc.tfuelWei : Int) ≤ left.tfuelWei + tx.sender.coins.tfuel ∧
      x.getInput m.stateDB tx.sender = some { left with lastUpdatedBlockHeight := updated } ∧
      gasPrice * r.gasUsed.toNat ≤ left.tfuelWei := by
  obtain ⟨left, hleft, hseq, hpaid⟩ := hkept
  have hruns := (Vm.ends_execute x.vmParams x.vmLib x.fuel pos.parentBlock tx
    (startMachine view)).of_ok hexec
  obtain ⟨updated, hinput⟩ := getInput_eq hlib ((theta_runs hruns _).trans htheta) hleft
  have hpaid := hpaid (hspares r m hexec)
  refine ⟨left, updated, hleft, hseq, hpaid, hinput, ?_⟩
  have hle : (r.gasUsed.toNat : Int) ≤ tx.gasLimit.toNat := by
    exact_mod_cast UInt64.le_iff_toNat_le.mp hgas
  have := mul_le_mul_of_nonneg_left hle hnonneg
  omega

theorem charged_of_senderKept (hlib : x.lib.Lawful) (htheta : view.theta tx.sender.address = 0)
    (hcodec : (x.codec.encode (.smartContract tx)).isSome) (hprice : tx.gasPrice = some gasPrice)
    (hnonneg : 0 ≤ gasPrice) (hacc : view.getAccount tx.sender.address = some acc)
    (hfunds : gasPrice * tx.gasLimit.toNat + tx.sender.coins.tfuel ≤ acc.tfuelWei) {m : Evm}
    (hexec : x.executeSmartContract pos view tx = .ok r m) (hgas : r.gasUsed ≤ tx.gasLimit)
    (hspares : x.SparesSender pos view tx) (hkept : SenderKept tx acc m) :
    x.Charged pos sel view tx := by
  obtain ⟨left, updated, hleft, hseq, hpaid, hinput, hfee⟩ :=
    exists_left hlib htheta hnonneg hfunds hexec hgas hspares hkept
  obtain ⟨out, hout, hok⟩ := exists_settle sel hinput hprice hfee hcodec
  obtain ⟨gasPrice', acc', hprice', hacc', -, hview⟩ := settle_eq_ok hout hok
  obtain rfl : gasPrice = gasPrice' := some.inj (hprice.symm.trans hprice')
  obtain rfl : { left with lastUpdatedBlockHeight := updated } = acc' :=
    some.inj (hinput.symm.trans hacc')
  have hprocess : x.processSmartContract pos sel view tx = .ok out := by
    rw [processSmartContract, hexec]
    exact hout
  have hcharged : out.view.getAccount tx.sender.address = some
      { left with
        lastUpdatedBlockHeight := updated
        tfuelWei := (left.tfuelWei - gasPrice * r.gasUsed.toNat).toNat
        sequence := if tx.toAddress == 0 then left.sequence else left.sequence + 1 } := by
    rw [hview]
    show (m.stateDB.setAccount _ _).getAccount _ = _
    rw [getAccount_setAccount, if_pos rfl]
  refine ⟨r, m, out, gasPrice, acc, _, hexec, hprocess, hok, hprice, hacc, hcharged, ?_, hgas,
    ?_, ?_⟩
  · dsimp only
    rw [hseq]
    by_cases hto : tx.toAddress = 0
    · rw [if_pos hto, if_pos (by simpa using hto)]
    · rw [if_neg hto, if_neg (by simpa using hto)]
  · rw [getBalance_of_some hleft]
    exact Int.toNat_of_nonneg (by omega)
  · show (acc.tfuelWei : Int) - ((left.tfuelWei - gasPrice * r.gasUsed.toNat).toNat : Int) ≤ _
    rw [Int.toNat_of_nonneg (by omega)]
    omega

theorem exists_senderKept (x : Executor) (hlib : x.lib.Lawful) (hparams : x.vmParams.Charges)
    (hfuel : x.vmParams.enoughFuel ≤ x.fuel) (pos : Position) (view : StoreView)
    (tx : SmartContractTx) (hheight : pos.height = view.height)
    (hchain : 0 ≤ pos.parentBlock.chainID) (hbank : view.getTFuelTokenBankContractAddress.isSome)
    (hsender : ∀ acc, view.getAccount tx.sender.address = some acc →
      acc.thetaWei = 0 ∧ acc.codeHash = emptyCodeHash) (havoids : x.vmLib.Avoids tx.sender.address)
    (hcheck : x.sanityCheckSmartContract pos view tx = .ok ()) :
    ∃ gasPrice acc r m, view.theta tx.sender.address = 0 ∧ tx.gasPrice = some gasPrice ∧
      0 ≤ gasPrice ∧ view.getAccount tx.sender.address = some acc ∧
      gasPrice * tx.gasLimit.toNat + tx.sender.coins.tfuel ≤ acc.tfuelWei ∧
      x.executeSmartContract pos view tx = .ok r m ∧ r.gasUsed ≤ tx.gasLimit ∧
      SenderKept tx acc m := by
  obtain ⟨gasPrice, loaded, hchecked⟩ := contractChecked_of_sanityCheck hcheck
  cases hacc : view.getAccount tx.sender.address with
  | none =>
    have hinput := hchecked.account
    rw [getInput, getOrMakeAccountImpl, hacc] at hinput
    cases hinput
  | some acc =>
    obtain ⟨hzero, hcode⟩ := hsender acc hacc
    have htheta : view.theta tx.sender.address = 0 := by
      rw [theta, getOrCreateAccount, hacc]
      exact hzero
    obtain ⟨updated, hinput⟩ := getInput_eq hlib htheta hacc
    obtain rfl : { acc with lastUpdatedBlockHeight := updated } = loaded :=
      some.inj (hinput.symm.trans hchecked.account)
    have hfunds : gasPrice * tx.gasLimit.toNat + tx.sender.coins.tfuel ≤ acc.tfuelWei :=
      hchecked.funds
    have hprice : 0 ≤ tx.gasPrice.getD 0 := by
      rw [hchecked.price]
      exact hchecked.price_nonneg
    have hready : Vm.Ready (startMachine view) := by
      refine ⟨?_, hbank⟩
      show (view.getValidatorSet.map ValidatorSet.dynasty).isSome
      rw [isSome_map]
      exact hchecked.validators
    obtain ⟨gas, hgas, hle⟩ := exists_intrinsicGas hchecked.intrinsicGas
    have hlimit := hchecked.gasLimit
    rw [hheight] at hlimit
    have hmul : 0 ≤ gasPrice * tx.gasLimit.toNat :=
      mul_nonneg hchecked.price_nonneg (Int.natCast_nonneg _)
    have hkept := Vm.ends_execute_senderKept hparams hfuel hchain hprice havoids hchecked.value
      hready rfl hacc hcode (by omega) hlimit hgas hle
    obtain ⟨r, m, hexec, hused, hkept⟩ :=
      (Vm.returns_execute hparams x.vmLib hfuel hchain hchecked.value hprice hready).and_ends hkept
    exact ⟨gasPrice, acc, r, m, htheta, hchecked.price, hchecked.price_nonneg, rfl, hfunds, hexec,
      hused, hkept⟩

end Executor

def burnerView : StoreView where
  height := 1
  store :=
    { account := fun a =>
        if a = 7 then some { address := 7, tfuelWei := 1000000000000000 }
        else if a = 100 then some { address := 100, codeHash := 55 }
        else none
      code := fun h => if h = 55 then Vm.burnByDelegateCall else []
      validatorSet := some ⟨1, []⟩
      tfuelTokenBank := some 9 }

def burnerTx (target : Address) (data : Bytes) : SmartContractTx where
  sender := { address := 7, sequence := 1, coins := ⟨some 0, some 0⟩ }
  toAddress := target
  gasLimit := 1000000
  gasPrice := some 100000000
  data := data

def burnData (amount : Nat) : Bytes := Rlp.fixedBytes 32 amount

def burnerExecutor (tx : SmartContractTx) : Executor :=
  { plainExecutor [.smartContract tx] (fun _ => none) ⟨0, []⟩ with lib := strictTxLibrary }

def burnerPosition : Position := ⟨1, ⟨1, 0, 1⟩, 0⟩

def burnerRun (tx : SmartContractTx) : Bool × Option (UInt64 × Result × Int) :=
  let x := burnerExecutor tx
  (decide (x.sanityCheckSmartContract burnerPosition burnerView tx = .ok ()),
    match x.executeSmartContract burnerPosition burnerView tx,
      x.processSmartContract burnerPosition .delivered burnerView tx with
    | .ok r _, .ok out => some (r.gasUsed, out.result, out.view.getBalance 7)
    | _, _ => none)

theorem not_charged_of_burnerRun {target : Address} {data : Bytes} {gasUsed : UInt64}
    {result : Result} {left : Int}
    (hrun : burnerRun (burnerTx target data) = (true, some (gasUsed, result, left)))
    (hbad : result ≠ .ok ∨ left + 100000000 * gasUsed.toNat < 1000000000000000) :
    (burnerExecutor (burnerTx target data)).sanityCheckSmartContract burnerPosition burnerView
        (burnerTx target data) = .ok () ∧
      ¬ (burnerExecutor (burnerTx target data)).Charged burnerPosition .delivered burnerView
        (burnerTx target data) := by
  rw [burnerRun, Prod.mk.injEq] at hrun
  obtain ⟨hcheck, hrun⟩ := hrun
  refine ⟨of_decide_eq_true hcheck, ?_⟩
  rintro ⟨r, m, out, gasPrice, acc, acc', hexec, hout, hok, hprice, hacc, hacc', -, -, -, hpaid⟩
  rw [hexec, hout] at hrun
  dsimp only at hrun
  rw [some.injEq, Prod.mk.injEq, Prod.mk.injEq] at hrun
  obtain ⟨rfl, rfl, rfl⟩ := hrun
  have hgasPrice : gasPrice = 100000000 := (some.inj hprice).symm
  have hbefore : acc.tfuelWei = 1000000000000000 := by
    rw [← some.inj hacc]
  have hafter : out.view.getBalance 7 = acc'.tfuelWei := getBalance_of_some hacc'
  rw [hbefore, hgasPrice, show (burnerTx target data).sender.coins.tfuel = 0 from rfl] at hpaid
  rcases hbad with hbad | hbad
  · exact hbad hok
  · rw [hafter] at hbad
    omega

/-- The byte of DELEGATECALL as the data of a push. -/
def pushingCode : Bytes := [0x60, 0xf4, 0x50, 0x00]

def payingView : StoreView :=
  { burnerView with store := { burnerView.store with code := fun _ => pushingCode } }

def payingTx : SmartContractTx :=
  { burnerTx 100 [] with
    sender := { address := 7, sequence := 1, coins := ⟨some 0, some 1000⟩ } }

def payingExecutor : Executor :=
  { burnerExecutor payingTx with
    vmLib := { Vm.plainLibrary with
      createAddress := fun _ _ => 1000
      createAddress2 := fun _ _ _ => 1000 }
    fuel := Vm.constantinopleParams.enoughFuel }

def payingRun : Vm.EvmM Vm.ExecuteResult :=
  Vm.execute payingExecutor.vmParams payingExecutor.vmLib payingExecutor.fuel
    burnerPosition.parentBlock payingTx

theorem sparesSender_paying : payingExecutor.SparesSender burnerPosition payingView payingTx := by
  intro r m hexec e he
  -- the only event is the transfer of the value
  have hkinds : ((payingRun >>= fun _ => get).run' (Executor.startMachine payingView)).map
      (fun m => m.trace.map Vm.Event.ctorIdx) = some [2] := by decide +kernel
  have hrun : (payingRun >>= fun _ => get) (Executor.startMachine payingView) = .ok m m :=
    run_bind_eq_ok.2 ⟨r, m, hexec, rfl⟩
  have hlast : (payingRun >>= fun _ => get).run' (Executor.startMachine payingView) = some m := by
    delta EStateM.run' EStateM.run
    rw [hrun]
  rw [hlast] at hkinds
  have hkind : e.ctorIdx ∈ [2] := some.inj hkinds ▸ List.mem_map_of_mem he
  cases e with
  | precompile run => simp [Vm.Event.ctorIdx] at hkind
  | _ => trivial

end ThetaSubchain
