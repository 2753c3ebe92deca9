/-
Processing a transaction comes to a result.

The checks dereference what may be nil: the validators of a block, those of the state, the
addresses of the token banks and the amounts of the transaction.
-/
import ThetaSubchain.Ledger.ContractCharge
import ThetaSubchain.Ledger.Send

namespace ThetaSubchain

open Ending
open Vm (Halt Evm ExecuteResult)

def Decides {α : Type} (c : CheckM α) : Prop := ∀ h, c ≠ .error (.halt h)

section Decides

variable {α β : Type}

theorem decides_ok (a : α) : Decides (.ok a : CheckM α) := nofun

theorem decides_fail (message : String) : Decides (.error (.fail message) : CheckM α) := nofun

theorem decides_require (cond : Bool) (message : String) : Decides (require cond message) := by
  cases cond <;> exact nofun

theorem decides_deref {o : Option α} (h : o.isSome) : Decides (deref o) := by
  obtain ⟨a, rfl⟩ := Option.isSome_iff_exists.mp h
  exact decides_ok a

theorem decides_checked (res : Result) : Decides (Executor.checked res) := by
  cases res <;> exact nofun

theorem Decides.bind {c : CheckM α} {f : α → CheckM β} (hc : Decides c)
    (hf : ∀ a, c = .ok a → Decides (f a)) : Decides (c >>= f) := by
  cases c with
  | ok a => exact hf a rfl
  | error stop =>
    intro h heq
    cases heq
    exact hc h rfl

theorem Decides.seq {c : CheckM α} {f : α → CheckM β} (hc : Decides c)
    (hf : ∀ a, Decides (f a)) : Decides (c >>= f) :=
  hc.bind fun a _ => hf a

theorem decides_forM {f : α → CheckM Unit} {l : List α} (h : ∀ a ∈ l, Decides (f a)) :
    Decides (l.forM f) := by
  induction l with
  | nil => exact decides_ok ()
  | cons a l ih =>
    obtain ⟨ha, hl⟩ := List.forall_mem_cons.mp h
    exact ha.seq fun _ => ih hl

theorem decides_foldlM {f : β → α → CheckM β} {l : List α} {b : β}
    (h : ∀ a ∈ l, ∀ b, Decides (f b a)) : Decides (l.foldlM f b) := by
  induction l generalizing b with
  | nil => exact decides_ok b
  | cons a l ih =>
    obtain ⟨ha, hl⟩ := List.forall_mem_cons.mp h
    exact (ha b).seq fun _ => ih hl

end Decides

structure LedgerContent.Bootstrapped (content : LedgerContent) : Prop where
  validators : content.validatorSet.isSome
  bank : content.tfuelTokenBank.isSome

def Tx.NonNil : Tx → Prop
  | .send tx => tx.fee.tfuelWei.isSome
  | .smartContract tx => tx.sender.coins.thetaWei.isSome
  | _ => True

/-- A transaction that is decoded has no nil amounts and can be encoded. -/
def TxCodec.Faithful (codec : TxCodec) : Prop :=
  ∀ raw tx, txFromBytes codec raw = some tx → tx.NonNil ∧ (codec.encode tx).isSome

structure Executor.Equipped (x : Executor) : Prop where
  lib : x.lib.Lawful
  chainID : ∀ id height, 0 ≤ x.lib.mapChainID id height
  params : x.vmParams.Charges
  fuel : x.vmParams.enoughFuel ≤ x.fuel
  codec : x.codec.Faithful

namespace Executor

variable {x : Executor} {pos : Position} {sel : ViewSelector} {view : StoreView}

theorem decides_getOrMakeInput (input : TxInput) : Decides (x.getOrMakeInput view input) := by
  apply decides_deref
  rw [getOrMakeAccountImpl_true]
  rfl

theorem decides_checkProposer (hvalidators : (x.getNextValidatorSet pos.currentParent).isSome)
    (proposer : TxInput) (processed : Bool) (message : String) (signBytes : Bytes) :
    Decides (x.checkProposer pos view proposer processed message signBytes) := by
  refine (decides_deref hvalidators).seq fun vs => ?_
  refine (decides_checked _).seq fun _ => ?_
  refine (decides_require _ _).seq fun _ => ?_
  refine (decides_require _ _).seq fun _ => ?_
  exact (decides_getOrMakeInput proposer).seq fun acc => decides_require _ _

theorem decides_getInputs (ins : List TxInput) : Decides (x.getInputs view ins) := by
  refine decides_foldlM fun input _ accounts => (decides_require _ _).seq fun _ => ?_
  split
  · exact decides_fail _
  · exact decides_ok _

theorem decides_getOrMakeOutputs (accounts : Accounts) (outs : List TxOutput) :
    Decides (x.getOrMakeOutputs view accounts outs) := by
  refine decides_foldlM fun out _ accounts => (decides_require _ _).seq fun _ => ?_
  rw [getOrMakeAccountImpl_true]
  exact decides_ok _

theorem decides_validateInputsAdvanced {accounts : Accounts} {ins : List TxInput}
    (h : ∀ i ∈ ins, (accounts.lookup i.address).isSome) (signBytes : Bytes) (blockHeight : UInt64) :
    Decides (x.validateInputsAdvanced accounts signBytes ins blockHeight) := by
  refine decides_foldlM fun input hin total => (decides_deref (h input hin)).seq fun acc => ?_
  refine Decides.seq ?_ fun _ => decides_ok _
  refine (decides_require _ _).seq fun _ => ?_
  exact (decides_require _ _).seq fun _ => decides_require _ _

theorem decides_sanityCheckSend (tx : SendTx) : Decides (x.sanityCheckSend view tx) := by
  refine Decides.seq ?_ fun _ => Decides.seq ?_ fun _ => ?_
  · refine decides_forM fun input _ => ?_
    exact (decides_checked _).seq fun _ => decides_require _ _
  · exact decides_forM fun out _ => decides_checked _
  refine (decides_require _ _).seq fun _ => (decides_require _ _).seq fun _ => ?_
  refine (decides_getInputs tx.inputs).bind fun accounts haccounts => ?_
  refine (decides_require _ _).seq fun _ => ?_
  refine (decides_getOrMakeOutputs accounts tx.outputs).bind fun accounts' haccounts' => ?_
  refine (decides_require _ _).seq fun _ => ?_
  refine Decides.seq ?_ fun total => (decides_require _ _).seq fun _ => decides_require _ _
  -- the accounts of the inputs are among those that were loaded
  obtain ⟨rfl, hdistinct, -⟩ := getInputs_eq_ok haccounts
  obtain ⟨rfl, -⟩ := getOrMakeOutputs_eq_ok hdistinct haccounts'
  refine decides_validateInputsAdvanced (fun i hi => ?_) _ _
  rw [lookup_loadedAt, if_pos (List.mem_append_left _ (List.mem_map_of_mem hi))]
  rfl

theorem decides_findBank (hbanks : ∀ t, (x.getTokenBankContractAddress t).isSome)
    (contractAddr : Address) (banks : List TokenType) :
    Decides (x.findBank contractAddr banks) := by
  induction banks with
  | nil => exact decides_ok none
  | cons t ts ih =>
    refine (decides_deref (hbanks t)).seq fun bank => ?_
    split
    · exact decides_ok _
    · exact ih

theorem decides_sanityCheckForGasPrice (hbanks : ∀ t, (x.getTokenBankContractAddress t).isSome)
    (h : view.store.Bootstrapped) (sender target : Address) (data : Bytes) (gasPrice : Option Int) :
    Decides (x.sanityCheckForGasPrice view sender target data gasPrice) := by
  cases gasPrice with
  | none => exact decides_ok false
  | some gasPrice =>
    refine Decides.seq ?_ fun whitelisted => ?_
    · refine (decides_deref h.validators).seq fun vs => ?_
      split
      · unfold isVotingForInterchainEvents
        split
        · exact decides_ok false
        · refine (decides_findBank hbanks target _).seq fun bank => ?_
          cases bank with
          | none => exact decides_ok _
          | some t => exact decides_ok _
      · exact decides_ok false
    · split
      · exact decides_ok _
      · exact decides_ok _

variable {tx : SmartContractTx}

theorem decides_checkSmartContractSignature (h : tx.sender.coins.thetaWei.isSome)
    (blockHeight : UInt64) : Decides (x.checkSmartContractSignature tx blockHeight) := by
  unfold checkSmartContractSignature
  dsimp only
  split
  · exact decides_ok ()
  · refine (decides_require _ _).seq fun _ => (decides_deref h).seq fun theta => ?_
    exact (decides_require _ _).seq fun _ => decides_require _ _

theorem decides_sanityCheckSmartContract (hbanks : ∀ t, (x.getTokenBankContractAddress t).isSome)
    (h : view.store.Bootstrapped) (htx : tx.sender.coins.thetaWei.isSome) :
    Decides (x.sanityCheckSmartContract pos view tx) := by
  unfold sanityCheckSmartContract
  dsimp only
  refine (decides_checked _).seq fun _ => ?_
  refine (decides_checkSmartContractSignature htx _).seq fun _ => ?_
  split
  · exact decides_fail _
  next acc _ =>
    refine (decides_require _ _).seq fun _ => (decides_require _ _).seq fun _ => ?_
    refine (decides_require _ _).seq fun _ => ?_
    refine (decides_sanityCheckForGasPrice hbanks h _ _ _ _).bind fun gasPriceOK hprice => ?_
    refine (decides_require _ _).bind fun _ hok => ?_
    refine (decides_require _ _).seq fun _ => (decides_require _ _).seq fun _ => ?_
    -- a gas price that is nil has not passed
    have hsome : tx.gasPrice.isSome := by
      cases hnil : tx.gasPrice with
      | some gasPrice => rfl
      | none =>
        rw [hnil] at hprice
        cases hprice
        cases hok
    refine (decides_deref hsome).seq fun gasPrice => ?_
    exact (decides_require _ _).seq fun _ => (decides_require _ _).seq fun _ =>
      decides_require _ _

theorem exists_settle_outcome (hprice : tx.gasPrice.isSome)
    (hcodec : (x.codec.encode (.smartContract tx)).isSome) (r : ExecuteResult) :
    ∃ out, x.settle sel tx r view = .ok out := by
  obtain ⟨gasPrice, hprice⟩ := Option.isSome_iff_exists.mp hprice
  cases hacc : x.getInput view tx.sender with
  | none =>
    rw [settle, hacc]
    exact ⟨_, rfl⟩
  | some acc =>
    by_cases hfee : acc.isGTE ⟨some 0, some (gasPrice * r.gasUsed.toNat)⟩
    · have hle : gasPrice * r.gasUsed.toNat ≤ acc.tfuelWei := by
        simp only [Account.isGTE, Bool.and_eq_true, decide_eq_true_eq] at hfee
        exact hfee.2
      obtain ⟨out, hout, -⟩ := exists_settle sel hacc hprice hle hcodec
      exact ⟨out, hout⟩
    · have hcharge : chargeSender view tx acc r.gasUsed = .ok none := by
        unfold chargeSender
        rw [hprice]
        show (chargeFee acc _ >>= _) = _
        rw [chargeFee, if_neg hfee]
        rfl
      rw [settle, hacc]
      dsimp only
      rw [hcharge]
      exact ⟨_, rfl⟩

theorem exists_processSmartContract (hx : x.Equipped) (h : view.store.Bootstrapped)
    (hchain : 0 ≤ pos.parentBlock.chainID) (hcodec : (x.codec.encode (.smartContract tx)).isSome)
    (hcheck : x.sanityCheckSmartContract pos view tx = .ok ()) :
    ∃ out, x.processSmartContract pos sel view tx = .ok out := by
  obtain ⟨gasPrice, acc, hchecked⟩ := contractChecked_of_sanityCheck hcheck
  have hprice : 0 ≤ tx.gasPrice.getD 0 := by
    rw [hchecked.price]
    exact hchecked.price_nonneg
  have hready : Vm.Ready (startMachine view) := by
    refine ⟨?_, h.bank⟩
    show (view.store.validatorSet.map ValidatorSet.dynasty).isSome
    rw [Option.isSome_map]
    exact h.validators
  obtain ⟨r, m, hexec, -⟩ :=
    Vm.returns_execute hx.params x.vmLib hx.fuel hchain hchecked.value hprice hready
  obtain ⟨out, hout⟩ : ∃ out, x.settle sel tx r m.stateDB = .ok out :=
    exists_settle_outcome (by rw [hchecked.price]; rfl) hcodec r
  refine ⟨out, ?_⟩
  rw [processSmartContract, executeSmartContract, hexec]
  exact hout

def isSpecial : Tx → Bool
  | .coinbase _ | .subchainValidatorSetUpdate _ => true
  | _ => false

theorem decides_sanityCheck (hbanks : ∀ t, (x.getTokenBankContractAddress t).isSome)
    (h : view.store.Bootstrapped) {tx : Tx} (htx : tx.NonNil)
    (hspecial : isSpecial tx → (x.getNextValidatorSet pos.currentParent).isSome) :
    Decides (x.sanityCheck pos view tx) := by
  refine (decides_require _ _).seq fun _ => ?_
  cases tx with
  | coinbase tx =>
    exact (decides_checkProposer (hspecial rfl) _ _ _ _).seq fun _ => decides_require _ _
  | subchainValidatorSetUpdate tx => exact decides_checkProposer (hspecial rfl) _ _ _ _
  | send tx => exact decides_sanityCheckSend tx
  | smartContract tx => exact decides_sanityCheckSmartContract hbanks h htx
  | depositStake forValidator => exact decides_fail _
  | withdrawStake forValidator => exact decides_fail _

theorem exists_process (hx : x.Equipped) (h : view.store.Bootstrapped)
    (hchain : 0 ≤ pos.parentBlock.chainID) {tx : Tx} (hcodec : (x.codec.encode tx).isSome)
    (hcheck : x.sanityCheck pos view tx = .ok ()) : ∃ out, x.process pos sel view tx = .ok out := by
  obtain ⟨_, -, hcheck⟩ := bind_eq_ok.mp hcheck
  unfold process
  split
  · exact ⟨_, rfl⟩
  cases tx with
  | coinbase tx => exact ⟨_, rfl⟩
  | subchainValidatorSetUpdate tx =>
    obtain ⟨vs, hvs⟩ := Option.isSome_iff_exists.mp h.validators
    exact exists_processValidatorSetUpdate (congrArg (Option.map _) hvs) tx
  | send tx =>
    obtain ⟨view', hview', -⟩ := exists_processSend hx.lib (sendChecked_of_sanityCheck hcheck)
    exact ⟨_, hview'⟩
  | smartContract tx => exact exists_processSmartContract hx h hchain hcodec hcheck
  | depositStake forValidator => exact ⟨_, rfl⟩
  | withdrawStake forValidator => exact ⟨_, rfl⟩

/-- A transaction is processed to its end; a special one on condition that the validators of
its block are known. -/
theorem exists_processTx (hx : x.Equipped)
    (hbanks : ∀ t, (x.getTokenBankContractAddress t).isSome) (h : view.store.Bootstrapped)
    (hchain : 0 ≤ pos.parentBlock.chainID) {tx : Tx} (htx : tx.NonNil)
    (hcodec : (x.codec.encode tx).isSome)
    (hspecial : isSpecial tx → (x.getNextValidatorSet pos.currentParent).isSome) :
    ∃ out, x.processTx pos sel view tx = .ok out := by
  have hdecides : Decides (x.sanityCheck pos view tx) :=
    decides_sanityCheck hbanks h htx hspecial
  unfold processTx
  split
  next halt hhalt => exact absurd hhalt (hdecides halt)
  · exact ⟨_, rfl⟩
  next hcheck => exact exists_process hx h hchain hcodec hcheck

theorem bootstrapped_processTx {tx : Tx} {out : Outcome} (h : view.store.Bootstrapped)
    (hout : x.processTx pos sel view tx = .ok out) : out.view.store.Bootstrapped := by
  have hsystem : ∀ {v w : StoreView}, v.store.Bootstrapped → w.system = v.system →
      w.store.Bootstrapped := by
    intro v w hv hsys
    have hcontent : w.system.store = v.system.store := congrArg StoreView.store hsys
    refine ⟨?_, ?_⟩
    · show w.system.store.validatorSet.isSome
      rw [hcontent]
      exact hv.validators
    · show w.system.store.tfuelTokenBank.isSome
      rw [hcontent]
      exact hv.bank
  cases txOutcome hout with
  | refused => exact h
  | coinbase => exact ⟨h.validators, h.bank⟩
  | @update tx _ _ hupdate =>
    have haccounts := hsystem h (system_makeValidatorAccounts tx.validators view)
    cases hupdate with
    | again => exact h
    | installed => exact ⟨rfl, haccounts.bank⟩
    | _ => exact haccounts
  | send hsend => exact hsystem h hsend.system
  | contract _ hexec hsettle => exact hsystem h (system_contract hexec hsettle)

end Executor

end ThetaSubchain
