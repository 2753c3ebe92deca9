/-
A proposed block and the nodes that apply it.

A candidate whose check is undecided is not an error and stays in the block.
-/
import ThetaSubchain.Ledger.Ledger
import ThetaSubchain.Ledger.System
import ThetaSubchain.Lib.Replay

namespace ThetaSubchain

open Ending Replay Option
open Vm (Halt Evm ExecuteResult)

namespace Executor

variable {x : Executor} {pos : Position} {view : StoreView}

/-! ## The view does not matter, only its content -/

variable {tx : SmartContractTx}

theorem receiptOf_delivered (view : StoreView) (r : ExecuteResult)
    (hcodec : (x.codec.encode (.smartContract tx)).isSome) :
    ∃ receipt, x.receiptOf .delivered tx view r = .ok receipt := by
  have hexecuted : (x.codec.encode (.smartContract (x.executed tx r))).isSome := by
    unfold executed
    split
    · rwa [x.codec.encode_data]
    · exact hcodec
  obtain ⟨raw, hraw⟩ := isSome_iff_exists.mp hexecuted
  unfold receiptOf addTxReceipt
  rw [hraw]
  exact ⟨_, rfl⟩

variable {out : Outcome} {r : ExecuteResult}

theorem settle_delivered (hcodec : (x.codec.encode (.smartContract tx)).isSome)
    (h : x.settle .checked tx r view = .ok out) :
    ∃ receipt, x.settle .delivered tx r view = .ok { out with receipt := receipt } := by
  unfold settle at h ⊢
  split at h
  · cases h
    exact ⟨none, rfl⟩
  next acc _ =>
    split at h
    · cases h
    · cases h
      exact ⟨none, rfl⟩
    · cases h
      exact ⟨none, rfl⟩
    next charged _ =>
      cases h
      obtain ⟨receipt, hreceipt⟩ := receiptOf_delivered charged r hcodec
      exact ⟨receipt, by rw [hreceipt]; rfl⟩

theorem process_delivered {tx : Tx}
    (hcodec : ∀ sc, tx = .smartContract sc → (x.codec.encode tx).isSome)
    (h : x.process pos .checked view tx = .ok out) :
    ∃ receipt, x.process pos .delivered view tx = .ok { out with receipt := receipt } := by
  unfold process at h ⊢
  split at h
  · next hunsupported =>
    cases h
    exact ⟨none, by rw [if_pos hunsupported]⟩
  next hsupported =>
    rw [if_neg hsupported]
    cases tx with
    | smartContract tx =>
      dsimp only [processSmartContract] at h ⊢
      split at h
      · cases h
      · exact settle_delivered (hcodec tx rfl) h
    | coinbase tx =>
      refine ⟨out.receipt, ?_⟩
      exact h
    | subchainValidatorSetUpdate tx => exact ⟨out.receipt, h⟩
    | send tx => exact ⟨out.receipt, h⟩
    | depositStake forValidator => exact ⟨out.receipt, h⟩
    | withdrawStake forValidator => exact ⟨out.receipt, h⟩

theorem processTx_delivered {tx : Tx}
    (hcodec : ∀ sc, tx = .smartContract sc → (x.codec.encode tx).isSome)
    (h : x.processTx pos .checked view tx = .ok out) :
    ∃ receipt, x.processTx pos .delivered view tx = .ok { out with receipt := receipt } := by
  unfold processTx at h ⊢
  split at h
  · cases h
  · cases h
    exact ⟨none, rfl⟩
  · exact process_delivered hcodec h

def Refuses (x : Executor) (view : StoreView) (tx : SubchainValidatorSetUpdateTx) : Prop :=
  (∃ d, view.getDynasty = some d ∧ tx.dynasty ≤ d) ∨
    ∃ vs, x.getValidatorSetByDynasty tx.dynasty = some vs ∧ (newValidatorSet tx).equals vs = false

def PaysFee (x : Executor) (tx : SmartContractTx) (r : ExecuteResult) (view : StoreView) : Prop :=
  ∃ acc gasPrice, x.getInput view tx.sender = some acc ∧ tx.gasPrice = some gasPrice ∧
    acc.isGTE ⟨some 0, some (gasPrice * r.gasUsed.toNat)⟩

/-- Nothing is left behind if the candidate is left out: the validators of an update that is
refused have accounts, and the sender of a smart contract transaction can pay. -/
def LeavesNothing (x : Executor) (pos : Position) (view : StoreView) : Tx → Prop
  | .subchainValidatorSetUpdate tx =>
    x.sanityCheck pos view (.subchainValidatorSetUpdate tx) = .ok () → x.Refuses view tx →
      ∀ v ∈ tx.validators, (view.getAccount v.address).isSome
  | .smartContract tx =>
    x.sanityCheck pos view (.smartContract tx) = .ok () → ∀ r m,
      x.executeSmartContract pos view tx = .ok r m → x.PaysFee tx r m.stateDB
  | _ => True

def UndecidedUpdate (x : Executor) (pos : Position) (view : StoreView) (tx : Tx) : Prop :=
  ∃ update, tx = .subchainValidatorSetUpdate update ∧ x.sanityCheck pos view tx = .ok () ∧
    view.subchainValidatorSetTransactinProcessed = false ∧
    (∃ d, view.getDynasty = some d ∧ d < update.dynasty) ∧
    x.getValidatorSetByDynasty update.dynasty = none

theorem makeValidatorAccounts_eq {validators : List Validator}
    (h : ∀ v ∈ validators, (view.getAccount v.address).isSome) :
    makeValidatorAccounts view validators = view := by
  induction validators with
  | nil => rfl
  | cons v vs ih =>
    have hv : makeValidatorAccount view v = view := by
      obtain ⟨acc, hacc⟩ := isSome_iff_exists.mp (h v (by simp))
      rw [makeValidatorAccount, hacc]
    show makeValidatorAccounts (makeValidatorAccount view v) vs = view
    rw [hv]
    exact ih fun w hw => h w (by simp [hw])

theorem minus_of_isGTE {acc : Account} {c : Coins} (h : acc.isGTE c) :
    ∃ acc', acc.minus c = some acc' := by
  simp only [Account.isGTE, Bool.and_eq_true, decide_eq_true_eq] at h
  refine ⟨_, if_pos ?_⟩
  constructor
  · omega
  · omega

theorem chargeSender_of_isGTE (view : StoreView) {acc : Account} {gasUsed : UInt64} {gasPrice : Int}
    (hprice : tx.gasPrice = some gasPrice) (h : acc.isGTE ⟨some 0, some (gasPrice * gasUsed.toNat)⟩) :
    ∃ charged, chargeSender view tx acc gasUsed = .ok (some charged) := by
  obtain ⟨acc', hacc'⟩ := minus_of_isGTE h
  have hfee : chargeFee acc ⟨some 0, some (gasPrice * gasUsed.toNat)⟩ = .ok (some acc') := by
    rw [chargeFee, if_pos h, hacc']
    rfl
  unfold chargeSender
  rw [hprice]
  show ∃ charged, (chargeFee acc _ >>= _) = _
  rw [hfee]
  exact ⟨_, rfl⟩

variable {sel : ViewSelector}

theorem settle_ok_of_paysFee (hpays : x.PaysFee tx r view) (h : x.settle sel tx r view = .ok out) :
    out.result = .ok := by
  obtain ⟨acc, gasPrice, hacc, hprice, hgte⟩ := hpays
  obtain ⟨charged, hcharged⟩ := chargeSender_of_isGTE view hprice hgte
  unfold settle at h
  rw [hacc] at h
  dsimp only at h
  rw [hcharged] at h
  obtain ⟨receipt, -, h⟩ := bind_eq_ok.mp h
  cases h
  rfl

theorem view_of_refused {tx : Tx} (h : x.processTx pos sel view tx = .ok out)
    (herr : out.result.isError) (hleaves : x.LeavesNothing pos view tx) : out.view = view := by
  cases txOutcome h with
  | refused => rfl
  | coinbase => cases herr
  | update hcheck h =>
    cases h with
    | again => rfl
    | older _ _ hd hle => exact makeValidatorAccounts_eq (hleaves hcheck (.inl ⟨_, hd, hle⟩))
    | differs _ _ _ _ hvs hne => exact makeValidatorAccounts_eq (hleaves hcheck (.inr ⟨_, hvs, hne⟩))
    | undecided => cases herr
    | installed => cases herr
  | send h =>
    cases h with
    | refused => rfl
    | sent => cases herr
  | contract hcheck hexec h =>
    rw [settle_ok_of_paysFee (hleaves hcheck _ _ hexec) h] at herr
    cases herr

theorem isUndecided_iff {tx : Tx} (h : x.processTx pos sel view tx = .ok out) :
    out.result.isUndecided = true ↔ x.UndecidedUpdate pos view tx := by
  -- only an update can be undecided
  have hother : (x.sanityCheck pos view tx = .ok () →
      ∀ update, tx ≠ .subchainValidatorSetUpdate update) → ¬ x.UndecidedUpdate pos view tx := by
    rintro hne ⟨update, heq, hcheck, -⟩
    exact hne hcheck update heq
  cases txOutcome h with
  | refused _ hne => exact iff_of_false nofun (hother hne)
  | coinbase => exact iff_of_false nofun (hother (by simp))
  | send h => cases h <;> exact iff_of_false nofun (hother (by simp))
  | contract _ _ h => cases settled h <;> exact iff_of_false nofun (hother (by simp))
  | update hcheck h =>
    cases h with
    | undecided hflag hd hlt hnone =>
      exact iff_of_true rfl ⟨_, rfl, hcheck, hflag, ⟨_, hd, hlt⟩, hnone⟩
    | again hflag =>
      refine iff_of_false nofun ?_
      rintro ⟨_, ⟨⟩, -, hflag', -⟩
      exact absurd (hflag.symm.trans hflag') (by decide)
    | older _ _ hd hle =>
      refine iff_of_false nofun ?_
      rintro ⟨_, ⟨⟩, -, -, ⟨d, hd', hlt⟩, -⟩
      obtain rfl := some.inj (hd.symm.trans hd')
      exact absurd hlt (Int.not_lt.mpr hle)
    | differs _ _ _ _ hvs =>
      refine iff_of_false nofun ?_
      rintro ⟨_, ⟨⟩, -, -, -, hnone⟩
      cases hvs.symm.trans hnone
    | installed _ _ _ hvs =>
      refine iff_of_false nofun ?_
      rintro ⟨_, ⟨⟩, -, -, -, hnone⟩
      cases hvs.symm.trans hnone

end Executor

/-! ## Proposing and applying as a selection and a replay -/

namespace Ledger

variable {cfg : LedgerConfig}

def tryCandidate (cfg : LedgerConfig) (block : Block) (l : Ledger) (raw : Bytes) :
    Except Halt (Ledger × Result) :=
  match txFromBytes cfg.exec.codec raw with
  | none => .ok (l, .error "")
  | some tx => l.checkTx cfg block tx

def executeRaw (cfg : LedgerConfig) (block : Block) (l : Ledger) (raw : Bytes) :
    Except Halt (Ledger × Result) :=
  match txFromBytes cfg.exec.codec raw with
  | none => .ok (l, .error "Failed to parse transaction: %v")
  | some tx => l.executeTx cfg block tx

def failed (res : Result) : Bool := res.isError || res.isUndecided

theorem checkTxs_eq_select (block : Block) (l : Ledger) (raws : List Bytes) :
    checkTxs cfg block l raws = select (tryCandidate cfg block) Result.isError l raws := by
  induction raws generalizing l with
  | nil => rfl
  | cons raw rest ih =>
    rw [checkTxs, select, tryCandidate]
    cases txFromBytes cfg.exec.codec raw with
    | none =>
      show checkTxs cfg block l rest = _
      rw [ih]
      show select _ _ l rest = (select _ _ l rest >>= fun p => .ok (p.1, p.2))
      cases select (tryCandidate cfg block) Result.isError l rest <;> rfl
    | some tx =>
      show (l.checkTx cfg block tx >>= _) = (l.checkTx cfg block tx >>= _)
      simp only [ih]

variable {block : Block}

theorem executeTxs_of_replay {l l' : Ledger} {flag : Bool} {raws : List Bytes} {bad : Option Result}
    (h : replay (executeRaw cfg block) failed l raws = .ok (l', bad)) :
    executeTxs cfg block l flag raws = .ok (l', bad.elim (.ok flag) .error) := by
  induction raws generalizing l with
  | nil =>
    cases h
    rfl
  | cons raw rest ih =>
    obtain ⟨⟨l₁, res⟩, hstep, h⟩ := bind_eq_ok.mp h
    rw [executeTxs]
    unfold executeRaw at hstep
    cases htx : txFromBytes cfg.exec.codec raw with
    | none =>
      rw [htx] at hstep
      cases hstep
      cases h
      rfl
    | some tx =>
      rw [htx] at hstep
      have hstake : isValidatorStake tx = false := by
        have := isSubchainTx_of_txFromBytes htx
        cases tx <;> first | rfl | cases this
      dsimp only
      rw [show l.executeTx cfg block tx = .ok (l₁, res) from hstep]
      show (if failed res then _ else _) = _
      dsimp only at h
      split at h
      · cases h
        rw [if_pos (by assumption)]
        rfl
      · rw [if_neg (by assumption), hstake, Bool.or_false]
        exact ih h

/-- The delivered view of one ledger is the checked view of the other, and both process a
block at the same position. -/
def Follows (cfg : LedgerConfig) (block block' : Block) (l t : Ledger) : Prop :=
  t.delivered = l.checked ∧ t.position cfg block' = l.position cfg block

theorem follows_resetState (cfg : LedgerConfig) {l l₀ l' l₀' : Ledger} {p block block' : Block}
    (h : l.resetState p = (l₀, .ok)) (h' : l'.resetState p = (l₀', .ok))
    (hstored : l'.db p.header.stateHash = l.db p.header.stateHash)
    (hparent : block'.header.parent = block.header.parent) : Follows cfg block block' l₀ l₀' := by
  unfold resetState newStoreView at h h'
  rw [hstored] at h'
  cases hdb : l.db p.header.stateHash with
  | none =>
    rw [hdb] at h
    cases h
  | some content =>
    rw [hdb] at h h'
    cases h
    cases h'
    exact ⟨rfl, by simp only [position, hparent]⟩

variable {res : Result} {raw : Bytes}

theorem tryCandidate_cases {l l' : Ledger} (h : tryCandidate cfg block l raw = .ok (l', res)) :
    (txFromBytes cfg.exec.codec raw = none ∧ l' = l ∧ res.isError) ∨
      ∃ tx out, txFromBytes cfg.exec.codec raw = some tx ∧
        cfg.exec.processTx (l.position cfg block) .checked l.checked tx = .ok out ∧
        res = out.result ∧ l'.checked = out.view ∧
        l'.position cfg block = l.position cfg block := by
  unfold tryCandidate at h
  cases htx : txFromBytes cfg.exec.codec raw with
  | none =>
    rw [htx] at h
    cases h
    exact .inl ⟨rfl, rfl, rfl⟩
  | some tx =>
    rw [htx] at h
    obtain ⟨out, hout, hres, rfl⟩ := processTx_eq_ok h
    exact .inr ⟨tx, out, rfl, hout, hres, rfl, rfl⟩

theorem follows_of_refused {block block' : Block} {l l' t : Ledger}
    (h : tryCandidate cfg block l raw = .ok (l', res)) (herr : res.isError)
    (hleaves : ∀ tx, txFromBytes cfg.exec.codec raw = some tx → cfg.exec.LeavesNothing (l.position
      cfg block) l.checked tx) (hR : Follows cfg block block' l t) :
    Follows cfg block block' l' t := by
  obtain ⟨-, rfl, -⟩ | ⟨tx, out, htx, hout, rfl, hview, hpos⟩ := tryCandidate_cases h
  · exact hR
  · have hsame : out.view = l.checked := Executor.view_of_refused hout herr (hleaves tx htx)
    exact ⟨hR.1.trans (hview.trans hsame).symm, hR.2.trans hpos.symm⟩

theorem follows_of_kept {block block' : Block} {l l' t : Ledger}
    (hcodec : ∀ raw sc, txFromBytes cfg.exec.codec raw = some (.smartContract sc) →
      (cfg.exec.codec.encode (.smartContract sc)).isSome) (hR : Follows cfg block block' l t)
    (h : tryCandidate cfg block l raw = .ok (l', res)) (hkept : res.isError = false) :
    ∃ t', executeRaw cfg block' t raw = .ok (t', res) ∧ Follows cfg block block' l' t' := by
  obtain ⟨-, -, herr⟩ | ⟨tx, out, htx, hout, rfl, hview, hpos⟩ := tryCandidate_cases h
  · exact absurd (herr.symm.trans hkept) (by decide)
  have hsc : ∀ sc, tx = .smartContract sc → (cfg.exec.codec.encode tx).isSome := by
    intro sc hsc
    rw [hsc] at htx ⊢
    exact hcodec raw sc htx
  obtain ⟨receipt, hdelivered⟩ := Executor.processTx_delivered hsc hout
  have hheight : out.view.height = t.delivered.height := by
    rw [hR.1]
    exact Executor.height_processTx hout
  unfold executeRaw
  rw [htx]
  show ∃ t', processTx cfg t block' .delivered tx = .ok (t', out.result) ∧ _
  unfold processTx
  rw [hR.2, show t.view .delivered = l.checked from hR.1, hdelivered]
  refine ⟨_, rfl, hview.symm, ?_⟩
  have hposition : ({ t with delivered := out.view } : Ledger).position cfg block' =
      t.position cfg block' := by
    simp only [position, hheight]
  exact hposition.trans (hR.2.trans hpos.symm)

def OnCandidates (cfg : LedgerConfig) (block : Block) (majority : Bool)
    (P : Position → StoreView → Tx → Prop) (l : Ledger) : Prop :=
  ∀ raws, l.candidates cfg block majority = some raws →
    OnSteps (tryCandidate cfg block) (fun l raw _ _ =>
      ∀ tx, txFromBytes cfg.exec.codec raw = some tx →
        P (l.position cfg block) l.checked tx) l raws

theorem decided_iff {l : Ledger} {raws : List Bytes} :
    OnSteps (tryCandidate cfg block) (fun _ _ _ res => res.isError = false → failed res = false)
        l raws ↔
      OnSteps (tryCandidate cfg block) (fun l raw _ _ =>
        ∀ tx, txFromBytes cfg.exec.codec raw = some tx →
          ¬ cfg.exec.UndecidedUpdate (l.position cfg block) l.checked tx) l raws := by
  have hstep : ∀ l raw l' res, tryCandidate cfg block l raw = .ok (l', res) →
      ((res.isError = false → failed res = false) ↔
        ∀ tx, txFromBytes cfg.exec.codec raw = some tx →
          ¬ cfg.exec.UndecidedUpdate (l.position cfg block) l.checked tx) := by
    intro l raw l' res h
    obtain ⟨htx, -, herr⟩ | ⟨tx, out, htx, hout, rfl, -, -⟩ := tryCandidate_cases h
    · simp [htx, herr]
    · have hiff := Executor.isUndecided_iff hout
      simp only [htx, some.injEq, forall_eq']
      rw [← hiff]
      cases out.result <;> simp [failed, Result.isError, Result.isUndecided]
  constructor
  · exact OnSteps.mono fun l raw l' res h => (hstep l raw l' res h).mp
  · exact OnSteps.mono fun l raw l' res h => (hstep l raw l' res h).mpr

theorem applyBlockTxs_of_replay {block pb : Block} {l t : Ledger} {bad : Option Result}
    (hparent : cfg.findBlock block.header.parent = some pb)
    (h : replay (executeRaw cfg block) failed l block.txs = .ok (t, bad)) :
    l.applyBlockTxs cfg block =
      match bad with
      | some res => .ok ((t.resetState pb).1, res, none)
      | none =>
        if cfg.rootHash t.delivered.store ≠ block.header.stateHash then
          .ok ((t.resetState pb).1, .error "State root mismatch! root: %v, exptected: %v", none)
        else .ok (t.commit cfg, .ok, some false) := by
  unfold applyBlockTxs
  rw [hparent]
  show (executeTxs cfg block l false block.txs >>= _) = _
  rw [executeTxs_of_replay h]
  cases bad with
  | none => rfl
  | some res => rfl

/-- If the candidates that are left out leave nothing behind, then the proposed block can be
applied exactly if no candidate was an undecided update. -/
theorem applies_iff_no_undecided_candidate (cfg : LedgerConfig)
    (hcodec : ∀ raw sc, txFromBytes cfg.exec.codec raw = some (.smartContract sc) →
      (cfg.exec.codec.encode (.smartContract sc)).isSome)
    {l l₀ l₁ l' l₀' : Ledger} {p block block' : Block} {majority : Bool} {root : Hash}
    {txs : List Bytes} (hreset : l.resetState p = (l₀, .ok))
    (hpropose : l₀.proposeBlockTxs cfg block majority = .ok (l₁, root, txs, .ok))
    (hreset' : l'.resetState p = (l₀', .ok))
    (hstored : l'.db p.header.stateHash = l.db p.header.stateHash)
    (hparent : (cfg.findBlock block.header.parent).isSome)
    (hblock : block'.header.parent = block.header.parent ∧ block'.header.stateHash = root ∧
      block'.txs = txs) (hleaves : l₀.OnCandidates cfg block majority cfg.exec.LeavesNothing) :
    (∃ l₂ flag, l₀'.applyBlockTxs cfg block' = .ok (l₂, .ok, flag)) ↔
      l₀.OnCandidates cfg block majority fun pos view tx =>
        ¬ cfg.exec.UndecidedUpdate pos view tx := by
  obtain ⟨hsame, hroot, htxs⟩ := hblock
  obtain ⟨pb, hpb⟩ := isSome_iff_exists.mp hparent
  unfold proposeBlockTxs at hpropose
  cases hcand : l₀.candidates cfg block majority with
  | none =>
    rw [hcand] at hpropose
    cases hpropose
  | some raws =>
    rw [hcand] at hpropose
    obtain ⟨⟨l₁', kept⟩, hselect, hpropose⟩ := bind_eq_ok.mp hpropose
    cases hpropose
    rw [checkTxs_eq_select] at hselect
    have hR := follows_resetState cfg hreset hreset' hstored hsame
    have hsim : ∀ l t raw l' res, Follows cfg block block' l t →
        tryCandidate cfg block l raw = .ok (l', res) → res.isError = false →
        ∃ t', executeRaw cfg block' t raw = .ok (t', res) ∧ Follows cfg block block' l' t' :=
      fun _ _ _ _ _ => follows_of_kept hcodec
    have hclean : OnSteps (tryCandidate cfg block) (fun l _ l' res => res.isError = true →
        ∀ t, Follows cfg block block' l t → Follows cfg block block' l' t) l₀ raws :=
      (hleaves raws hcand).mono fun l raw l' res h hl herr t => follows_of_refused h herr hl
    have hdecided : l₀.OnCandidates cfg block majority (fun pos view tx =>
        ¬ cfg.exec.UndecidedUpdate pos view tx) ↔
        OnSteps (tryCandidate cfg block)
          (fun _ _ _ res => res.isError = false → failed res = false) l₀ raws := by
      rw [decided_iff]
      constructor
      · intro h
        exact h raws hcand
      · intro h raws' hcand'
        rw [hcand] at hcand'
        cases hcand'
        exact h
    rw [hdecided]
    obtain ⟨t, hreplay, hfinal, hgood⟩ | ⟨t, res, hres, hreplay, hbad⟩ :=
      replay_select hsim hR hselect hclean
    · refine iff_of_true ?_ hgood
      rw [applyBlockTxs_of_replay (by rw [hsame, hpb]) (by rw [htxs]; exact hreplay), hfinal.1,
        hroot]
      exact ⟨_, _, if_neg (by simp)⟩
    · refine iff_of_false ?_ hbad
      rintro ⟨l₂, flag, happly⟩
      rw [applyBlockTxs_of_replay (by rw [hsame, hpb]) (by rw [htxs]; exact hreplay)] at happly
      cases happly
      cases hres

/-! ## Proposals on a state with one validator -/

def genesisHeader : BlockHeader where
  chainID := [1]
  epoch := 0
  height := 0
  parent := 0
  hcc := ⟨none, 0⟩
  txHash := 0
  receiptHash := 0
  bloom := 0
  stateHash := 1
  timestamp := some 0
  proposer := 7
  signature := none

def genesisBlock : Block := ⟨genesisHeader, []⟩

def genesisContent : LedgerContent where
  account := fun a => if a = 7 then some { address := 7, tfuelWei := 1000 } else none
  validatorSet := some ⟨0, [⟨7, 10⟩]⟩

def sampleRoot (content : LedgerContent) : Hash := if (content.account 9).isSome then 2 else 1

def sampleLedger : Ledger where
  parentBlock := genesisBlock
  delivered := { height := 0, store := {} }
  checked := { height := 0, store := {} }
  screened := { height := 0, store := {} }
  db := fun root => if root = 1 then some genesisContent else none

def sampleCoinbase : Tx := .coinbase ⟨{ address := 7, signature := some ⟨[1]⟩ }, [], 0⟩

def sampleUpdate : Tx :=
  .subchainValidatorSetUpdate
    { proposer := { address := 7, signature := some ⟨[1]⟩ }, dynasty := 1, validators := [⟨9, 5⟩] }

def sampleConfig (witness : Int → Option ValidatorSet) (mempool : List Bytes) : LedgerConfig where
  exec := plainExecutor [sampleCoinbase, sampleUpdate] witness ⟨0, [⟨7, 10⟩]⟩
  rootHash := sampleRoot
  blockHash := fun _ => 5
  findBlock := fun _ => some genesisBlock
  getNextProposer := fun _ _ => some ⟨7, 10⟩
  getMainchainBlockHeight := none
  sign := fun _ => some ⟨[1]⟩
  reapUnsafe := fun n => mempool.take n

def childHeader : BlockHeader := { genesisHeader with height := 1, epoch := 1, parent := 4 }

def samplePayment (amount : Int) : Tx :=
  .send
    { fee := ⟨some 0, some 2⟩
      inputs :=
        [{ address := 7, coins := ⟨some 0, some (amount + 2)⟩, sequence := 1
           signature := some ⟨[1]⟩ }]
      outputs := [⟨9, ⟨some 0, some amount⟩⟩] }

/-- Two payments with one sequence number are in the mempool. -/
def paymentsConfig : LedgerConfig :=
  { sampleConfig (fun _ => none) [[1], [2]] with
    exec := plainExecutor [sampleCoinbase, samplePayment 10, samplePayment 20] (fun _ => none)
      ⟨0, [⟨7, 10⟩]⟩ }

/-- The second payment is left out of the block. -/
theorem applies_iff_no_undecided_candidate_sample :
    ∃ l₂ flag, (sampleLedger.resetState genesisBlock).1.applyBlockTxs paymentsConfig
      ⟨{ childHeader with stateHash := 2 }, [[0], [1]]⟩ = .ok (l₂, .ok, flag) := by
  have hdecoded : ∀ raw tx, txFromBytes paymentsConfig.exec.codec raw = some tx →
      tx = sampleCoinbase ∨ ∃ amount, tx = samplePayment amount := by
    intro raw tx htx
    have hmem := mem_of_txFromBytes htx
    simp only [List.mem_cons, List.not_mem_nil, or_false] at hmem
    obtain rfl | rfl | rfl := hmem
    · exact .inl rfl
    · exact .inr ⟨10, rfl⟩
    · exact .inr ⟨20, rfl⟩
  have hcandidates : ∀ {P : Position → StoreView → Tx → Prop},
      (∀ pos view, P pos view sampleCoinbase) →
      (∀ pos view amount, P pos view (samplePayment amount)) →
      (sampleLedger.resetState genesisBlock).1.OnCandidates paymentsConfig
        ⟨childHeader, []⟩ false P := by
    intro P hcoinbase hpayment raws _
    apply onSteps_of_forall
    intro raw _ l l' res tx htx
    obtain rfl | ⟨amount, rfl⟩ := hdecoded raw tx htx
    · exact hcoinbase _ _
    · exact hpayment _ _ _
  have hproposed : ((sampleLedger.resetState genesisBlock).1.proposeBlockTxs paymentsConfig
      ⟨childHeader, []⟩ false).map (·.2) = .ok (2, [[0], [1]], .ok) := by decide
  obtain ⟨⟨l₁, _⟩, hpropose, rfl⟩ := map_eq_ok.mp hproposed
  have hreset : sampleLedger.resetState genesisBlock =
      ((sampleLedger.resetState genesisBlock).1, .ok) := rfl
  refine Iff.mpr (applies_iff_no_undecided_candidate paymentsConfig ?_ hreset hpropose hreset rfl
    rfl ⟨rfl, rfl, rfl⟩ (hcandidates (fun _ _ => trivial) fun _ _ _ => trivial))
    (hcandidates ?_ ?_)
  · intro raw sc hraw
    exact isSome_encode_of_txFromBytes hraw
  · rintro pos view ⟨update, heq, -⟩
    cases heq
  · rintro pos view amount ⟨update, heq, -⟩
    cases heq

/-- Burns, for the caller, half of 10^15 for each block of the chain. -/
def burnByNumber : Bytes :=
  [0x43, 0x66, 0x01, 0xc6, 0xbf, 0x52, 0x63, 0x40, 0x00, 0x02, 0x60, 0, 0x52, 0x60, 0, 0x60, 0,
    0x60, 32, 0x60, 0, 0x60, 183, 0x61, 0xff, 0xff, 0xf4, 0x00]

def burnByNumberTx : Tx :=
  .smartContract
    { sender := { address := 7, sequence := 1, coins := ⟨some 0, some 0⟩ }
      toAddress := 100
      gasLimit := 1000000
      gasPrice := some 100000000
      data := [] }

def burnContent : LedgerContent :=
  { genesisContent with
    account := fun a =>
      if a = 7 then some { address := 7, tfuelWei := 1000000000000000 }
      else if a = 100 then some { address := 100, codeHash := 55 }
      else none
    code := fun h => if h = 55 then burnByNumber else []
    tfuelTokenBank := some 9 }

def burnLedger : Ledger :=
  { sampleLedger with db := fun root => if root = 1 then some burnContent else none }

def firstBlock : Block := ⟨{ childHeader with stateHash := 1 }, []⟩

def burnConfig : LedgerConfig :=
  { sampleConfig (fun _ => none) [[1]] with
    exec := plainExecutor
      [.coinbase ⟨{ address := 7, signature := some ⟨[1]⟩ }, [], 1⟩, burnByNumberTx] (fun _ => none)
      ⟨0, [⟨7, 10⟩]⟩
    rootHash := fun content => if (content.account 7).any (·.tfuelWei = 0) then 2 else 1
    findBlock := fun _ => some firstBlock }

/-- The transaction passes while the genesis block is the last one.  One block later it burns all
that its sender has and is left out, but the burnt TFuel is missing in the proposed state. -/
theorem proposed_block_cannot_be_applied :
    ((burnLedger.resetState genesisBlock).1.processTx burnConfig ⟨childHeader, []⟩ .screened
      burnByNumberTx).map (·.2) = .ok .ok ∧
    ((burnLedger.resetState firstBlock).1.proposeBlockTxs burnConfig ⟨childHeader, []⟩ false).map
      (·.2) = .ok (2, [[0]], .ok) ∧
    ((burnLedger.resetState firstBlock).1.applyBlockTxs burnConfig
      ⟨{ childHeader with stateHash := 2 }, [[0]]⟩).map (·.2.1) =
        .ok (.error "State root mismatch! root: %v, exptected: %v") := by
  refine ⟨?_, ?_, ?_⟩
  · decide +kernel
  · decide +kernel
  · decide

end Ledger

end ThetaSubchain
