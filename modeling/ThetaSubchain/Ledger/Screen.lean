/-
Screening a transaction that a client or a peer sends (`ScreenTx` of ledger/ledger.go).

A coinbase transaction is turned away.  A validator set update is not, and its check asks for the
block being processed.
-/
import ThetaSubchain.Ledger.Returns

namespace ThetaSubchain

open Ending Executor
open Vm (Halt)

/-- `core.TxInfo` as the executor fills it; the gas price may be nil. -/
structure RawTxInfo where
  address : Address := 0
  sequence : UInt64 := 0
  effectiveGasPrice : Option Int
deriving DecidableEq, Repr

structure RegularTxGas where
  gasRegularTx : UInt64
  gasRegularTxJune2021 : UInt64
  heightJune2021FeeAdjustment : UInt64

structure RegularTxGas.Priced (g : RegularTxGas) : Prop where
  before : 2 ≤ g.gasRegularTx
  after : 2 ≤ g.gasRegularTxJune2021

/-- The state the bank addresses are read from is that of the root of the chain. -/
def LedgerContent.getTokenBankContractAddress (content : LedgerContent) :
    TokenType → Option Address
  | .tfuel => content.tfuelTokenBank
  | .tnt20 => content.tnt20TokenBank
  | .tnt721 => content.tnt721TokenBank
  | .tnt1155 => content.tnt1155TokenBank

namespace Executor

variable (x : Executor) (g : RegularTxGas)

variable (pos : Position)

def getRegularTxGas : UInt64 :=
  if pos.height + 1 < g.heightJune2021FeeAdjustment then g.gasRegularTx
  else g.gasRegularTxJune2021

def gasOfSend (tx : SendTx) : UInt64 :=
  let numAccountsAffected := UInt64.ofNat (tx.inputs.length + tx.outputs.length)
  let gasSendTxPerAccount := getRegularTxGas g pos / 2
  let gas := gasSendTxPerAccount * numAccountsAffected
  if gas < 2 * gasSendTxPerAccount then 2 * gasSendTxPerAccount else gas

/-- `calculateEffectiveGasPrice` of a send transaction; a fee that is nil panics, and so does a
division by zero. -/
def effectiveGasPriceOfSend (tx : SendTx) : Option Int := do
  let fee ← tx.fee.tfuelWei
  let gas := gasOfSend g pos tx
  if gas = 0 then none else some (fee / gas.toNat)

def getTxInfo : Tx → Except Halt (Option RawTxInfo × Result)
  | .coinbase _ | .subchainValidatorSetUpdate _ =>
    .ok (some { effectiveGasPrice := some 0 }, .ok)
  | .send tx =>
    match tx.inputs, effectiveGasPriceOfSend g pos tx with
    | input :: _, some price =>
      .ok (some ⟨input.address, input.sequence, some price⟩, .ok)
    | _, _ => .error .panic
  | .smartContract tx => .ok (some ⟨tx.sender.address, tx.sender.sequence, tx.gasPrice⟩, .ok)
  | .depositStake _ | .withdrawStake _ => .ok (none, .error "Unknown tx type")

/-- The executor while no block is processed: `getValidatorSet` panics because there is no
current block. -/
def idle : Executor := { x with getNextValidatorSet := fun _ => none }

end Executor

namespace Ledger

variable (cfg : LedgerConfig) (g : RegularTxGas)

/-- `TxFromBytes` never returns the other kind that is skipped, a slash transaction. -/
def shouldSkipCheckTx : Tx → Bool
  | .coinbase _ => true
  | _ => false

def idlePosition (l : Ledger) : Position where
  height := l.delivered.height
  parentBlock :=
    let pb := l.parentBlock.header
    ⟨pb.height, pb.timestamp.getD 0, cfg.exec.lib.mapChainID pb.chainID (pb.height + 1)⟩
  currentParent := 0

def screenTx (l : Ledger) (rawTx : Bytes) : Except Halt (Ledger × Option RawTxInfo × Result) :=
  match txFromBytes cfg.exec.codec rawTx with
  | none => .ok (l, none, .error "Error decoding tx: %v")
  | some tx =>
    if shouldSkipCheckTx tx then .ok (l, none, .error "Unauthorized transaction, should skip")
    else do
      let out ← cfg.exec.idle.processTx (l.idlePosition cfg) .screened l.screened tx
      let l := { l with screened := out.view }
      if out.result.isError then return (l, none, out.result)
      let (txInfo, res) ← Executor.getTxInfo g (l.idlePosition cfg) tx
      if res.isError then return (l, none, res)
      return (l, txInfo, res)

def applyBlockTxsForChainCorrection (l : Ledger) (block : Block) :
    Except Halt (Ledger × Hash × Result) := do
  match cfg.findBlock block.header.parent with
  | none => throw .panic
  | some parentBlock =>
    match ← executeTxs cfg block l false block.txs with
    | (l, .error res) => return ((l.resetState parentBlock).1, 0, res)
    | (l, .ok _) => return (l.commit cfg, cfg.rootHash l.delivered.store, .ok)

def atGenesis (genesis : Block) (content : LedgerContent) : Ledger where
  parentBlock := genesis
  delivered := { height := genesis.header.height, store := content }
  checked := { height := genesis.header.height, store := content }
  screened := { height := genesis.header.height, store := content }
  db := fun root => if root = genesis.header.stateHash then some content else none

/-- What changes the ledger, with whatever the rest of the node answers meanwhile.  A call
that panics is no step. -/
inductive Step : Ledger → Ledger → Prop
  | reset (l : Ledger) (block : Block) : Step l (l.resetState block).1
  | propose {cfg : LedgerConfig} {l l' : Ledger} {block : Block} {majority : Bool} {root : Hash}
      {txs : List Bytes} {res : Result}
      (h : l.proposeBlockTxs cfg block majority = .ok (l', root, txs, res)) : Step l l'
  | apply {cfg : LedgerConfig} {l l' : Ledger} {block : Block} {res : Result}
      {update : Option Bool} (h : l.applyBlockTxs cfg block = .ok (l', res, update)) : Step l l'
  | correct {cfg : LedgerConfig} {l l' : Ledger} {block : Block} {root : Hash} {res : Result}
      (h : l.applyBlockTxsForChainCorrection cfg block = .ok (l', root, res)) : Step l l'
  | screen {cfg : LedgerConfig} {g : RegularTxGas} {l l' : Ledger} {rawTx : Bytes}
      {info : Option RawTxInfo} {res : Result}
      (h : l.screenTx cfg g rawTx = .ok (l', info, res)) : Step l l'
  | prune (l : Ledger) (db : Hash → Option LedgerContent)
      (h : ∀ root content, db root = some content → l.db root = some content) :
      Step l { l with db := db }

def Run (genesis : Block) (content : LedgerContent) : Ledger → Prop :=
  Relation.ReflTransGen Step (atGenesis genesis content)

structure Sound (l : Ledger) : Prop where
  delivered : l.delivered.store.Bootstrapped
  checked : l.checked.store.Bootstrapped
  screened : l.screened.store.Bootstrapped
  db : ∀ root content, l.db root = some content → content.Bootstrapped

section Steps

variable {cfg : LedgerConfig} {g : RegularTxGas} {block : Block} {l l' : Ledger}

variable (h : l.Sound)
include h

theorem Sound.view (sel : ViewSelector) : (l.view sel).store.Bootstrapped := by
  cases sel with
  | delivered => exact h.delivered
  | checked => exact h.checked
  | screened => exact h.screened

theorem Sound.setView (sel : ViewSelector) {view : StoreView}
    (hview : view.store.Bootstrapped) : (l.setView sel view).Sound := by
  cases sel with
  | delivered => exact ⟨hview, h.checked, h.screened, h.db⟩
  | checked => exact ⟨h.delivered, hview, h.screened, h.db⟩
  | screened => exact ⟨h.delivered, h.checked, hview, h.db⟩

theorem Sound.resetState (block : Block) : (l.resetState block).1.Sound := by
  unfold Ledger.resetState newStoreView
  cases hstored : l.db block.header.stateHash with
  | none => exact ⟨h.delivered, h.checked, h.screened, h.db⟩
  | some content =>
    have hcontent := h.db _ content hstored
    exact ⟨hcontent, hcontent, hcontent, h.db⟩

theorem Sound.commit : (l.commit cfg).Sound := by
  refine ⟨h.delivered, h.delivered, h.delivered, fun root content hroot => ?_⟩
  change Function.update l.db _ _ root = some content at hroot
  rw [Function.update_apply] at hroot
  split at hroot
  · cases hroot
    exact h.delivered
  · exact h.db root content hroot

variable {res : Result}

theorem Sound.processTx {sel : ViewSelector} {tx : Tx}
    (hstep : l.processTx cfg block sel tx = .ok (l', res)) : l'.Sound := by
  obtain ⟨out, hout, -, rfl⟩ := processTx_eq_ok hstep
  have hset := h.setView sel (bootstrapped_processTx (h.view sel) hout)
  exact ⟨hset.delivered, hset.checked, hset.screened, hset.db⟩

theorem Sound.checkTxs {raws kept : List Bytes}
    (hrun : checkTxs cfg block l raws = .ok (l', kept)) : l'.Sound := by
  induction raws generalizing l l' kept with
  | nil =>
    cases hrun
    exact h
  | cons raw rest ih =>
    rw [Ledger.checkTxs] at hrun
    cases htx : txFromBytes cfg.exec.codec raw with
    | none =>
      rw [htx] at hrun
      exact ih h hrun
    | some tx =>
      rw [htx] at hrun
      obtain ⟨⟨l₁, res⟩, hstep, hrun⟩ := bind_eq_ok.mp hrun
      obtain ⟨⟨l₂, kept'⟩, hrest, hrun⟩ := bind_eq_ok.mp hrun
      cases hrun
      exact ih (h.processTx hstep) hrest

theorem Sound.executeTxs {raws : List Bytes} {flag : Bool} {verdict : Except Result Bool}
    (hrun : executeTxs cfg block l flag raws = .ok (l', verdict)) : l'.Sound :=
  (executeTxs_spec (fun _ _ _ _ hsound hstep => hsound.processTx hstep) hrun h).1

theorem Sound.proposeBlockTxs {majority : Bool} {root : Hash} {txs : List Bytes}
    (hrun : l.proposeBlockTxs cfg block majority = .ok (l', root, txs, res)) : l'.Sound := by
  unfold Ledger.proposeBlockTxs at hrun
  split at hrun
  · cases hrun
  · obtain ⟨⟨l₁, kept⟩, hchecks, hrun⟩ := bind_eq_ok.mp hrun
    cases hrun
    exact h.checkTxs hchecks

theorem Sound.applyBlockTxs {update : Option Bool}
    (hrun : l.applyBlockTxs cfg block = .ok (l', res, update)) : l'.Sound := by
  unfold Ledger.applyBlockTxs at hrun
  split at hrun
  · cases hrun
  next pb _ =>
    obtain ⟨⟨l₁, verdict⟩, hexec, hrun⟩ := bind_eq_ok.mp hrun
    have hsound := h.executeTxs hexec
    cases verdict with
    | error res =>
      cases hrun
      exact hsound.resetState pb
    | ok flag =>
      dsimp only at hrun
      split at hrun
      · cases hrun
        exact hsound.resetState pb
      · cases hrun
        exact hsound.commit

theorem Sound.applyBlockTxsForChainCorrection {root : Hash}
    (hrun : l.applyBlockTxsForChainCorrection cfg block = .ok (l', root, res)) : l'.Sound := by
  unfold Ledger.applyBlockTxsForChainCorrection at hrun
  split at hrun
  · cases hrun
  next pb _ =>
    obtain ⟨⟨l₁, verdict⟩, hexec, hrun⟩ := bind_eq_ok.mp hrun
    have hsound := h.executeTxs hexec
    cases verdict with
    | error res =>
      cases hrun
      exact hsound.resetState pb
    | ok flag =>
      cases hrun
      exact hsound.commit

theorem Sound.screenTx {rawTx : Bytes} {info : Option RawTxInfo}
    (hrun : l.screenTx cfg g rawTx = .ok (l', info, res)) : l'.Sound := by
  unfold Ledger.screenTx at hrun
  split at hrun
  · cases hrun
    exact h
  split at hrun
  · cases hrun
    exact h
  obtain ⟨out, hout, hrun⟩ := bind_eq_ok.mp hrun
  have hsound : Sound { l with screened := out.view } :=
    h.setView .screened (bootstrapped_processTx h.screened hout)
  dsimp only at hrun
  split at hrun
  · cases hrun
    exact hsound
  obtain ⟨⟨txInfo, res'⟩, -, hrun⟩ := bind_eq_ok.mp hrun
  dsimp only at hrun
  split at hrun
  · cases hrun
    exact hsound
  · cases hrun
    exact hsound

theorem Sound.step (hstep : Step l l') : l'.Sound := by
  cases hstep with
  | reset _ block => exact h.resetState block
  | propose hrun => exact h.proposeBlockTxs hrun
  | apply hrun => exact h.applyBlockTxs hrun
  | correct hrun => exact h.applyBlockTxsForChainCorrection hrun
  | screen hrun => exact h.screenTx hrun
  | prune _ db hdb =>
    exact ⟨h.delivered, h.checked, h.screened, fun root content hroot =>
      h.db root content (hdb root content hroot)⟩

end Steps

theorem Run.sound {genesis : Block} {content : LedgerContent} {l : Ledger}
    (hcontent : content.Bootstrapped) (h : Run genesis content l) : l.Sound := by
  induction h with
  | refl =>
    refine ⟨hcontent, hcontent, hcontent, fun root c hroot => ?_⟩
    change (if _ then some content else none) = some c at hroot
    split at hroot
    · cases hroot
      exact hcontent
    · cases hroot
  | tail _ hstep ih => exact ih.step hstep

section Screening

variable {cfg : LedgerConfig} {g : RegularTxGas} {l : Ledger}

theorem gasOfSend_ne_zero (hg : g.Priced) (pos : Position) (tx : SendTx) :
    gasOfSend g pos tx ≠ 0 := by
  have hgas : 2 ≤ (getRegularTxGas g pos).toNat := by
    unfold getRegularTxGas
    split
    · exact UInt64.le_iff_toNat_le.mp hg.before
    · exact UInt64.le_iff_toNat_le.mp hg.after
  have hlt := (getRegularTxGas g pos).toNat_lt
  have htwice : (2 * (getRegularTxGas g pos / 2)).toNat =
      2 * ((getRegularTxGas g pos).toNat / 2) := by
    rw [UInt64.toNat_mul, UInt64.toNat_div]
    exact Nat.mod_eq_of_lt (by show 2 * (_ / 2) < _; omega)
  intro hzero
  unfold gasOfSend at hzero
  dsimp only at hzero
  split at hzero
  · rw [hzero] at htwice
    change 0 = _ at htwice
    omega
  next hle =>
    rw [hzero, UInt64.not_lt, UInt64.le_iff_toNat_le, htwice] at hle
    change _ ≤ 0 at hle
    omega

theorem exists_getTxInfo (hg : g.Priced) (pos pos' : Position) {view : StoreView} {tx : Tx}
    (htx : tx.NonNil) {x : Executor} (hcheck : x.sanityCheck pos' view tx = .ok ()) :
    ∃ info, getTxInfo g pos tx = .ok info := by
  obtain ⟨_, -, hcheck⟩ := bind_eq_ok.mp hcheck
  cases tx with
  | send tx =>
    obtain ⟨fee, hfee⟩ := Option.isSome_iff_exists.mp htx
    have hprice : effectiveGasPriceOfSend g pos tx =
        some (fee / (gasOfSend g pos tx).toNat) := by
      rw [effectiveGasPriceOfSend, hfee, Option.bind_eq_bind, Option.bind_some,
        if_neg (gasOfSend_ne_zero hg pos tx)]
    obtain ⟨_, -, hcheck⟩ := bind_eq_ok.mp hcheck
    obtain ⟨_, -, hcheck⟩ := bind_eq_ok.mp hcheck
    obtain ⟨_, hnonempty, -⟩ := bind_eq_ok.mp hcheck
    have hnonempty := require_eq_ok.mp hnonempty
    cases hinputs : tx.inputs with
    | nil =>
      rw [hinputs] at hnonempty
      cases hnonempty
    | cons input rest =>
      rw [getTxInfo, hinputs, hprice]
      exact ⟨_, rfl⟩
  | coinbase tx => exact ⟨_, rfl⟩
  | subchainValidatorSetUpdate tx => exact ⟨_, rfl⟩
  | smartContract tx => exact ⟨_, rfl⟩
  | depositStake forValidator => exact ⟨_, rfl⟩
  | withdrawStake forValidator => exact ⟨_, rfl⟩

theorem screenTx_update {rawTx : Bytes} {update : SubchainValidatorSetUpdateTx}
    (h : txFromBytes cfg.exec.codec rawTx = some (.subchainValidatorSetUpdate update)) :
    l.screenTx cfg g rawTx = .error .panic := by
  rw [screenTx, h]
  rfl

theorem exists_screenTx (hl : l.Sound) (hcfg : cfg.exec.Equipped)
    (hbanks : ∀ t, (cfg.exec.getTokenBankContractAddress t).isSome) (hg : g.Priced)
    {rawTx : Bytes} (hkind : ∀ update,
      txFromBytes cfg.exec.codec rawTx ≠ some (.subchainValidatorSetUpdate update)) :
    ∃ l' info res, l.screenTx cfg g rawTx = .ok (l', info, res) := by
  unfold screenTx
  split
  · exact ⟨_, _, _, rfl⟩
  next tx htx =>
  split
  · exact ⟨_, _, _, rfl⟩
  next hskip =>
  obtain ⟨hnil, hencode⟩ := hcfg.codec rawTx tx htx
  have hidle : cfg.exec.idle.Equipped :=
    ⟨hcfg.lib, hcfg.chainID, hcfg.params, hcfg.fuel, hcfg.codec⟩
  have hregular : isSpecial tx = false := by
    cases tx with
    | coinbase tx => exact absurd rfl hskip
    | subchainValidatorSetUpdate tx => exact absurd htx (hkind tx)
    | _ => rfl
  obtain ⟨out, hout⟩ : ∃ out, cfg.exec.idle.processTx (l.idlePosition cfg) .screened l.screened
      tx = .ok out := by
    refine exists_processTx hidle hbanks hl.screened (hcfg.chainID _ _) hnil hencode ?_
    rw [hregular]
    exact nofun
  rw [hout]
  show ∃ l' info res, (if out.result.isError then _ else _) = _
  split
  · exact ⟨_, _, _, rfl⟩
  next hok =>
  obtain ⟨_, rfl, -⟩ | ⟨hcheck, -⟩ := processTx_cases hout
  · exact absurd rfl hok
  obtain ⟨⟨info, res⟩, hinfo⟩ := exists_getTxInfo hg
    (idlePosition cfg { l with screened := out.view }) _ hnil hcheck
  rw [hinfo]
  show ∃ l' info' res', (if Result.isError res then _ else _) = _
  split
  · exact ⟨_, _, _, rfl⟩
  · exact ⟨_, _, _, rfl⟩

end Screening

theorem screenTx_returns_iff {genesis : Block} {content : LedgerContent}
    (hvalidators : content.validatorSet.isSome)
    (hbanks : ∀ t, (content.getTokenBankContractAddress t).isSome) {l : Ledger}
    (hrun : Run genesis content l) (cfg : LedgerConfig) (hcfg : cfg.exec.Equipped)
    (hroot : cfg.exec.getTokenBankContractAddress = content.getTokenBankContractAddress)
    {g : RegularTxGas} (hg : g.Priced) (rawTx : Bytes) :
    (∃ l' info res, l.screenTx cfg g rawTx = .ok (l', info, res)) ↔
      ∀ update, txFromBytes cfg.exec.codec rawTx ≠ some (.subchainValidatorSetUpdate update) := by
  constructor
  · rintro ⟨l', info, res, h⟩ update hupdate
    rw [screenTx_update hupdate] at h
    cases h
  · intro hkind
    have hl : l.Sound := hrun.sound ⟨hvalidators, hbanks .tfuel⟩
    refine exists_screenTx hl hcfg (fun t => ?_) hg hkind
    rw [hroot]
    exact hbanks t

/-! ## A validator set update from a client -/

def bankedContent : LedgerContent :=
  { genesisContent with
    account := sendView.store.account
    tfuelTokenBank := some 21
    tnt20TokenBank := some 22
    tnt721TokenBank := some 23
    tnt1155TokenBank := some 24 }

def screeningConfig : LedgerConfig :=
  { sampleConfig (fun _ => none) [] with
    exec :=
      { plainExecutor [sampleCoinbase, sampleUpdate, .send sampleSend] (fun _ => none)
          ⟨0, [⟨7, 10⟩]⟩ with
        lib := strictTxLibrary
        fuel := Vm.constantinopleParams.enoughFuel
        getTokenBankContractAddress := bankedContent.getTokenBankContractAddress } }

def sampleTxGas : RegularTxGas := ⟨10000, 20000, 0⟩

theorem equipped_screeningConfig : screeningConfig.exec.Equipped where
  lib := lawful_strictTxLibrary
  chainID := by
    intro id height
    show (0 : Int) ≤ 360777
    decide
  params := Vm.charges_constantinople
  fuel := le_rfl
  codec := by
    intro raw tx htx
    refine ⟨?_, isSome_encode_of_txFromBytes htx⟩
    have hmem := mem_of_txFromBytes htx
    simp only [List.mem_cons, List.not_mem_nil, or_false] at hmem
    obtain rfl | rfl | rfl := hmem
    · trivial
    · trivial
    · rfl

theorem bankedContent_banks (t : TokenType) :
    (bankedContent.getTokenBankContractAddress t).isSome := by
  cases t <;> rfl

theorem screened_update_panics :
    bankedContent.validatorSet.isSome ∧
      (∀ t, (bankedContent.getTokenBankContractAddress t).isSome) ∧
      screeningConfig.exec.Equipped ∧ sampleTxGas.Priced ∧
      Run genesisBlock bankedContent (atGenesis genesisBlock bankedContent) ∧
      (atGenesis genesisBlock bankedContent).screenTx screeningConfig sampleTxGas [1] =
        .error .panic :=
  ⟨rfl, bankedContent_banks, equipped_screeningConfig, ⟨by decide, by decide⟩, .refl,
    screenTx_update rfl⟩

theorem screenTx_returns_iff_payment :
    (∃ l' info res, (atGenesis genesisBlock bankedContent).screenTx screeningConfig sampleTxGas
      [2] = .ok (l', info, res)) ∧
    ((atGenesis genesisBlock bankedContent).screenTx screeningConfig sampleTxGas [2]).map
      (·.2) = .ok (some ⟨1, 1, some 0⟩, .ok) := by
  refine ⟨(screenTx_returns_iff rfl bankedContent_banks .refl screeningConfig
    equipped_screeningConfig rfl ⟨by decide, by decide⟩ [2]).mpr fun update heq => ?_,
    by decide⟩
  cases heq

end Ledger

end ThetaSubchain
