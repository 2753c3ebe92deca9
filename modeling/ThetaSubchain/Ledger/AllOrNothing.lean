/-
A block is applied as a whole or not at all: the ledger goes on to the state of the block in all
three views, or back to the state of the parent.
-/
import ThetaSubchain.Consensus.ValidatorUpdate
import ThetaSubchain.Ledger.Screen

namespace ThetaSubchain

open Ending

namespace Ledger

variable {cfg : LedgerConfig} {block parent : Block} {content : LedgerContent} {l l' : Ledger}

/-- The three views are at the state of the block, one block above its parent, and that state is
stored. -/
structure Advanced (cfg : LedgerConfig) (block parent : Block) (l : Ledger) : Prop where
  saved : ∃ content, l.db block.header.stateHash = some content ∧
    cfg.rootHash content = block.header.stateHash ∧ ∀ sel, (l.view sel).store = content
  height : ∀ sel, (l.view sel).height = parent.header.height + 1

/-- The three views are at the state of the parent, and no special transaction counts as
processed. -/
structure RolledBack (cfg : LedgerConfig) (parent : Block) (l : Ledger) : Prop where
  stored : ∃ content, l.db parent.header.stateHash = some content ∧
    cfg.rootHash content = parent.header.stateHash ∧ ∀ sel, (l.view sel).store = content
  height : ∀ sel, (l.view sel).height = parent.header.height
  coinbase : ∀ sel, (l.view sel).coinbaseTransactinProcessed = false
  update : ∀ sel, (l.view sel).subchainValidatorSetTransactinProcessed = false

theorem rolledBack_resetState (h : l.db parent.header.stateHash = some content)
    (hroot : cfg.rootHash content = parent.header.stateHash) :
    RolledBack cfg parent (l.resetState parent).1 := by
  have heq : (l.resetState parent).1 =
      { l with
        parentBlock := parent
        delivered := { height := parent.header.height, store := content }
        checked := { height := parent.header.height, store := content }
        screened := { height := parent.header.height, store := content } } := by
    rw [resetState, newStoreView, h]
    rfl
  rw [heq]
  refine ⟨⟨content, h, hroot, ?_⟩, ?_, ?_, ?_⟩
  all_goals
    intro sel
    cases sel <;> rfl

theorem advanced_commit (hroot : cfg.rootHash l.delivered.store = block.header.stateHash)
    (hheight : l.delivered.height = parent.header.height) :
    Advanced cfg block parent (l.commit cfg) := by
  refine ⟨⟨l.delivered.store, ?_, hroot, ?_⟩, ?_⟩
  · show Function.update l.db (cfg.rootHash l.delivered.store) _ block.header.stateHash = _
    rw [hroot, Function.update_self]
  · intro sel
    cases sel <;> rfl
  · intro sel
    rw [← hheight]
    cases sel <;> rfl

theorem executeTxs_frame {raws : List Bytes} {flag : Bool} {verdict : Except Result Bool}
    (h : executeTxs cfg block l flag raws = .ok (l', verdict)) :
    l'.db = l.db ∧ l'.delivered.height = l.delivered.height := by
  refine (executeTxs_spec
    (P := fun t => t.db = l.db ∧ t.delivered.height = l.delivered.height) ?_ h ⟨rfl, rfl⟩).1
  intro l₁ tx l₂ res hl₁ hstep
  obtain ⟨out, hout, -, rfl⟩ := processTx_eq_ok hstep
  have hheight : out.view.height = l₁.delivered.height := Executor.height_processTx hout
  exact ⟨hl₁.1, hheight.trans hl₁.2⟩

theorem exists_executeTxs (hx : cfg.exec.Equipped)
    (hbanks : ∀ t, (cfg.exec.getTokenBankContractAddress t).isSome)
    (hvalidators : (cfg.exec.getNextValidatorSet block.header.parent).isSome)
    (hl : l.delivered.store.Bootstrapped) (flag : Bool) (raws : List Bytes) :
    ∃ l' verdict, executeTxs cfg block l flag raws = .ok (l', verdict) := by
  induction raws generalizing l flag with
  | nil => exact ⟨_, _, rfl⟩
  | cons raw rest ih =>
    rw [executeTxs]
    cases htx : txFromBytes cfg.exec.codec raw with
    | none => exact ⟨_, _, rfl⟩
    | some tx =>
      obtain ⟨hnil, hencode⟩ := hx.codec raw tx htx
      obtain ⟨out, hout⟩ : ∃ out, cfg.exec.processTx (l.position cfg block) .delivered
          (l.view .delivered) tx = .ok out :=
        Executor.exists_processTx hx hbanks hl (hx.chainID _ _) hnil hencode fun _ => hvalidators
      dsimp only
      rw [executeTx, processTx, hout]
      show ∃ l' verdict, (if out.result.isError || out.result.isUndecided then _ else _) = _
      split
      · exact ⟨_, _, rfl⟩
      · exact ih (Executor.bootstrapped_processTx hl hout) _

theorem allOrNothing_of_applyBlockTxs (hfind : cfg.findBlock block.header.parent = some parent)
    (hstored : l.db parent.header.stateHash = some content)
    (hroot : cfg.rootHash content = parent.header.stateHash)
    (hheight : l.delivered.height = parent.header.height) {res : Result} {update : Option Bool}
    (h : l.applyBlockTxs cfg block = .ok (l', res, update)) :
    res = .ok ∧ Advanced cfg block parent l' ∨ res ≠ .ok ∧ RolledBack cfg parent l' := by
  unfold applyBlockTxs at h
  rw [hfind] at h
  obtain ⟨⟨l₁, verdict⟩, hexec, h⟩ := bind_eq_ok.mp h
  obtain ⟨hdb, hsame⟩ := executeTxs_frame hexec
  have hback : RolledBack cfg parent (l₁.resetState parent).1 := by
    refine rolledBack_resetState ?_ hroot
    rw [hdb]
    exact hstored
  cases verdict with
  | error res =>
    cases h
    exact .inr ⟨executeTxs_failure_ne_ok hexec, hback⟩
  | ok flag =>
    dsimp only at h
    split at h
    · cases h
      exact .inr ⟨Result.noConfusion, hback⟩
    next hreached =>
      cases h
      exact .inl ⟨rfl, advanced_commit (not_not.mp hreached) (hsame.trans hheight)⟩

theorem exists_applyBlockTxs (hx : cfg.exec.Equipped)
    (hbanks : ∀ t, (cfg.exec.getTokenBankContractAddress t).isSome)
    (hvalidators : (cfg.exec.getNextValidatorSet block.header.parent).isSome)
    (hl : l.delivered.store.Bootstrapped)
    (hfind : cfg.findBlock block.header.parent = some parent) :
    ∃ l' res update, l.applyBlockTxs cfg block = .ok (l', res, update) := by
  obtain ⟨l₁, verdict, hexec⟩ := exists_executeTxs hx hbanks hvalidators hl false block.txs
  unfold applyBlockTxs
  rw [hfind]
  dsimp only
  rw [hexec]
  cases verdict with
  | error res => exact ⟨_, _, _, rfl⟩
  | ok flag =>
    by_cases hroot : cfg.rootHash l₁.delivered.store ≠ block.header.stateHash
    · exact ⟨_, _, _, if_pos hroot⟩
    · exact ⟨_, _, _, if_neg hroot⟩

/-- The first part is about every state of the parent.  The second asks of that state what
every state has that descends from a genesis state with validators and a bank. -/
theorem applyBlockTxs_all_or_nothing (cfg : LedgerConfig) {l₀ l : Ledger} (block : Block)
    {parent : Block} {content : LedgerContent}
    (hfind : cfg.findBlock block.header.parent = some parent)
    (hstored : l₀.db parent.header.stateHash = some content)
    (hroot : cfg.rootHash content = parent.header.stateHash)
    (hreset : l₀.resetState parent = (l, .ok)) :
    (∀ l' res update, l.applyBlockTxs cfg block = .ok (l', res, update) →
      res = .ok ∧ Advanced cfg block parent l' ∨
        (res.isError ∨ res.isUndecided) ∧ RolledBack cfg parent l') ∧
    (content.Bootstrapped → cfg.exec.Equipped →
      (∀ t, (cfg.exec.getTokenBankContractAddress t).isSome) →
      (cfg.exec.getNextValidatorSet block.header.parent).isSome →
      ∃ l' res update, l.applyBlockTxs cfg block = .ok (l', res, update)) := by
  have hl : l = (l₀.resetState parent).1 := (congrArg Prod.fst hreset).symm
  have hview : l.delivered = { height := parent.header.height, store := content } ∧
      l.db = l₀.db := by
    rw [hl, resetState, newStoreView, hstored]
    exact ⟨rfl, rfl⟩
  obtain ⟨hdelivered, hdb⟩ := hview
  constructor
  · intro l' res update h
    obtain hok | ⟨hne, hback⟩ := allOrNothing_of_applyBlockTxs hfind (by rw [hdb]; exact hstored)
      hroot (by rw [hdelivered]) h
    · exact .inl hok
    · refine .inr ⟨?_, hback⟩
      cases res with
      | ok => exact absurd rfl hne
      | error message => exact .inl rfl
      | undecided message => exact .inr rfl
  · intro hcontent hx hbanks hvalidators
    refine exists_applyBlockTxs hx hbanks hvalidators ?_ hfind
    rw [hdelivered]
    exact hcontent

def coinbaseBlock : Block := ⟨{ childHeader with stateHash := 1 }, [[0]]⟩

theorem applyBlockTxs_all_or_nothing_coinbase :
    ∃ l' res update, (atGenesis genesisBlock bankedContent).applyBlockTxs screeningConfig
        coinbaseBlock = .ok (l', res, update) ∧
      (res = .ok ∧ Advanced screeningConfig coinbaseBlock genesisBlock l' ∨
        (res.isError ∨ res.isUndecided) ∧ RolledBack screeningConfig genesisBlock l') := by
  have hreset : (atGenesis genesisBlock bankedContent).resetState genesisBlock =
      (atGenesis genesisBlock bankedContent, .ok) := rfl
  have happly := applyBlockTxs_all_or_nothing screeningConfig coinbaseBlock rfl rfl rfl hreset
  obtain ⟨l', res, update, h⟩ :=
    happly.2 ⟨rfl, rfl⟩ equipped_screeningConfig bankedContent_banks rfl
  exact ⟨l', res, update, h, happly.1 l' res update h⟩

end Ledger

end ThetaSubchain
