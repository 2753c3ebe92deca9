/-
The chain behind a snapshot: a sequence of blocks, each executed on the state of the one before it.

No transaction ever writes the list of the heights of validator updates.
-/
import ThetaSubchain.Snapshot.File

namespace ThetaSubchain

open Ending Option
open ValidatorSelection (filterValidators dynasty_filterValidators)

namespace Ledger

variable {cfg : LedgerConfig} {block : Block}

theorem executeTxs_updateTxHeights {raws : List Bytes} {l l' : Ledger} {flag flag' : Bool}
    (h : executeTxs cfg block l flag raws = .ok (l', .ok flag')) :
    l'.delivered.store.updateTxHeights = l.delivered.store.updateTxHeights := by
  refine (executeTxs_spec
    (P := fun t => t.delivered.store.updateTxHeights = l.delivered.store.updateTxHeights) ?_ h rfl).1
  intro l₁ tx l₂ res hl₁ hstep
  obtain ⟨out, hout, -, rfl⟩ := processTx_eq_ok hstep
  exact (congrArg Prod.snd (Executor.fixed_processTx hout)).trans hl₁

theorem applyBlockTxs_updateTxHeights {l l' : Ledger} {update : Option Bool}
    (h : l.applyBlockTxs cfg block = .ok (l', .ok, update)) :
    l'.delivered.store.updateTxHeights = l.delivered.store.updateTxHeights := by
  obtain ⟨l₁, flag, hexec, -, rfl⟩ := applyBlockTxs_eq_ok h
  show l₁.delivered.store.updateTxHeights = _
  exact executeTxs_updateTxHeights hexec

end Ledger

def UpdateTxIn (codec : TxCodec) (raws : List Bytes) : Prop :=
  ∃ raw ∈ raws, ∃ tx, txFromBytes codec raw = some (.subchainValidatorSetUpdate tx)

structure History (cfg : SnapshotConfig) (codec : TxCodec) (n : ℕ) (block : ℕ → Block)
    (content : ℕ → LedgerContent) : Prop where
  genesisHeight : (block 0).header.height = genesisBlockHeight
  genesisHash : cfg.hash (block 0).header = cfg.genesisHash
  validators : ((content 0).validatorSet).isSome
  updateTxHeights : (content 0).updateTxHeights = some [genesisBlockHeight]
  link : ∀ k < n, (block (k + 1)).header.parent = cfg.hash (block k).header
  height : ∀ k < n, (block (k + 1)).header.height.toNat = (block k).header.height.toNat + 1
  executed : ∀ k < n, ∃ ledger l l' update,
    ledger.exec.codec = codec ∧
      Ledger.applyBlockTxs ledger l (block (k + 1)) = .ok (l', .ok, update) ∧
      l.delivered.store = content k ∧ l'.delivered.store = content (k + 1)

namespace History

variable {cfg : SnapshotConfig} {codec : TxCodec} {n : ℕ} {block : ℕ → Block}
  {content : ℕ → LedgerContent}

variable {k : ℕ}

variable (h : History cfg codec n block content)
include h

theorem height_eq (hk : k ≤ n) : (block k).header.height.toNat = k := by
  induction k with
  | zero =>
    rw [h.genesisHeight]
    rfl
  | succ k ih =>
    have hstep := h.height k (by omega)
    have hbefore := ih (by omega)
    omega

theorem updateTxHeights_eq (hk : k ≤ n) :
    (content k).updateTxHeights = some [genesisBlockHeight] := by
  induction k with
  | zero => exact h.updateTxHeights
  | succ k ih =>
    obtain ⟨ledger, l, l', update, -, happly, hl, hl'⟩ := h.executed k (by omega)
    rw [← hl', Ledger.applyBlockTxs_updateTxHeights happly, hl]
    exact ih (by omega)

omit h

def LaterSet (c c' : LedgerContent) : Prop :=
  ∃ vs vs', c.validatorSet = some vs ∧ c'.validatorSet = some vs' ∧ vs.dynasty < vs'.dynasty

include h

theorem step_validatorSet (hk : k < n) :
    (UpdateTxIn codec (block (k + 1)).txs → LaterSet (content k) (content (k + 1))) ∧
      (¬ UpdateTxIn codec (block (k + 1)).txs →
        (content (k + 1)).validatorSet = (content k).validatorSet) := by
  obtain ⟨ledger, l, l', update, hcodec, happly, hl, hl'⟩ := h.executed k hk
  obtain ⟨-, hchanged⟩ := Ledger.applyBlockTxs_validatorSet happly
  have hiff : Ledger.HasUpdateTx ledger (block (k + 1)).txs ↔
      UpdateTxIn codec (block (k + 1)).txs := by
    rw [← hcodec]
    rfl
  have hold : l.delivered.getValidatorSet = (content k).validatorSet :=
    congrArg LedgerContent.validatorSet hl
  have hnew : l'.delivered.getValidatorSet = (content (k + 1)).validatorSet :=
    congrArg LedgerContent.validatorSet hl'
  rw [hiff] at hchanged
  constructor
  · intro hupdate
    obtain ⟨e, e', he, he', hlt⟩ := Ledger.applyBlockTxs_later happly (hchanged.2 hupdate)
    obtain ⟨vs, hvs, hd⟩ := map_eq_some_iff.1 he
    obtain ⟨vs', hvs', hd'⟩ := map_eq_some_iff.1 he'
    refine ⟨vs, vs', hold.symm.trans hvs, hnew.symm.trans hvs', ?_⟩
    omega
  · intro hnone
    have hsame := not_not.1 fun hne => hnone (hchanged.1 hne)
    rw [← hnew, hsame, hold]

omit h

def NoUpdate (codec : TxCodec) (block : ℕ → Block) (k : ℕ) : Prop :=
  ∀ i < k, ¬ UpdateTxIn codec (block (i + 1)).txs

include h

theorem validatorSet_cases (hk : k ≤ n) :
    (NoUpdate codec block k ∧ (content k).validatorSet = (content 0).validatorSet) ∨
      (¬ NoUpdate codec block k ∧ LaterSet (content 0) (content k)) := by
  induction k with
  | zero => exact .inl ⟨fun i hi => absurd hi (Nat.not_lt_zero i), rfl⟩
  | succ k ih =>
    obtain ⟨hlater, hsame⟩ := h.step_validatorSet (k := k) (by omega)
    by_cases hupdate : UpdateTxIn codec (block (k + 1)).txs
    · refine .inr ⟨fun hno => hno k (by omega) hupdate, ?_⟩
      obtain ⟨vs, vs', hvs, hvs', hlt⟩ := hlater hupdate
      rcases ih (by omega) with ⟨-, heq⟩ | ⟨-, ws, ws', hws, hws', hlt'⟩
      · exact ⟨vs, vs', heq.symm.trans hvs, hvs', hlt⟩
      · rw [hvs, some.injEq] at hws'
        rw [← hws'] at hlt'
        exact ⟨ws, vs', hws, hvs', by omega⟩
    · have heq := hsame hupdate
      rcases ih (by omega) with ⟨hno, hset⟩ | ⟨hyes, ws, ws', hws, hws', hlt⟩
      · refine .inl ⟨fun i hi => ?_, heq.trans hset⟩
        by_cases hlast : i = k
        · rw [hlast]
          exact hupdate
        · exact hno i (by omega)
      · exact .inr ⟨fun hno => hyes fun i hi => hno i (by omega),
          ws, ws', hws, heq.trans hws', hlt⟩

theorem exists_validatorSet (hk : k ≤ n) : ∃ vs, (content k).validatorSet = some vs := by
  rcases h.validatorSet_cases hk with ⟨-, heq⟩ | ⟨-, -, vs, -, hvs, -⟩
  · rw [heq]
    exact isSome_iff_exists.1 h.validators
  · exact ⟨vs, hvs⟩

theorem filterValidators_eq_iff (hk : k ≤ n)
    {vs vs' : ValidatorSet} (hvs : (content 0).validatorSet = some vs)
    (hvs' : (content k).validatorSet = some vs') :
    filterValidators vs = filterValidators vs' ↔ NoUpdate codec block k := by
  rcases h.validatorSet_cases hk with ⟨hno, heq⟩ | ⟨hyes, ws, ws', hws, hws', hlt⟩
  · rw [hvs, hvs', some.injEq] at heq
    rw [heq]
    exact ⟨fun _ => hno, fun _ => rfl⟩
  · refine ⟨fun heq => ?_, fun hno => absurd hno hyes⟩
    have hdyn := congrArg ValidatorSet.dynasty heq
    rw [dynasty_filterValidators, dynasty_filterValidators] at hdyn
    rw [hvs, some.injEq] at hws
    rw [hvs', some.injEq] at hws'
    rw [hws, hws'] at hdyn
    omega

end History

end ThetaSubchain
