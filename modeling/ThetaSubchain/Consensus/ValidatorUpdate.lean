/-
The flag for blocks that change the validator set.

`ApplyBlockTxs` reports a validator update for stake transactions only, and no transaction of this
chain is one.
-/
import ThetaSubchain.Consensus.BlockChange
import ThetaSubchain.Consensus.Finality
import ThetaSubchain.Ledger.Propose

namespace ThetaSubchain

open Durable EngineConf Ending ValidatorSet
open Vm (Halt)

/-! ## What a transaction does to the validators -/

namespace StoreView

def Later (sv sv' : StoreView) : Prop :=
  ∃ d d', sv.getDynasty = some d ∧ sv'.getDynasty = some d' ∧ d < d'

variable {u v w : StoreView}

theorem Later.ne (h : Later v w) : w.getValidatorSet ≠ v.getValidatorSet := by
  obtain ⟨d, d', hd, hd', hlt⟩ := h
  intro heq
  have hdyn : w.getDynasty = v.getDynasty := congrArg (Option.map dynasty) heq
  rw [hd, hd', Option.some.injEq] at hdyn
  omega

theorem Later.trans (h₁ : Later u v) (h₂ : Later v w) : Later u w := by
  obtain ⟨d, e, hd, he, hlt⟩ := h₁
  obtain ⟨e', f, he', hf, hlt'⟩ := h₂
  rw [he, Option.some.injEq] at he'
  exact ⟨d, f, hd, hf, by omega⟩

theorem Later.congr_left (h : Later v w) (huv : v.getValidatorSet = u.getValidatorSet) :
    Later u w := by
  obtain ⟨d, d', hd, hd', hlt⟩ := h
  exact ⟨d, d', (congrArg (Option.map dynasty) huv).symm.trans hd, hd', hlt⟩

theorem Later.congr_right (h : Later u v) (hvw : w.getValidatorSet = v.getValidatorSet) :
    Later u w := by
  obtain ⟨d, d', hd, hd', hlt⟩ := h
  exact ⟨d, d', hd, (congrArg (Option.map dynasty) hvw).trans hd', hlt⟩

end StoreView

namespace Executor

variable {x : Executor} {pos : Position} {sel : ViewSelector} {view : StoreView}

theorem dynasty_newValidatorSet (tx : SubchainValidatorSetUpdateTx) :
    (newValidatorSet tx).dynasty = tx.dynasty := by
  have hfold : ∀ (vs : List Validator) (s : ValidatorSet),
      (vs.foldl addValidator s).dynasty = s.dynasty := by
    intro vs
    induction vs with
    | nil => intro s; rfl
    | cons v vs ih => intro s; exact ih _
  exact hfold tx.validators _

def isValidatorSetUpdate : Tx → Bool
  | .subchainValidatorSetUpdate _ => true
  | _ => false

theorem validatorSet_processTx {tx : Tx} {out : Outcome}
    (h : x.processTx pos sel view tx = .ok out) (hok : out.result.isOK) :
    if isValidatorSetUpdate tx then view.Later out.view
    else out.view.getValidatorSet = view.getValidatorSet := by
  cases txOutcome h with
  | refused => cases hok
  | coinbase => rfl
  | @update tx _ _ h =>
    cases h with
    | installed _ hd hlt =>
      exact ⟨_, tx.dynasty, hd, congrArg some (dynasty_newValidatorSet tx), hlt⟩
    | _ => cases hok
  | send h => exact StoreView.validatorSet_eq_of_system h.system
  | contract _ hexec h => exact StoreView.validatorSet_eq_of_system (system_contract hexec h)

end Executor

/-! ## What a block does to the validators -/

namespace Ledger

variable {cfg : LedgerConfig} {block : Block}

def HasUpdateTx (cfg : LedgerConfig) (raws : List Bytes) : Prop :=
  ∃ raw ∈ raws, ∃ tx, txFromBytes cfg.exec.codec raw = some (.subchainValidatorSetUpdate tx)

variable {l l' : Ledger}

theorem executeTxs_validatorSet {raws : List Bytes} {flag flag' : Bool}
    (h : executeTxs cfg block l flag raws = .ok (l', .ok flag')) :
    flag' = flag ∧
      (HasUpdateTx cfg raws → l.delivered.Later l'.delivered) ∧
      (¬ HasUpdateTx cfg raws →
        l'.delivered.getValidatorSet = l.delivered.getValidatorSet) := by
  induction raws generalizing l flag with
  | nil =>
    cases h
    refine ⟨rfl, ?_, fun _ => rfl⟩
    intro hupdate
    obtain ⟨raw, hraw, -⟩ := hupdate
    cases hraw
  | cons raw rest ih =>
    obtain ⟨tx, l₁, htx, hstep, h⟩ := executeTxs_cons_eq_ok.1 h
    obtain ⟨out, hout, hres, rfl⟩ := processTx_eq_ok hstep
    have hok : out.result.isOK := by
      rw [← hres]
      rfl
    have hstake : isValidatorStake tx = false := by
      have := isSubchainTx_of_txFromBytes htx
      cases tx <;> first | rfl | cases this
    obtain ⟨hflag, hlater, hsame⟩ := ih h
    have hhead := Executor.validatorSet_processTx hout hok
    have hcons : HasUpdateTx cfg (raw :: rest) ↔
        Executor.isValidatorSetUpdate tx ∨ HasUpdateTx cfg rest := by
      simp only [HasUpdateTx, List.mem_cons, exists_eq_or_imp, htx, Option.some.injEq]
      refine or_congr ?_ Iff.rfl
      cases tx <;> simp [Executor.isValidatorSetUpdate]
    refine ⟨by rw [hflag, hstake, Bool.or_false], ?_, ?_⟩
    · intro hupdate
      by_cases hu : Executor.isValidatorSetUpdate tx
      · rw [if_pos hu] at hhead
        by_cases hrest : HasUpdateTx cfg rest
        · exact hhead.trans (hlater hrest)
        · exact hhead.congr_right (hsame hrest)
      · rw [if_neg hu] at hhead
        exact (hlater ((hcons.mp hupdate).resolve_left hu)).congr_left hhead
    · intro hnone
      rw [hcons, not_or] at hnone
      rw [if_neg hnone.1] at hhead
      exact (hsame hnone.2).trans hhead

theorem applyBlockTxs_validatorSet {update : Option Bool}
    (h : l.applyBlockTxs cfg block = .ok (l', .ok, update)) :
    update = some false ∧
      (l'.delivered.getValidatorSet ≠ l.delivered.getValidatorSet ↔
        HasUpdateTx cfg block.txs) := by
  obtain ⟨l₁, flag, hexec, hupdate, rfl⟩ := applyBlockTxs_eq_ok h
  obtain ⟨hflag, hlater, hsame⟩ := executeTxs_validatorSet hexec
  have hset : (l₁.commit cfg).delivered.getValidatorSet = l₁.delivered.getValidatorSet := rfl
  rw [hflag] at hupdate
  refine ⟨hupdate, ?_⟩
  rw [hset]
  constructor
  · intro hne
    by_contra hnone
    exact hne (hsame hnone)
  · intro hupdate
    exact (hlater hupdate).ne

theorem applyBlockTxs_later {update : Option Bool}
    (h : l.applyBlockTxs cfg block = .ok (l', .ok, update))
    (hne : l'.delivered.getValidatorSet ≠ l.delivered.getValidatorSet) :
    l.delivered.Later l'.delivered := by
  obtain ⟨l₁, flag, hexec, -, rfl⟩ := applyBlockTxs_eq_ok h
  obtain ⟨-, hlater, -⟩ := executeTxs_validatorSet hexec
  exact (hlater ((applyBlockTxs_validatorSet h).2.mp hne)).congr_right rfl

end Ledger

def AppliesByLedger (a : Answers) : Prop :=
  ∀ block update, a.applyBlockTxs block = (.ok, update) →
    ∃ cfg l l', Ledger.applyBlockTxs cfg l block = .ok (l', .ok, update)

/-- No block above the root is marked, and the valid ones were applied by a ledger. -/
structure AppliedBlocks (nd : Node) (s : EngineConf) : Prop where
  unmarked : ∀ h eb, s.disk.block h = some eb → Recent nd s.disk eb → h ≠ nd.cfg.root →
    eb.hasValidatorUpdate = false
  applied : ∀ h eb, s.disk.block h = some eb → Recent nd s.disk eb → h ≠ nd.cfg.root →
    eb.status.isValid → ∃ cfg l l' update,
      Ledger.applyBlockTxs cfg l eb.block = .ok (l', .ok, update)

variable {nd : Node} {a : Answers} {inp : Inputs} {s s' : EngineConf}

theorem BlockChange.unmarked {eb eb' : ExtendedBlock} (h : BlockChange a eb eb')
    (ha : AppliesByLedger a) (hflag : eb.hasValidatorUpdate = false) :
    eb'.hasValidatorUpdate = false := by
  cases h with
  | update hpending happly =>
    obtain ⟨cfg, l, l', hl⟩ := ha _ _ happly
    have := (Ledger.applyBlockTxs_validatorSet hl).1
    cases this
  | _ => exact hflag

theorem BlockChange.applied {eb eb' : ExtendedBlock} (h : BlockChange a eb eb')
    (ha : AppliesByLedger a) (hv : eb'.status.isValid) :
    eb.status.isValid ∨ ∃ cfg l l' update,
      Ledger.applyBlockTxs cfg l eb.block = .ok (l', .ok, update) := by
  cases h with
  | link children => exact .inl hv
  | invalid hpending => cases hv
  | update hpending happly => exact .inl hv
  | valid hpending happly =>
    obtain ⟨update, happly, -⟩ := happly
    obtain ⟨cfg, l, l', hl⟩ := ha _ _ happly
    exact .inr ⟨cfg, l, l', update, hl⟩
  | commit hvalid =>
    left
    rw [hvalid]
    rfl
  | finalize st hvalid hst => exact .inl hvalid

theorem AppliedBlocks.storeStep (h : AppliedBlocks nd s) (hw : WellFormed nd s)
    (ha : AppliesByLedger a) (hs : StoreStep a s.disk s'.disk) : AppliedBlocks nd s' := by
  obtain ⟨rb, hr, -⟩ := hw.root
  have hrecent : ∀ {x y : ExtendedBlock}, y.block = x.block → Recent nd s'.disk y →
      Recent nd s.disk x := by
    intro x y hxy hy
    rw [Recent, rootHeight_grows hs.grows hr, ExtendedBlock.header, hxy] at hy
    exact hy
  constructor
  · intro x eb' hb' hrec hne
    rcases hs x with heq | ⟨-, b, children, hnew⟩ | ⟨eb, eb'', hb, hb'', hchange⟩
    · exact h.unmarked x eb' (heq.symm.trans hb') (hrecent rfl hrec) hne
    · rw [hnew, Option.some.injEq] at hb'
      rw [← hb']
    · rw [hb'', Option.some.injEq] at hb'
      subst hb'
      exact hchange.unmarked ha (h.unmarked x eb hb (hrecent hchange.block_eq hrec) hne)
  · intro x eb' hb' hrec hne hv
    rcases hs x with heq | ⟨-, b, children, hnew⟩ | ⟨eb, eb'', hb, hb'', hchange⟩
    · exact h.applied x eb' (heq.symm.trans hb') (hrecent rfl hrec) hne hv
    · rw [hnew, Option.some.injEq] at hb'
      rw [← hb'] at hv
      cases hv
    · rw [hb'', Option.some.injEq] at hb'
      subst hb'
      rw [hchange.block_eq]
      rcases hchange.applied ha hv with hold | happlied
      · exact h.applied x eb hb (hrecent hchange.block_eq hrec) hne hold
      · exact happlied

theorem closed_appliedBlocks (ha : AppliesByLedger a) :
    Closed nd a ⟨Set.univ, Set.univ⟩ (AppliedBlocks nd) (fun _ => True)
      (Kept nd (AppliedBlocks nd)) where
  effect hw h he := ⟨h.storeStep hw ha he.storeStep, trivial⟩
  mid hw h he := h.storeStep hw ha he.storeStep
  keep hw h := ⟨_, hw, h⟩

theorem Fresh.appliedBlocks {d : Store} (hd : Fresh nd d) :
    AppliedBlocks nd ⟨Engine.new nd.cfg d, d, []⟩ := by
  constructor
  · intro h eb hb hrec hne
    exact absurd hrec (hd.older h eb hb hne).1
  · intro h eb hb hrec hne
    exact absurd hrec (hd.older h eb hb hne).1

/-- Every block that `validateBlock` accepts as a child or a grandchild of the block has its
parent as its HCC. -/
def DirectlyConfirmed (nd : Node) (d : Store) (h : Hash) : Prop :=
  ∀ a low block parent, d.block block.header.parent = some parent →
    Engine.validateBlock nd a d low block parent = some .ok →
    block.header.parent = h ∨ parent.header.parent = h →
    block.header.hcc.blockHash = block.header.parent

/-- In every store that a node can reach, a block that was marked valid has been applied.  Its
mark says whether that changed the validators, and then two direct confirmations are
enforced, exactly if none of its transactions is a validator set update. -/
theorem marked_iff_no_update_tx {d : Store} {m : Machine Engine Store Output} (hd : Fresh nd d)
    (hrun : NodeRun nd (fun _ a _ => AppliesByLedger a) (fun _ _ => True) d m) {h : Hash}
    {eb : ExtendedBlock} (hb : m.disk.block h = some eb) (hrec : Recent nd m.disk eb)
    (hvalid : eb.status.isValid) (hne : h ≠ nd.cfg.root) :
    (∃ cfg l l' update, Ledger.applyBlockTxs cfg l eb.block = .ok (l', .ok, update)) ∧
    ∀ cfg l l' update, Ledger.applyBlockTxs cfg l eb.block = .ok (l', .ok, update) →
      (((eb.hasValidatorUpdate = true ↔
          l'.delivered.getValidatorSet ≠ l.delivered.getValidatorSet) ∧
        (l'.delivered.getValidatorSet ≠ l.delivered.getValidatorSet →
          DirectlyConfirmed nd m.disk h)) ↔
        ¬ Ledger.HasUpdateTx cfg eb.block.txs) := by
  obtain ⟨e, -, hinv⟩ := nodeRun_invariant hd (fun _ a _ ha => closed_appliedBlocks ha)
    (fun s a act _ => ⟨Set.subset_univ _, Set.subset_univ _⟩) hd.appliedBlocks trivial
    (fun s _ h _ => ⟨h.unmarked, h.applied⟩) hrun
  have hflag : eb.hasValidatorUpdate = false := hinv.unmarked h eb hb hrec hne
  refine ⟨hinv.applied h eb hb hrec hne hvalid, ?_⟩
  intro cfg l l' update happly
  have hchanged := (Ledger.applyBlockTxs_validatorSet happly).2
  rw [hchanged, hflag]
  constructor
  · intro hmark hupdate
    exact absurd (hmark.1.mpr hupdate) Bool.false_ne_true
  · intro hnone
    exact ⟨⟨fun hfalse => absurd hfalse Bool.false_ne_true, fun hupdate => absurd hupdate hnone⟩,
      fun hupdate => absurd hupdate hnone⟩

def updateNode : Node :=
  { sampleNode with
    cfg := {
      hash := fun h => BitVec.ofNat 256 (h.height.toNat * 2 ^ 64 + h.timestamp.getD 0 + 1)
      chainID := [1], root := 1, fuel := 10 } }

def updateBlock : Block :=
  ⟨{ Ledger.genesisHeader with
      epoch := 1, height := 1, parent := 1, hcc := ⟨some .empty, 1⟩, stateHash := 2
      timestamp := some 10 }, [[0], [1]]⟩

def updateChild : Block :=
  ⟨{ Ledger.genesisHeader with
      epoch := 2, height := 2, parent := updateNode.cfg.hash updateBlock.header
      hcc := ⟨some .empty, 1⟩, stateHash := 2, timestamp := some 11 }, []⟩

def updateConfig : LedgerConfig :=
  { Ledger.sampleConfig (fun _ => some ⟨1, [⟨9, 5⟩]⟩) [] with
    blockHash := updateNode.cfg.hash
    findBlock := fun h => some (if h = 1 then Ledger.genesisBlock else updateBlock) }

def updateLedger : Ledger := (Ledger.sampleLedger.resetState Ledger.genesisBlock).1

def updatedLedger : Ledger :=
  match updateLedger.applyBlockTxs updateConfig updateBlock with
  | .ok (l, _) => (l.resetState updateBlock).1
  | .error _ => updateLedger

def ledgerAnswers (l : Ledger) : Answers :=
  { sampleAnswers 12 with
    getValidatorSet := fun _ => some ⟨0, [⟨7, 10⟩]⟩
    getNextValidatorSet := fun _ => some ⟨0, [⟨7, 10⟩]⟩
    getNextProposer := fun _ _ => some ⟨7, 10⟩
    applyBlockTxs := fun block =>
      match l.applyBlockTxs updateConfig block with
      | .ok (_, res, update) => (res, update)
      | .error _ => (.error "", none) }

theorem appliesByLedger_ledgerAnswers (l : Ledger) : AppliesByLedger (ledgerAnswers l) := by
  intro block update h
  change (match l.applyBlockTxs updateConfig block with
    | .ok (_, res, update) => (res, update)
    | .error _ => (.error "", none)) = (Result.ok, update) at h
  cases hl : l.applyBlockTxs updateConfig block with
  | error e =>
    rw [hl] at h
    cases h
  | ok out =>
    obtain ⟨l', res, u⟩ := out
    rw [hl] at h
    cases h
    exact ⟨updateConfig, l, l', hl⟩

def updateState : List (Ledger × Engine.Action) → EngineConf
  | [] => ⟨Engine.new updateNode.cfg (rootStore updateNode Ledger.genesisBlock),
      rootStore updateNode Ledger.genesisBlock, []⟩
  | (l, act) :: acts => ((Engine.step updateNode (ledgerAnswers l) act).run (updateState acts)).2

def updateActions : List (Ledger × Engine.Action) :=
  [(updatedLedger, .block updateChild), (updatedLedger, .addBlock updateChild),
    (updateLedger, .block updateBlock), (updateLedger, .addBlock updateBlock)]

def UpdateRun (acts : List (Ledger × Engine.Action)) : Prop :=
  NodeRun updateNode (fun _ a _ => AppliesByLedger a) (fun _ _ => True)
    (rootStore updateNode Ledger.genesisBlock)
    ⟨some (updateState acts).mem, (updateState acts).disk, (updateState acts).outs⟩

theorem UpdateRun.step {acts : List (Ledger × Engine.Action)} (h : UpdateRun acts) (l : Ledger)
    (act : Engine.Action)
    (hr : ((Engine.step updateNode (ledgerAnswers l) act).run (updateState acts)).1 = some ()) :
    UpdateRun ((l, act) :: acts) :=
  NodeRun.step h _ _ (appliesByLedger_ledgerAnswers l) hr

theorem updateRun_updateActions : UpdateRun updateActions := by
  have hstart : UpdateRun [] := NodeRun.start
  have hblock := (hstart.step updateLedger (.addBlock updateBlock) (by decide)).step
    updateLedger (.block updateBlock) (by decide)
  exact (hblock.step updatedLedger (.addBlock updateChild) (by decide)).step updatedLedger
    (.block updateChild) (by decide)

theorem marked_iff_no_update_tx_child :
    ∃ eb, (updateState updateActions).disk.block (updateNode.cfg.hash updateChild.header) = some eb ∧
      ∃ l', updatedLedger.applyBlockTxs updateConfig eb.block = .ok (l', .ok, some false) ∧
        ((eb.hasValidatorUpdate = true ↔
            l'.delivered.getValidatorSet ≠ updatedLedger.delivered.getValidatorSet) ∧
          (l'.delivered.getValidatorSet ≠ updatedLedger.delivered.getValidatorSet →
            DirectlyConfirmed updateNode (updateState updateActions).disk
              (updateNode.cfg.hash updateChild.header))) := by
  have hstored : ((updateState updateActions).disk.block
      (updateNode.cfg.hash updateChild.header)).map (fun eb => (eb.block, eb.status)) =
        some (updateChild, .valid) := by decide +kernel
  obtain ⟨eb, hb, heb⟩ := Option.map_eq_some_iff.1 hstored
  rw [Prod.mk.injEq] at heb
  have hrec : Recent updateNode (updateState updateActions).disk eb := by
    have hroot : rootHeight updateNode (updateState updateActions).disk = 0 := by decide
    rw [Recent, hroot]
    exact Nat.zero_le _
  have hvalid : eb.status.isValid := by
    rw [heb.2]
    rfl
  have happly : ∃ l', updatedLedger.applyBlockTxs updateConfig updateChild =
      .ok (l', .ok, some false) := ⟨_, rfl⟩
  obtain ⟨l', happly⟩ := happly
  rw [← heb.1] at happly
  refine ⟨eb, hb, l', happly, ?_⟩
  refine ((marked_iff_no_update_tx (fresh_rootStore (by decide)) updateRun_updateActions hb hrec
    hvalid (by decide)).2 updateConfig _ _ _ happly).mpr ?_
  intro hupdate
  obtain ⟨raw, hraw, -⟩ := hupdate
  rw [heb.1] at hraw
  cases hraw

/-- A node applies a block that replaces the validators and marks it valid, but does not mark
the update, and accepts a child whose HCC is not its parent. -/
theorem set_changing_block_not_marked :
    let d := (updateState updateActions).disk
    let h := updateNode.cfg.hash updateBlock.header
    UpdateRun updateActions ∧
      (d.block h).map (fun eb => (eb.block, eb.status, eb.hasValidatorUpdate)) =
        some (updateBlock, .valid, false) ∧
      (∃ l', updateLedger.applyBlockTxs updateConfig updateBlock = .ok (l', .ok, some false) ∧
        updateLedger.delivered.getValidatorSet = some ⟨0, [⟨7, 10⟩]⟩ ∧
        l'.delivered.getValidatorSet = some ⟨1, [⟨9, 5⟩]⟩) ∧
      (d.block (updateNode.cfg.hash updateChild.header)).map (fun eb => (eb.block, eb.status)) =
        some (updateChild, .valid) ∧
      updateChild.header.parent = h ∧ updateChild.header.hcc.blockHash ≠ h := by
  intro d h
  refine ⟨updateRun_updateActions, by decide +kernel, ?_, by decide +kernel, rfl,
    by decide⟩
  exact ⟨_, rfl, by decide, by decide⟩

end ThetaSubchain
