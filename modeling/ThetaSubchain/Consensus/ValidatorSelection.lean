/-
The validators of a block (consensus/validator.go, GetFinalizedValidatorSet of ledger/ledger.go).

The voters of a block are read from the state two HCC links back, and its proposer is drawn from
the state one HCC link back from its parent.
-/
import ThetaSubchain.Consensus.ValidatorUpdate
import ThetaSubchain.Lib.BackPointers

namespace ThetaSubchain

open Durable BackPointers ExtendedBlock Chain Option

namespace ValidatorSelection

variable (d : Store) (db : Hash → Option LedgerContent)

/-- The validators recorded in the state of a block.  The outer `none` is the panic on a
state that cannot be loaded, the inner one a state without validators. -/
def atState (block : ExtendedBlock) : Option (Except String (Option ValidatorSet)) :=
  (db block.header.stateHash).map fun content =>
    .ok (StoreView.getValidatorSet { height := block.header.height, store := content })

def finalizedLoop : Nat → Hash → Option (Except String (Option ValidatorSet))
  | 0, blockHash =>
    match Chain.findBlock d blockHash with
    | none => some (.error "Failed to find block for VS: %v, err: %v")
    | some block => atState db block
  | i + 1, blockHash =>
    match Chain.findBlock d blockHash with
    | none => some (.error "Failed to find block for VS: %v, err: %v")
    | some block =>
      if block.header.hcc.blockHash.isEmpty || block.status.isTrusted then atState db block
      else finalizedLoop i block.header.hcc.blockHash

variable (blockHash : Hash)

def getFinalizedValidatorSet (isNext : Bool) :
    Option (Except String (Option ValidatorSet)) :=
  finalizedLoop d db (if isNext then 1 else 2) blockHash

def filterValidators (vs : ValidatorSet) : ValidatorSet :=
  vs.validators.foldl (fun s v => if v.stake = 0 then s else s.addValidator v) (.new vs.dynasty)

/-- `none` is a panic. -/
def selectValidatorsForBlock (isNext : Bool) : Option ValidatorSet :=
  match getFinalizedValidatorSet d db blockHash isNext with
  | some (.ok (some vs)) => some (filterValidators vs)
  | _ => none

def getValidatorSet : Option ValidatorSet :=
  selectValidatorsForBlock d db blockHash false

def getNextValidatorSet : Option ValidatorSet :=
  selectValidatorsForBlock d db blockHash true

variable {d db}

theorem dynasty_filterValidators (vs : ValidatorSet) :
    (filterValidators vs).dynasty = vs.dynasty := by
  have hfold : ∀ (l : List Validator) (s : ValidatorSet),
      (l.foldl (fun s v => if v.stake = 0 then s else s.addValidator v) s).dynasty =
        s.dynasty := by
    intro l
    induction l with
    | nil => intro s; rfl
    | cons v l ih =>
      intro s
      rw [List.foldl_cons, ih]
      by_cases h0 : v.stake = 0
      · rw [if_pos h0]
      · rw [if_neg h0]
        rfl
  exact hfold vs.validators _

end ValidatorSelection

open ValidatorSelection

def recordedSet (db : Hash → Option LedgerContent) (eb : ExtendedBlock) : Option ValidatorSet :=
  (db eb.header.stateHash).bind LedgerContent.validatorSet

/-- The block at position `k + 1` passed `validateBlock`, in a store that held the chain up to
it with the marks it has. -/
def Passed (nd : Node) (c : ℕ → ExtendedBlock) (k : ℕ) : Prop :=
  ∃ a d low parent, d.block 0 = none ∧
    (∀ i ≤ k + 1, ∃ eb, d.block (nd.cfg.hash (c i).header) = some eb ∧ eb.block = (c i).block ∧
      (i ≤ k → eb.hasValidatorUpdate = (c i).hasValidatorUpdate)) ∧
    d.block (c (k + 1)).header.parent = some parent ∧
    Engine.validateBlock nd a d low (c (k + 1)).block parent = some .ok

/-- A chain from the genesis block `c 0` to `c n` whose blocks were validated and executed,
and are marked exactly if they changed the validators. -/
structure ValidatedChain (nd : Node) (d : Store) (db : Hash → Option LedgerContent) (n : ℕ)
    (c : ℕ → ExtendedBlock) : Prop where
  noEmpty : d.block 0 = none
  stored : ∀ k ≤ n, d.block (nd.cfg.hash (c k).header) = some (c k)
  untrusted : ∀ k ≤ n, (c k).status ≠ .trusted
  genesis : (c 0).header.parent = 0 ∧ (c 0).header.hcc.blockHash = 0
  link : ∀ k < n, (c (k + 1)).header.parent = nd.cfg.hash (c k).header
  acyclic : ∀ k ≤ n, (c k).header.hcc.blockHash ≠ nd.cfg.hash (c k).header
  passed : ∀ k < n, Passed nd c k
  known : ∀ k ≤ n, ∃ vs, recordedSet db (c k) = some vs
  executed : ∀ k < n, ∃ cfg l l' update,
    Ledger.applyBlockTxs cfg l (c (k + 1)).block = .ok (l', .ok, update) ∧
      l.delivered.getValidatorSet = recordedSet db (c k) ∧
      l'.delivered.getValidatorSet = recordedSet db (c (k + 1))
  marked : ∀ k < n, (c (k + 1)).hasValidatorUpdate = true ↔
    recordedSet db (c (k + 1)) ≠ recordedSet db (c k)

def ChangesSet (db : Hash → Option LedgerContent) (c : ℕ → ExtendedBlock) : ℕ → Prop
  | 0 => False
  | v + 1 => recordedSet db (c (v + 1)) ≠ recordedSet db (c v)

/-- The HCC of the block after position `k` is a block that changed the validators, or an
ancestor of one, and the HCC of the block at `k` is a proper descendant of it. -/
def RetreatsPastChange (nd : Node) (db : Hash → Option LedgerContent) (c : ℕ → ExtendedBlock)
    (k : ℕ) : Prop :=
  ∃ i j u, (c (k + 1)).header.hcc.blockHash = nd.cfg.hash (c i).header ∧
    (c k).header.hcc.blockHash = nd.cfg.hash (c j).header ∧
    ChangesSet db c u ∧ i ≤ u ∧ u < j ∧ j ≤ k

section Validation

variable {nd : Node} {a : Answers} {d : Store}

theorem direct_of_accepted (hccOK : Bool) {block : Block} {parent : ExtendedBlock} {res : Result}
    (h : (if !hccOK then pure (.error "Invalid HCC")
      else if parent.hasValidatorUpdate && block.header.hcc.blockHash ≠ block.header.parent then
        pure (.error "HCC incorrect: parent has validator changes")
      else if parent.header.parent.isEmpty then pure .ok
      else match findBlock d parent.header.parent with
        | none => pure (.error "Grandparent not found")
        | some grandParent =>
          if grandParent.hasValidatorUpdate && block.header.hcc.blockHash ≠ block.header.parent
          then pure (.error "HCC incorrect: grandparent has validator changes")
          else pure .ok : Option Result) = some res) (hok : res.isError = false) :
    (parent.hasValidatorUpdate = true → block.header.hcc.blockHash = block.header.parent) ∧
      (parent.header.parent.isEmpty = false → ∃ gp, d.block parent.header.parent = some gp ∧
        (gp.hasValidatorUpdate = true → block.header.hcc.blockHash = block.header.parent)) := by
  have herr : ∀ {m : String}, some (Result.error m) = some res → False := by
    intro m hm
    cases hm
    cases hok
  split at h
  · exact (herr h).elim
  split at h
  · exact (herr h).elim
  next hparent =>
  constructor
  · intro hmark
    by_contra hne
    exact hparent (by simp [hmark, hne])
  · intro hempty
    rw [if_neg (by simp [hempty])] at h
    cases hgp : findBlock d parent.header.parent with
    | none =>
      rw [hgp] at h
      exact (herr h).elim
    | some gp =>
      refine ⟨gp, hgp, ?_⟩
      intro hmark
      by_contra hne
      rw [hgp] at h
      dsimp only at h
      rw [if_pos (by simp [hmark, hne])] at h
      exact herr h

theorem validateHCC_cases {block : Block} {parent : ExtendedBlock} {res : Result}
    (h : Engine.validateHCC nd a d block parent = some res) (hok : res.isError = false) :
    isDescendant d block.header.hcc.blockHash (nd.cfg.hash block.header) = true ∧
      (parent.hasValidatorUpdate = true → block.header.hcc.blockHash = block.header.parent) ∧
      (parent.header.parent.isEmpty = false → ∃ gp, d.block parent.header.parent = some gp ∧
        (gp.hasValidatorUpdate = true → block.header.hcc.blockHash = block.header.parent)) := by
  unfold Engine.validateHCC at h
  split at h
  · cases h
    cases hok
  next hdesc =>
  refine ⟨by simpa using hdesc, ?_⟩
  split at h
  · cases h
    cases hok
  next hb _ =>
  by_cases hfin : hb.status.isFinalized
  · rw [if_pos hfin] at h
    exact direct_of_accepted true h hok
  · rw [if_neg hfin] at h
    cases hvs : a.getValidatorSet block.header.hcc.blockHash with
    | none =>
      rw [hvs] at h
      cases h
    | some vs =>
      rw [hvs] at h
      exact direct_of_accepted (block.header.hcc.isValid nd.verify a.order vs) h hok

end Validation

theorem isDescendantLoop_chain {nd : Node} {d : Store} {c : ℕ → ExtendedBlock} {x : Hash}
    (hempty : d.block 0 = none) (hgenesis : (c 0).header.parent = 0) {fuel j : ℕ}
    (hstored : ∀ i ≤ j, ∃ eb, d.block (nd.cfg.hash (c i).header) = some eb ∧
      eb.block = (c i).block)
    (hlink : ∀ i < j, (c (i + 1)).header.parent = nd.cfg.hash (c i).header)
    (h : isDescendantLoop d x fuel (nd.cfg.hash (c j).header) = true) :
    x = 0 ∨ ∃ i ≤ j, x = nd.cfg.hash (c i).header := by
  induction fuel generalizing j with
  | zero => cases h
  | succ fuel ih =>
    rw [isDescendantLoop] at h
    by_cases hx : nd.cfg.hash (c j).header = x
    · exact .inr ⟨j, le_refl _, hx.symm⟩
    · obtain ⟨eb, heb, hblock⟩ := hstored j (le_refl _)
      rw [if_neg hx] at h
      simp only [findBlock, heb, header, hblock] at h
      cases j with
      | zero =>
        -- the parent of the genesis block is the empty hash, which is not stored
        rw [show (c 0).block.header.parent = 0 from hgenesis] at h
        cases fuel with
        | zero => cases h
        | succ fuel =>
          rw [isDescendantLoop] at h
          by_cases hx0 : (0 : Hash) = x
          · exact .inl hx0.symm
          · rw [if_neg hx0] at h
            simp only [findBlock, hempty] at h
            cases h
      | succ j =>
        rw [show (c (j + 1)).block.header.parent = _ from hlink j (by omega)] at h
        rcases ih (fun i hi => hstored i (by omega)) (fun i hi => hlink i (by omega)) h with
          h0 | ⟨i, hi, hxi⟩
        · exact .inl h0
        · exact .inr ⟨i, by omega, hxi⟩

namespace ValidatedChain

variable {nd : Node} {d : Store} {db : Hash → Option LedgerContent} {n : ℕ}
  {c : ℕ → ExtendedBlock}

variable {k : ℕ}

variable (hc : ValidatedChain nd d db n c)
include hc

theorem passed_cases (hk : k < n) :
    (c (k + 1)).header.height.toNat = (c k).header.height.toNat + 1 ∧
      (∃ i ≤ k, (c (k + 1)).header.hcc.blockHash = nd.cfg.hash (c i).header) ∧
      ((c k).hasValidatorUpdate = true →
        (c (k + 1)).header.hcc.blockHash = nd.cfg.hash (c k).header) ∧
      (∀ j, k = j + 1 → (c j).hasValidatorUpdate = true →
        (c (k + 1)).header.hcc.blockHash = nd.cfg.hash (c k).header) := by
  obtain ⟨a, dk, low, parent, hempty, hstored, hparent, hval⟩ := hc.passed k hk
  obtain ⟨-, -, hheight, r, hr, hrok⟩ := validateBlock_cases hval rfl
  obtain ⟨-, -, -, hb, hhb, -⟩ := validateBlock_ok hval rfl
  obtain ⟨hdesc, hfirst, hsecond⟩ := validateHCC_cases hr hrok
  obtain ⟨pb, hpb, hpblock, hpmark⟩ := hstored k (by omega)
  have hlink : (c (k + 1)).header.parent = nd.cfg.hash (c k).header := hc.link k hk
  rw [hlink, hpb, some.injEq] at hparent
  subst hparent
  have hnonempty : ∀ i ≤ k + 1, nd.cfg.hash (c i).header ≠ 0 := by
    intro i hi h0
    obtain ⟨eb, heb, -⟩ := hstored i hi
    rw [h0, hempty] at heb
    cases heb
  refine ⟨?_, ?_, ?_, ?_⟩
  · rw [header, hheight, header, header, hpblock]
  · rcases isDescendantLoop_chain hempty hc.genesis.1
      (fun i hi => (hstored i hi).imp fun eb heb => ⟨heb.1, heb.2.1⟩)
      (fun i hi => hc.link i (by omega)) hdesc with h0 | ⟨i, hi, hx⟩
    · rw [h0, hempty] at hhb
      cases hhb
    · refine ⟨i, ?_, hx⟩
      have hself : i ≠ k + 1 := by
        intro heq
        rw [heq] at hx
        exact hc.acyclic (k + 1) (by omega) hx
      omega
  · intro hmark
    rw [← hlink]
    exact hfirst ((hpmark (by omega)).trans hmark)
  · intro j hj hmark
    rw [← hlink]
    have hgrand : pb.header.parent = nd.cfg.hash (c j).header := by
      rw [header, hpblock, hj]
      exact hc.link j (by omega)
    obtain ⟨gp, hgp, hdirect⟩ := hsecond (by
      rw [hgrand]
      simpa [Hash.isEmpty] using hnonempty j (by omega))
    obtain ⟨eb, heb, -, hemark⟩ := hstored j (by omega)
    rw [hgrand, heb, some.injEq] at hgp
    rw [← hgp] at hdirect
    exact hdirect ((hemark (by omega)).trans hmark)

theorem height_eq (hk : k ≤ n) : (c k).header.height.toNat = (c 0).header.height.toNat + k := by
  induction k with
  | zero => rfl
  | succ k ih =>
    have hstep := (hc.passed_cases (k := k) (by omega)).1
    have hbefore := ih (by omega)
    omega

theorem position_inj {i j : ℕ} (hi : i ≤ n) (hj : j ≤ n)
    (h : nd.cfg.hash (c i).header = nd.cfg.hash (c j).header) : i = j := by
  have hsame : c i = c j := by
    have hstored := hc.stored i hi
    rw [h, hc.stored j hj, some.injEq] at hstored
    exact hstored.symm
  have hheight := hc.height_eq hi
  rw [hsame, hc.height_eq hj] at hheight
  omega

omit hc

/-- The HCC of each block as a position; that of the genesis block is read as its own. -/
structure Pointers (nd : Node) (n : ℕ) (c : ℕ → ExtendedBlock) (h : ℕ → ℕ) : Prop where
  origin : h 0 = 0
  back : ∀ k < n, h (k + 1) ≤ k
  points : ∀ k < n, (c (k + 1)).header.hcc.blockHash = nd.cfg.hash (c (h (k + 1))).header

variable {h : ℕ → ℕ}

include hc

theorem exists_pointers : ∃ h, Pointers nd n c h := by
  have hex : ∀ k, ∃ i, k < n →
      i ≤ k ∧ (c (k + 1)).header.hcc.blockHash = nd.cfg.hash (c i).header := by
    intro k
    by_cases hk : k < n
    · obtain ⟨-, ⟨i, hi, hx⟩, -⟩ := hc.passed_cases hk
      exact ⟨i, fun _ => ⟨hi, hx⟩⟩
    · exact ⟨0, fun hlt => absurd hlt hk⟩
  choose f hf using hex
  refine ⟨fun k => if k = 0 then 0 else f (k - 1), rfl, ?_, ?_⟩
  · intro k hk
    exact (hf k hk).1
  · intro k hk
    exact (hf k hk).2

omit hc

theorem Pointers.le (hp : Pointers nd n c h) (hk : k ≤ n) : h k ≤ n := by
  cases k with
  | zero =>
    rw [hp.origin]
    omega
  | succ k =>
    have := hp.back k (by omega)
    omega

include hc

theorem pointer_eq (hp : Pointers nd n c h) {k i : ℕ} (hk : k < n) (hi : i ≤ n)
    (hx : (c (k + 1)).header.hcc.blockHash = nd.cfg.hash (c i).header) : h (k + 1) = i :=
  hc.position_inj (hp.le (by omega)) hi ((hp.points k hk).symm.trans hx)

theorem direct (hp : Pointers nd n c h) : Direct h (ChangesSet db c) n where
  origin := hp.origin
  back := hp.back
  first u hu hun := by
    cases u with
    | zero => exact hu.elim
    | succ v =>
      have hmark := (hc.marked v (by omega)).mpr hu
      exact hc.pointer_eq hp (by omega) (by omega) ((hc.passed_cases (by omega)).2.2.1 hmark)
  second u hu hun := by
    cases u with
    | zero => exact hu.elim
    | succ v =>
      have hmark := (hc.marked v (by omega)).mpr hu
      exact hc.pointer_eq hp (by omega) (by omega)
        ((hc.passed_cases (k := v + 2) (by omega)).2.2.2 (v + 1) rfl hmark)

omit hc

def dynastyAt (db : Hash → Option LedgerContent) (c : ℕ → ExtendedBlock) (k : ℕ) : ℤ :=
  ((recordedSet db (c k)).map ValidatorSet.dynasty).getD 0

include hc

theorem levels : Levels (dynastyAt db c) (ChangesSet db c) n where
  origin := id
  up k hk hne := by
    obtain ⟨cfg, l, l', update, happly, hl, hl'⟩ := hc.executed k hk
    have hchanged : l'.delivered.getValidatorSet ≠ l.delivered.getValidatorSet := by
      rw [hl, hl']
      exact hne
    obtain ⟨e, e', he, he', hlt⟩ := Ledger.applyBlockTxs_later happly hchanged
    have hold : (recordedSet db (c k)).map ValidatorSet.dynasty = some e := hl ▸ he
    have hnew : (recordedSet db (c (k + 1))).map ValidatorSet.dynasty = some e' := hl' ▸ he'
    rw [dynastyAt, dynastyAt, hold, hnew]
    exact hlt
  same k hk hno := by
    have heq : recordedSet db (c (k + 1)) = recordedSet db (c k) := not_not.1 hno
    rw [dynastyAt, dynastyAt, heq]

theorem recordedSet_eq {i j : ℕ} (hi : i ≤ n) (hj : j ≤ n)
    (h : dynastyAt db c i = dynastyAt db c j) : recordedSet db (c i) = recordedSet db (c j) := by
  wlog hij : i ≤ j generalizing i j
  · exact (this hj hi h.symm (by omega)).symm
  induction j with
  | zero =>
    have hi0 : i = 0 := by omega
    rw [hi0]
  | succ j ih =>
    by_cases hlast : i = j + 1
    · rw [hlast]
    · by_cases hch : ChangesSet db c (j + 1)
      · have := hc.levels.lt_of_rises hch (i := i) (by omega) (le_refl _) hj
        omega
      · have hsame := hc.levels.same j (by omega) hch
        rw [ih (by omega) (by omega) (by omega)]
        exact (not_not.1 hch).symm

theorem finalizedLoop_eq (hp : Pointers nd n c h) (i : ℕ) (hk : k ≤ n) :
    finalizedLoop d db i (nd.cfg.hash (c k).header) =
      some (.ok (recordedSet db (c (h^[i] k)))) := by
  have hstate : ∀ k ≤ n, atState db (c k) = some (.ok (recordedSet db (c k))) := by
    intro k hk
    obtain ⟨vs, hvs⟩ := hc.known k hk
    obtain ⟨content, hcontent, -⟩ := bind_eq_some_iff.1 hvs
    rw [atState, recordedSet, hcontent]
    rfl
  induction i generalizing k with
  | zero =>
    rw [finalizedLoop, findBlock, hc.stored k hk]
    exact hstate k hk
  | succ i ih =>
    rw [finalizedLoop, findBlock, hc.stored k hk, Function.iterate_succ_apply]
    dsimp only
    cases k with
    | zero =>
      -- the loop ends at the genesis block, whatever is left of it
      have hiter : h^[i] (h 0) = 0 := by
        rw [hp.origin]
        exact Function.iterate_fixed hp.origin i
      rw [hiter, if_pos (by simp [hc.genesis.2, Hash.isEmpty])]
      exact hstate 0 hk
    | succ k =>
      have hpoint := hp.points k (by omega)
      have hnonempty : (c (k + 1)).header.hcc.blockHash.isEmpty = false := by
        have hne : nd.cfg.hash (c (h (k + 1))).header ≠ 0 := by
          intro h0
          have hstored := hc.stored _ (hp.le hk)
          rw [h0, hc.noEmpty] at hstored
          cases hstored
        rw [hpoint]
        simpa [Hash.isEmpty] using hne
      have huntrusted : (c (k + 1)).status.isTrusted = false := by
        have := hc.untrusted (k + 1) hk
        cases hst : (c (k + 1)).status <;> simp_all [BlockStatus.isTrusted]
      rw [if_neg (by simp [hnonempty, huntrusted]), hpoint]
      exact ih (hp.le hk)

theorem selectValidatorsForBlock_eq (hp : Pointers nd n c h) (hk : k ≤ n) :
    getValidatorSet d db (nd.cfg.hash (c k).header) =
        (recordedSet db (c (h (h k)))).map filterValidators ∧
      getNextValidatorSet d db (nd.cfg.hash (c k).header) =
        (recordedSet db (c (h k))).map filterValidators := by
  have hselect : ∀ j, selectValidatorsForBlock d db (nd.cfg.hash (c k).header) j =
      (recordedSet db (c (h^[if j then 1 else 2] k))).map filterValidators := by
    intro j
    rw [selectValidatorsForBlock, getFinalizedValidatorSet, hc.finalizedLoop_eq hp _ hk]
    cases recordedSet db (c (h^[if j then 1 else 2] k)) <;> rfl
  exact ⟨hselect false, hselect true⟩

end ValidatedChain

/-- Along a chain of validated blocks, the votes that commit a block are those of the
validators its proposer was drawn from, exactly if no HCC retreats past a change of the
validators. -/
theorem voters_eq_proposers_iff {nd : Node} {d : Store} {db : Hash → Option LedgerContent} {n : ℕ}
    {c : ℕ → ExtendedBlock} (hc : ValidatedChain nd d db n c) :
    (∀ k < n, ∃ vs, getValidatorSet d db (nd.cfg.hash (c (k + 1)).header) = some vs ∧
      getNextValidatorSet d db (c (k + 1)).header.parent = some vs) ↔
    ∀ k < n, ¬ RetreatsPastChange nd db c k := by
  obtain ⟨h, hp⟩ := hc.exists_pointers
  -- both sides in terms of positions
  have hretreat : ∀ k < n, RetreatsPastChange nd db c k ↔ Retreats h (ChangesSet db c) k := by
    intro k hk
    constructor
    · intro hret
      obtain ⟨i, j, u, hi, hj, hu, hiu, huj, hjk⟩ := hret
      have hhi := hc.pointer_eq hp hk (by omega) hi
      have hhj : h k = j := by
        cases k with
        | zero => omega
        | succ k => exact hc.pointer_eq hp (by omega) (by omega) hj
      exact ⟨u, hu, by omega, by omega⟩
    · intro hret
      obtain ⟨u, hu, hle, hlt⟩ := hret
      cases k with
      | zero =>
        rw [hp.origin] at hlt
        omega
      | succ k =>
        have hback := hp.back k (by omega)
        exact ⟨h (k + 2), h (k + 1), u, hp.points (k + 1) hk, hp.points k (by omega), hu, hle, hlt,
          by omega⟩
  have hsets : ∀ k < n, (∃ vs, getValidatorSet d db (nd.cfg.hash (c (k + 1)).header) = some vs ∧
      getNextValidatorSet d db (c (k + 1)).header.parent = some vs) ↔
      ValidatedChain.dynastyAt db c (h (h (k + 1))) = ValidatedChain.dynastyAt db c (h k) := by
    intro k hk
    have hvoters := (hc.selectValidatorsForBlock_eq hp (k := k + 1) (by omega)).1
    have hproposers := (hc.selectValidatorsForBlock_eq hp (k := k) (by omega)).2
    have hfar : h (h (k + 1)) ≤ n := hp.le (hp.le (by omega))
    have hnear : h k ≤ n := hp.le (by omega)
    obtain ⟨vs, hvs⟩ := hc.known _ hfar
    obtain ⟨ws, hws⟩ := hc.known _ hnear
    rw [hc.link k hk, hvoters, hproposers, hvs, hws]
    constructor
    · intro heq
      obtain ⟨x, hx, hy⟩ := heq
      have hfilter : filterValidators vs = filterValidators ws := by
        rw [map_some, some.injEq] at hx hy
        rw [hx, hy]
      have hdyn := congrArg ValidatorSet.dynasty hfilter
      rw [dynasty_filterValidators, dynasty_filterValidators] at hdyn
      rw [ValidatedChain.dynastyAt, ValidatedChain.dynastyAt, hvs, hws]
      exact hdyn
    · intro hdyn
      have hsame := hc.recordedSet_eq hfar hnear hdyn
      rw [hvs, hws, some.injEq] at hsame
      exact ⟨filterValidators vs, rfl, by rw [hsame]; rfl⟩
  have hmain := (hc.direct hp).level_eq_iff hc.levels
  constructor
  · intro heq k hk hret
    exact hmain.mp (fun i hi => (hsets i hi).mp (heq i hi)) k hk ((hretreat k hk).mp hret)
  · intro hnone k hk
    exact (hsets k hk).mpr (hmain.mpr (fun i hi hret => hnone i hi ((hretreat i hi).mpr hret)) k hk)

/-! ### A chain whose last block goes back to the genesis block -/

def afterUpdate (height : UInt64) (parent : Hash) (hcc : CommitCertificate) (proposer : Address) :
    Block :=
  ⟨{ Ledger.genesisHeader with
      epoch := height, height := height, parent := parent, hcc := hcc, stateHash := 2
      timestamp := some (height.toNat + 10), proposer := proposer }, []⟩

def certificateOf (block : Block) : CommitCertificate :=
  ⟨some (VoteSet.empty.addVote
    ⟨updateNode.cfg.hash block.header, block.header.height, 0, block.header.epoch, 7,
      some ⟨[1]⟩⟩), updateNode.cfg.hash block.header⟩

def confirmation₁ : Block :=
  afterUpdate 2 (updateNode.cfg.hash updateBlock.header) (certificateOf updateBlock) 7

def confirmation₂ : Block :=
  afterUpdate 3 (updateNode.cfg.hash confirmation₁.header) (certificateOf confirmation₁) 9

def retreatingBlock : Block :=
  afterUpdate 4 (updateNode.cfg.hash confirmation₂.header) ⟨some .empty, 1⟩ 9

def selectionChain : ℕ → ExtendedBlock
  | 0 => ⟨Ledger.genesisBlock, [], .directlyFinalized, false⟩
  | 1 => ⟨updateBlock, [], .valid, true⟩
  | 2 => ⟨confirmation₁, [], .valid, false⟩
  | 3 => ⟨confirmation₂, [], .valid, false⟩
  | _ => ⟨retreatingBlock, [], .valid, false⟩

def selectionStore : Store :=
  { Store.empty with
    block := fun h => ((List.range 5).map selectionChain).find? fun eb =>
      updateNode.cfg.hash eb.header = h }

def selectionAnswers : Answers :=
  { sampleAnswers 20 with
    getValidatorSet := getValidatorSet selectionStore updatedLedger.db
    getNextValidatorSet := getNextValidatorSet selectionStore updatedLedger.db
    getNextProposer := fun h _ =>
      (getNextValidatorSet selectionStore updatedLedger.db h).bind fun vs => vs.validators.head? }

theorem executed_selection {k : ℕ} (hk : k < 4) : ∃ cfg l l' update,
    Ledger.applyBlockTxs cfg l (selectionChain (k + 1)).block = .ok (l', .ok, update) ∧
      l.delivered.getValidatorSet = recordedSet updatedLedger.db (selectionChain k) ∧
      l'.delivered.getValidatorSet = recordedSet updatedLedger.db (selectionChain (k + 1)) := by
  match k, hk with
  | 0, _ => exact ⟨updateConfig, updateLedger, _, _, rfl, by decide, by decide⟩
  | 1, _ => exact ⟨updateConfig, updatedLedger, _, _, rfl, by decide, by decide⟩
  | 2, _ => exact ⟨updateConfig, updatedLedger, _, _, rfl, by decide, by decide⟩
  | 3, _ => exact ⟨updateConfig, updatedLedger, _, _, rfl, by decide, by decide⟩

theorem validatedChain_selection {n : ℕ} (hn : n ≤ 4) :
    ValidatedChain updateNode selectionStore updatedLedger.db n selectionChain := by
  have hstored : ∀ k ≤ 4, selectionStore.block (updateNode.cfg.hash (selectionChain k).header) =
      some (selectionChain k) := by decide +kernel
  have hlink : ∀ k < 4, (selectionChain (k + 1)).header.parent =
      updateNode.cfg.hash (selectionChain k).header := by decide
  have hval : ∀ k < 4, Engine.validateBlock updateNode selectionAnswers selectionStore 0
      (selectionChain (k + 1)).block (selectionChain k) = some .ok := by decide
  have huntrusted : ∀ k ≤ 4, (selectionChain k).status ≠ .trusted := by decide
  have hacyclic : ∀ k ≤ 4, (selectionChain k).header.hcc.blockHash ≠
      updateNode.cfg.hash (selectionChain k).header := by decide
  have hknown : ∀ k ≤ 4, (recordedSet updatedLedger.db (selectionChain k)).isSome := by
    decide
  have hmarked : ∀ k < 4, (selectionChain (k + 1)).hasValidatorUpdate = true ↔
      recordedSet updatedLedger.db (selectionChain (k + 1)) ≠
        recordedSet updatedLedger.db (selectionChain k) := by decide
  constructor
  · decide
  · exact fun k hk => hstored k (by omega)
  · exact fun k hk => huntrusted k (by omega)
  · decide
  · exact fun k hk => hlink k (by omega)
  · exact fun k hk => hacyclic k (by omega)
  · intro k hk
    refine ⟨selectionAnswers, selectionStore, 0, selectionChain k, by decide, ?_, ?_,
      hval k (by omega)⟩
    · exact fun i hi => ⟨_, hstored i (by omega), rfl, fun _ => rfl⟩
    · rw [hlink k (by omega)]
      exact hstored k (by omega)
  · exact fun k hk => isSome_iff_exists.1 (hknown k (by omega))
  · exact fun k hk => executed_selection (by omega)
  · exact fun k hk => hmarked k (by omega)

theorem voters_eq_proposers_iff_confirmed :
    ValidatedChain updateNode selectionStore updatedLedger.db 3 selectionChain ∧
      ∀ k < 3, ∃ vs,
        getValidatorSet selectionStore updatedLedger.db
          (updateNode.cfg.hash (selectionChain (k + 1)).header) = some vs ∧
        getNextValidatorSet selectionStore updatedLedger.db
          (selectionChain (k + 1)).header.parent = some vs := by
  have hc := validatedChain_selection (n := 3) (by omega)
  refine ⟨hc, (voters_eq_proposers_iff hc).mpr ?_⟩
  intro k hk hret
  obtain ⟨i, j, u, hi, hj, -, hiu, huj, hjk⟩ := hret
  -- every block of this part has its parent as its HCC
  have hdirect : ∀ k < 3, ∀ i ≤ k, (selectionChain (k + 1)).header.hcc.blockHash =
      updateNode.cfg.hash (selectionChain i).header → i = k := by decide
  have hik := hdirect k hk i (by omega) hi
  omega

/-- The last block passes `validateBlock`.  It is proposed by the validator 9 of the new set,
and the votes that commit it are those of the validator 7 of the old set. -/
theorem voters_differ_from_proposers :
    ValidatedChain updateNode selectionStore updatedLedger.db 4 selectionChain ∧
      getValidatorSet selectionStore updatedLedger.db
        (updateNode.cfg.hash retreatingBlock.header) = some ⟨0, [⟨7, 10⟩]⟩ ∧
      getNextValidatorSet selectionStore updatedLedger.db retreatingBlock.header.parent =
        some ⟨1, [⟨9, 5⟩]⟩ :=
  ⟨validatedChain_selection (le_refl 4), by decide, by decide⟩

end ThetaSubchain
