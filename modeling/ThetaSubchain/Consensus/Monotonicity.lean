/-
What a node that keeps running never takes back.

The statement compares the states between two messages.  Inside a message the last
finalized block is ahead of the highest CC block for a moment, so the order of the two is
the boundary condition of the effects, and everything else is kept by each effect.
-/
import ThetaSubchain.Consensus.AncestorClosure

namespace ThetaSubchain

open Durable EngineConf Relation.ReflTransGen Option BlockStatus

variable {nd : Node} {a : Answers} {inp : Inputs} {s s' t : EngineConf}

def heightOf (d : Store) (h : Hash) : Option UInt64 := (d.block h).map fun eb => eb.header.height

theorem heightOf_grows {d d' : Store} (hg : d.Grows d') {h : Hash} {n : UInt64}
    (hn : heightOf d h = some n) : heightOf d' h = some n := by
  obtain ⟨eb, hb, rfl⟩ := map_eq_some_iff.1 hn
  obtain ⟨eb', hb', hblock, -, -⟩ := hg h eb hb
  rw [heightOf, hb', map_some, ExtendedBlock.header, hblock]

def FinalizedBelow (s : EngineConf) : Prop :=
  ∃ l c, heightOf s.disk s.mem.state.lastFinalizedBlock = some l ∧
    heightOf s.disk s.mem.state.highestCCBlock = some c ∧ l ≤ c

/-- Nothing that was decided in `s` is taken back in `s'`. -/
structure Keeps (s s' : EngineConf) : Prop where
  grows : s.disk.Grows s'.disk
  finalized : ∀ h eb, s.disk.block h = some eb → eb.status.isFinalized →
    ∃ eb', s'.disk.block h = some eb' ∧ eb'.status.isFinalized
  invalid : ∀ h eb, s.disk.block h = some eb → eb.status = .invalid →
    ∃ eb', s'.disk.block h = some eb' ∧ eb'.status = .invalid
  highestCC : ∀ n, heightOf s.disk s.mem.state.highestCCBlock = some n →
    ∃ n', heightOf s'.disk s'.mem.state.highestCCBlock = some n' ∧ n ≤ n'
  lastFinalized : ∀ n, heightOf s.disk s.mem.state.lastFinalizedBlock = some n →
    ∃ n', heightOf s'.disk s'.mem.state.lastFinalizedBlock = some n' ∧ n ≤ n'

theorem Keeps.refl (s : EngineConf) : Keeps s s :=
  ⟨Store.Grows.refl _, fun _ eb hb hf => ⟨eb, hb, hf⟩, fun _ eb hb hi => ⟨eb, hb, hi⟩,
    fun n hn => ⟨n, hn, UInt64.le_refl _⟩, fun n hn => ⟨n, hn, UInt64.le_refl _⟩⟩

theorem Keeps.trans (h₁ : Keeps s s') (h₂ : Keeps s' t) : Keeps s t := by
  constructor
  · intro h eb hb
    obtain ⟨eb', hb', hblock', hv', hf'⟩ := h₁.grows h eb hb
    obtain ⟨eb'', hb'', hblock'', hv'', hf''⟩ := h₂.grows h eb' hb'
    exact ⟨eb'', hb'', hblock''.trans hblock', hv'' ∘ hv', hf'' ∘ hf'⟩
  · intro h eb hb hf
    obtain ⟨eb', hb', hf'⟩ := h₁.finalized h eb hb hf
    exact h₂.finalized h eb' hb' hf'
  · intro h eb hb hi
    obtain ⟨eb', hb', hi'⟩ := h₁.invalid h eb hb hi
    exact h₂.invalid h eb' hb' hi'
  · intro n hn
    obtain ⟨n', hn', hle⟩ := h₁.highestCC n hn
    obtain ⟨n'', hn'', hle'⟩ := h₂.highestCC n' hn'
    exact ⟨n'', hn'', UInt64.le_trans hle hle'⟩
  · intro n hn
    obtain ⟨n', hn', hle⟩ := h₁.lastFinalized n hn
    obtain ⟨n'', hn'', hle'⟩ := h₂.lastFinalized n' hn'
    exact ⟨n'', hn'', UInt64.le_trans hle hle'⟩

theorem Keeps.of_storeStep (hs : StoreStep a s.disk s'.disk)
    (hcc : ∀ n, heightOf s.disk s.mem.state.highestCCBlock = some n →
      ∃ n', heightOf s'.disk s'.mem.state.highestCCBlock = some n' ∧ n ≤ n')
    (hlf : ∀ n, heightOf s.disk s.mem.state.lastFinalizedBlock = some n →
      ∃ n', heightOf s'.disk s'.mem.state.lastFinalizedBlock = some n' ∧ n ≤ n') : Keeps s s' := by
  refine ⟨hs.grows, ?_, ?_, hcc, hlf⟩
  · intro h eb hb hf
    obtain ⟨eb', hb', -, -, hf'⟩ := hs.grows h eb hb
    exact ⟨eb', hb', hf' hf⟩
  · intro h eb hb hi
    obtain ⟨eb', hb', rfl | hchange⟩ := hs.forward hb
    · exact ⟨eb', hb', hi⟩
    · exact ⟨eb', hb', hchange.stays_invalid hi⟩

theorem Keeps.of_marks (hs : StoreStep a s.disk s'.disk)
    (hcc : s'.mem.state.highestCCBlock = s.mem.state.highestCCBlock)
    (hlf : s'.mem.state.lastFinalizedBlock = s.mem.state.lastFinalizedBlock) : Keeps s s' := by
  refine Keeps.of_storeStep hs ?_ ?_
  · intro n hn
    exact ⟨n, by rw [hcc]; exact heightOf_grows hs.grows hn, UInt64.le_refl _⟩
  · intro n hn
    exact ⟨n, by rw [hlf]; exact heightOf_grows hs.grows hn, UInt64.le_refl _⟩

theorem FinalizedBelow.of_marks (h : FinalizedBelow s) (hs : StoreStep a s.disk s'.disk)
    (hcc : s'.mem.state.highestCCBlock = s.mem.state.highestCCBlock)
    (hlf : s'.mem.state.lastFinalizedBlock = s.mem.state.lastFinalizedBlock) :
    FinalizedBelow s' := by
  obtain ⟨l, c, hl, hc, hle⟩ := h
  refine ⟨l, c, ?_, ?_, hle⟩
  · rw [hlf]
    exact heightOf_grows hs.grows hl
  · rw [hcc]
    exact heightOf_grows hs.grows hc

theorem keeps_setHighestCC (hw : WellFormed nd s) (a : Answers) {h : Hash} {eb H : ExtendedBlock}
    (hJ : FinalizedBelow s ∨ s.mem.state.lastFinalizedBlock = eb.header.parent)
    (hb : s.disk.block h = some eb) (hvalid : eb.status = .valid)
    (hH : s.disk.block s.mem.state.highestCCBlock = some H)
    (hlt : H.header.height < eb.header.height) :
    Keeps s (s.withState nd fun st => { st with highestCCBlock := h }) ∧
      FinalizedBelow (s.withState nd fun st => { st with highestCCBlock := h }) := by
  have hHn : heightOf s.disk s.mem.state.highestCCBlock = some H.header.height := by
    rw [heightOf, hH]
    rfl
  have hbn : heightOf s.disk h = some eb.header.height := by
    rw [heightOf, hb]
    rfl
  constructor
  · refine Keeps.of_storeStep (StoreStep.of_eq rfl : StoreStep a _ _) ?_
      fun n hn => ⟨n, hn, UInt64.le_refl _⟩
    intro n hn
    rw [hHn, some.injEq] at hn
    exact ⟨_, hbn, hn ▸ UInt64.le_of_lt hlt⟩
  · rcases hJ with ⟨l, c, hl, hc, hle⟩ | hpar
    · rw [hHn, some.injEq] at hc
      exact ⟨l, _, hl, hbn, UInt64.le_trans hle (hc ▸ UInt64.le_of_lt hlt)⟩
    · obtain ⟨pb, hp, -, -, hh⟩ := hw.parent h eb hb
        (recent_of_lt (hw.recent_highestCC hH) hlt) (by simp [hvalid, isValid])
        (hw.ne_root hb (by simp [hvalid, isFinalized]))
      refine ⟨pb.header.height, _, ?_, hbn, ?_⟩
      · show heightOf s.disk s.mem.state.lastFinalizedBlock = _
        rw [hpar, heightOf, hp]
        rfl
      · rw [UInt64.le_iff_toNat_le]
        omega

theorem keeps_effect (hw : WellFormed nd s) (he : Effect nd a inp FinalizedBelow s s') :
    Keeps s s' ∧ FinalizedBelow s' := by
  have hs := he.storeStep
  cases he with
  | setHighestCC h eb H hJ hb hvalid hH hlt hmaj hover =>
    exact keeps_setHighestCC hw a hJ hb hvalid hH hlt
  | flags e hJ he =>
    exact ⟨Keeps.of_marks hs (by rw [he]) (by rw [he]), hJ.of_marks hs (by rw [he]) (by rw [he])⟩
  | _ => exact ⟨Keeps.of_marks hs rfl rfl, FinalizedBelow.of_marks (by assumption) hs rfl rfl⟩

theorem keeps_mid (hw : WellFormed nd s) (he : MidEffect nd a FinalizedBelow s s') :
    Keeps s s' := by
  have hs := he.storeStep
  cases he with
  | flags e he => exact Keeps.of_marks hs (by rw [he]) (by rw [he])
  | markFinalized c h eb lb st hc hl hpath hb hvalid hrecent hle hst =>
    exact Keeps.of_marks hs rfl rfl
  | setLastFinalized c p pb hJ hc hp hvalid hrecent =>
    refine Keeps.of_storeStep hs (fun n hn => ⟨n, hn, UInt64.le_refl _⟩) ?_
    intro n hn
    obtain ⟨l, k, hl, hk, hle⟩ := hJ
    obtain ⟨cb, H, hcb, hst, hcp, -, hH, hlt, -⟩ := hc
    obtain ⟨pb', hp', -, -, hh⟩ := hw.parent c cb hcb
      (recent_of_lt (hw.recent_highestCC hH) hlt) (by simp [hst, isValid])
      (hw.ne_root hcb (by simp [hst, isFinalized]))
    rw [hcp, hp, some.injEq] at hp'
    rw [heightOf, hH, map_some, some.injEq] at hk
    rw [hl, some.injEq] at hn
    refine ⟨pb.header.height, ?_, ?_⟩
    · show heightOf s.disk p = _
      rw [heightOf, hp]
      rfl
    · rw [← hn]
      rw [← hk, UInt64.le_iff_toNat_le] at hle
      rw [UInt64.lt_iff_toNat_lt] at hlt
      rw [← hp'] at hh
      rw [UInt64.le_iff_toNat_le]
      omega

theorem closed_keeps (nd : Node) (a : Answers) (inp : Inputs) (s₀ : EngineConf) :
    Closed nd a inp (Keeps s₀) FinalizedBelow (fun _ _ => True) where
  effect hw h he := ⟨h.trans (keeps_effect hw he).1, (keeps_effect hw he).2⟩
  mid hw h he := h.trans (keeps_mid hw he)
  keep _ _ := trivial

variable {digest : Rlp.Item → Hash} {ok : EngineConf → Answers → Engine.Action → Prop}

def Processes (nd : Node) (digest : Rlp.Item → Hash)
    (ok : EngineConf → Answers → Engine.Action → Prop) : EngineConf → EngineConf → Prop :=
  Relation.ReflTransGen fun s s' => ∃ a act, ok s a act ∧
    (Engine.step (nd.under (headerHash digest) a.order) a act).run s = (some (), s')

/-- A state between two messages, with certificates of different voters. -/
def Boundary (nd : Node) (digest : Rlp.Item → Hash) (s : EngineConf) : Prop :=
  ∃ ord, Good (nd.under (headerHash digest) ord) (fun s => s.disk.DistinctVoters) FinalizedBelow s

theorem Boundary.wf (h : Boundary nd digest s) (ord : MapOrder) :
    WellFormed (nd.under (headerHash digest) ord) s := by
  obtain ⟨ord', hg⟩ := h
  exact hg.wf.under fun x eb hb => headerHash_eq (hg.inv x eb hb) ord' ord

theorem Boundary.step (h : Boundary nd digest s) {a : Answers} {act : Engine.Action}
    (hact : BringsDistinct s a act)
    (hr : (Engine.step (nd.under (headerHash digest) a.order) a act).run s = (some (), s')) :
    Keeps s s' ∧ Boundary nd digest s' := by
  have hw := h.wf a.order
  obtain ⟨_, hg⟩ := h
  have hstep := wp_step (closed_keeps _ a ⟨Set.univ, _⟩ s).distinct
    ⟨⟨hw, Keeps.refl s, hg.inv⟩, hg.boundary⟩ act (Set.subset_univ _) hact.added
  have hg' := Proc.wp_run hstep hr
  exact ⟨hg'.inv.1, a.order, ⟨hg'.wf, hg'.inv.2⟩, hg'.boundary⟩

theorem Boundary.processes (h : Boundary nd digest s)
    (hrun : Processes nd digest BringsDistinct s s') : Keeps s s' ∧ Boundary nd digest s' := by
  induction hrun with
  | refl => exact ⟨Keeps.refl s, h⟩
  | tail _ hstep ih =>
    obtain ⟨a, act, hact, hr⟩ := hstep
    obtain ⟨hkeeps, hnext⟩ := ih.2.step hact hr
    exact ⟨ih.1.trans hkeeps, hnext⟩

theorem Fresh.finalizedBelow {d : Store} (hd : Fresh nd d) :
    FinalizedBelow ⟨Engine.new nd.cfg d, d, []⟩ := by
  obtain ⟨rb, hr, -⟩ := hd.root
  have hload : (State.load nd.cfg d).highestCCBlock = nd.cfg.root ∧
      (State.load nd.cfg d).lastFinalizedBlock = nd.cfg.root := by
    simp [State.load, hd.stub]
  refine ⟨rb.header.height, rb.header.height, ?_, ?_, UInt64.le_refl _⟩
  · show heightOf d (State.load nd.cfg d).lastFinalizedBlock = _
    rw [hload.2, heightOf, hr]
    rfl
  · show heightOf d (State.load nd.cfg d).highestCCBlock = _
    rw [hload.1, heightOf, hr]
    rfl

theorem boundary_start {d : Store} (hd : ∃ ord, Fresh (nd.under (headerHash digest) ord) d)
    (hvoters : d.DistinctVoters) : Boundary nd digest ⟨Engine.new nd.cfg d, d, []⟩ := by
  obtain ⟨ord, hd⟩ := hd
  exact ⟨ord, ⟨hd.wellFormed [], hvoters⟩, hd.finalizedBelow⟩

/-- Between any two messages of one node, if no certificate has two votes of one voter, finalized
blocks stay finalized, invalid blocks stay invalid and the two marks never move down, and after
every message the last finalized block is not above the highest CC block. -/
theorem processes_monotone {d : Store} (hd : ∃ ord, Fresh (nd.under (headerHash digest) ord) d)
    (hvoters : d.DistinctVoters)
    (hrun : Processes nd digest BringsDistinct ⟨Engine.new nd.cfg d, d, []⟩ s)
    (hnext : Processes nd digest BringsDistinct s s') :
    (∀ h eb, s.disk.block h = some eb → eb.status.isFinalized →
      ∃ eb', s'.disk.block h = some eb' ∧ eb'.status.isFinalized) ∧
    (∀ h eb, s.disk.block h = some eb → eb.status = .invalid →
      ∃ eb', s'.disk.block h = some eb' ∧ eb'.status = .invalid) ∧
    (∃ c c', heightOf s.disk s.mem.state.highestCCBlock = some c ∧
      heightOf s'.disk s'.mem.state.highestCCBlock = some c' ∧ c ≤ c') ∧
    (∃ l l', heightOf s.disk s.mem.state.lastFinalizedBlock = some l ∧
      heightOf s'.disk s'.mem.state.lastFinalizedBlock = some l' ∧ l ≤ l') ∧
    ∃ l c, heightOf s'.disk s'.mem.state.lastFinalizedBlock = some l ∧
      heightOf s'.disk s'.mem.state.highestCCBlock = some c ∧ l ≤ c := by
  obtain ⟨-, hs⟩ := (boundary_start hd hvoters).processes hrun
  obtain ⟨hkeeps, _, hs'⟩ := hs.processes hnext
  obtain ⟨_, hs⟩ := hs
  obtain ⟨l, c, hl, hc, -⟩ := hs.boundary
  obtain ⟨c', hc', hcle⟩ := hkeeps.highestCC c hc
  obtain ⟨l', hl', hlle⟩ := hkeeps.lastFinalized l hl
  exact ⟨hkeeps.finalized, hkeeps.invalid, ⟨c, c', hc, hc', hcle⟩, ⟨l, l', hl, hl', hlle⟩,
    hs'.boundary⟩

theorem processes_odd {acts : List (MapOrder × Engine.Action)}
    (hok : ∀ p ∈ acts, ∀ s, ok s (oddAnswers p.1) p.2) (hrun : oddRun s acts = some t) :
    Processes oddNode firstVoteDigest ok s t := by
  induction acts generalizing s with
  | nil =>
    cases hrun
    exact refl
  | cons act acts ih =>
    obtain ⟨u, hu, hrest⟩ := bind_eq_some_iff.mp hrun
    obtain ⟨r, hr, rfl⟩ := map_eq_some_iff.mp hu
    exact (ih (fun p hp => hok p (.tail _ hp)) hrest).head
      ⟨oddAnswers act.1, act.2, hok act (.head _) s, Prod.ext hr rfl⟩

/-- The vote for the third block finalizes the second one. -/
theorem processes_monotone_odd :
    ∃ s s', oddRun (oddStart (rootStore oddNode sampleRoot) []) firstBlocks = some s ∧
      oddRun s [(.reverse, .vote (voteFor block₃))] = some s' ∧
      heightOf s.disk s.mem.state.lastFinalizedBlock = some 0 ∧
      heightOf s'.disk s'.mem.state.lastFinalizedBlock = some 2 ∧
      (∃ eb, s'.disk.block 11 = some eb ∧ eb.status.isFinalized) ∧
      ∃ l c, heightOf s'.disk s'.mem.state.lastFinalizedBlock = some l ∧
        heightOf s'.disk s'.mem.state.highestCCBlock = some c ∧ l ≤ c := by
  have heval : ((oddRun (oddStart (rootStore oddNode sampleRoot) []) firstBlocks).bind fun s =>
      (oddRun s [(.reverse, .vote (voteFor block₃))]).map fun s' =>
        (heightOf s.disk s.mem.state.lastFinalizedBlock,
          heightOf s'.disk s'.mem.state.lastFinalizedBlock,
          (s.disk.block 11).map ExtendedBlock.status)) =
      some (some 0, some 2, some .directlyFinalized) := by
    decide
  have hdistinct : ∀ p ∈ firstBlocks, ∀ b ∈ p.2.brought, b.header.DistinctVoters := by
    decide
  obtain ⟨s, hs, hrest⟩ := bind_eq_some_iff.mp heval
  obtain ⟨s', hs', hfacts⟩ := map_eq_some_iff.mp hrest
  obtain ⟨hlow, hfacts⟩ := Prod.mk.inj hfacts
  obtain ⟨hhigh, hroot⟩ := Prod.mk.inj hfacts
  obtain ⟨eb, hb, hst⟩ := map_eq_some_iff.mp hroot
  have hbrought : ∀ p ∈ [(MapOrder.reverse, Engine.Action.vote (voteFor block₃))],
      ∀ s, BringsDistinct s (oddAnswers p.1) p.2 := by
    intro p hp s b hb
    rw [List.mem_singleton.mp hp] at hb
    cases hb
  obtain ⟨hfinal, -, -, -, hbelow⟩ := processes_monotone fresh_odd distinctVoters_odd
    (processes_odd (s := oddStart _ []) (fun p hp _ => hdistinct p hp) hs)
    (processes_odd hbrought hs')
  exact ⟨s, s', hs, hs', hlow, hhigh, hfinal 11 eb hb (by rw [hst]; rfl), hbelow⟩

def refusedBlock : Block :=
  { revotedBlock₁ with header := { revotedBlock₁.header with proposer := 2 } }

def childElsewhere : Block :=
  { childOf refusedBlock sampleRoot with
    header := { (childOf refusedBlock sampleRoot).header with
      timestamp := some 13, parent := headerHash firstVoteDigest .reverse refusedBlock.header } }

/-- A block with two votes of one voter is copied to its second hash when a child is added, and
marked as invalid under its first one.  When the copy gets a child, it is hashed in the first order
again, and replaces the invalid record. -/
theorem invalid_becomes_pending :
    ∃ s s', Processes oddNode firstVoteDigest (fun _ _ _ => True)
        (oddStart (rootStore oddNode sampleRoot) []) s ∧
      Processes oddNode firstVoteDigest (fun _ _ _ => True) s s' ∧
      (s.disk.block (oddNode.cfg.hash refusedBlock.header)).map ExtendedBlock.status =
        some .invalid ∧
      (s'.disk.block (oddNode.cfg.hash refusedBlock.header)).map ExtendedBlock.status =
        some .pending := by
  have heval : ((oddRun (oddStart (rootStore oddNode sampleRoot) [])
      [(.id, .addBlock refusedBlock), (.reverse, .addBlock (childOf refusedBlock sampleRoot)),
        (.id, .block refusedBlock)]).bind fun s =>
      (oddRun s [(.id, .addBlock childElsewhere)]).map fun s' =>
        ((s.disk.block (oddNode.cfg.hash refusedBlock.header)).map ExtendedBlock.status,
          (s'.disk.block (oddNode.cfg.hash refusedBlock.header)).map ExtendedBlock.status)) =
      some (some .invalid, some .pending) := by
    decide
  obtain ⟨s, hs, hrest⟩ := bind_eq_some_iff.mp heval
  obtain ⟨s', hs', hfacts⟩ := map_eq_some_iff.mp hrest
  exact ⟨s, s', processes_odd (fun _ _ _ => trivial) hs, processes_odd (fun _ _ _ => trivial) hs',
    Prod.mk.inj hfacts⟩

end ThetaSubchain
