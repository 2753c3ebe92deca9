/-
Finalized blocks and their ancestors, across crashes.

A finalization marks blocks from the new one down, until it meets a finalized one.  A crash between
two marks leaves blocks unmarked below a finalized block for good.
-/
import ThetaSubchain.Consensus.BlockChange
import ThetaSubchain.Consensus.Equivocation

namespace ThetaSubchain

open Durable EngineConf Option

variable {nd : Node} {a : Answers} {inp : Inputs} {J : EngineConf → Prop} {s s' : EngineConf}

theorem DownTo.trans {d : Store} {h p q : Hash} (hp : DownTo nd.cfg.root d h p)
    (hq : DownTo nd.cfg.root d p q) :
    DownTo nd.cfg.root d h q := by
  induction hp with
  | self h => exact hq
  | parent hb hroot _ ih => exact .parent hb hroot (ih hq)

theorem DownTo.of_root {d : Store} {q : Hash} (hq : DownTo nd.cfg.root d nd.cfg.root q) :
    q = nd.cfg.root := by
  cases hq with
  | self => rfl
  | parent _ hroot _ => exact absurd rfl hroot

theorem DownTo.back (hw : WellFormed nd s) {d : Store} (hg : s.disk.Grows d) {h q : Hash}
    (hq : DownTo nd.cfg.root d h q) : ∀ {eb}, s.disk.block h = some eb → eb.status.isValid →
      Recent nd s.disk eb → DownTo nd.cfg.root s.disk h q := by
  induction hq with
  | self h => exact fun _ _ _ => .self h
  | parent hb' hroot _ ih =>
    intro eb hb hv hrec
    obtain ⟨pb, hp, hpv, hprec, -⟩ := hw.parent _ _ hb hrec hv hroot
    rw [hg.header hb hb'] at ih
    exact .parent hb hroot (ih hp hpv hprec)

variable {h : Hash}

theorem FinalizedAt.grows {d d' : Store} (hg : d.Grows d') (hf : FinalizedAt d h) :
    FinalizedAt d' h := by
  obtain ⟨eb, hb, hst⟩ := hf
  obtain ⟨eb', hb', -, -, hst'⟩ := hg h eb hb
  exact ⟨eb', hb', hst' hst⟩

theorem recent_of_grows {d : Store} (hw : WellFormed nd s) (hg : s.disk.Grows d)
    {eb eb' : ExtendedBlock} (hb : s.disk.block h = some eb) (hb' : d.block h = some eb')
    (hrec : Recent nd d eb') : Recent nd s.disk eb := by
  obtain ⟨rb, hr, -⟩ := hw.root
  rw [Recent, rootHeight_grows hg hr, hg.header hb hb'] at hrec
  exact hrec

theorem downTo_of_path {d : Store} {h l : Hash} {eb : ExtendedBlock}
    (hb : d.block h = some eb) (hrec : Recent nd d eb)
    (hpath : Relation.ReflTransGen (ParentLink d) h l) :
    DownTo nd.cfg.root d l h ∧ ∃ lb, d.block l = some lb ∧
      eb.header.height.toNat ≤ lb.header.height.toNat := by
  induction hpath with
  | refl => exact ⟨.self h, eb, hb, le_rfl⟩
  | tail _ hlink ih =>
    obtain ⟨hdown, lb, hl, hle⟩ := ih
    obtain ⟨pb, cb, hp, hc, rfl, hh⟩ := hlink
    cases hl.symm.trans hp
    have hroot : ∀ c, d.block c = some cb → c ≠ nd.cfg.root := by
      rintro c hcb rfl
      have hheight : rootHeight nd d = cb.header.height.toNat := by rw [rootHeight, hcb]
      rw [Recent, hheight] at hrec
      omega
    exact ⟨.parent hc (hroot _ hc) hdown, cb, hc, by omega⟩

def AncestorsFinalized (nd : Node) (d : Store) : Prop :=
  ∀ h eb, d.block h = some eb → eb.status.isFinalized → Recent nd d eb →
    ∀ q, DownTo nd.cfg.root d h q → FinalizedAt d q

/-- A finalized block whose ancestors are not all finalized is an ancestor of the last finalized
block, whose finalization is not over. -/
def MarkedInPart (nd : Node) (s : EngineConf) : Prop :=
  ∀ h eb, s.disk.block h = some eb → eb.status.isFinalized → Recent nd s.disk eb →
    (∀ q, DownTo nd.cfg.root s.disk h q → FinalizedAt s.disk q) ∨
      DownTo nd.cfg.root s.disk s.mem.state.lastFinalizedBlock h

def Settled (nd : Node) (s : EngineConf) : Prop :=
  AncestorsFinalized nd s.disk ∧ FinalizedAt s.disk s.mem.state.lastFinalizedBlock

theorem AncestorsFinalized.markedInPart (h : AncestorsFinalized nd s.disk) : MarkedInPart nd s :=
  fun x eb hb hst hrec => .inl (h x eb hb hst hrec)

theorem MarkedInPart.settled (h : MarkedInPart nd s)
    (hdone : ∀ q, DownTo nd.cfg.root s.disk s.mem.state.lastFinalizedBlock q → FinalizedAt s.disk q) :
    Settled nd s := by
  refine ⟨fun x eb hb hst hrec q hq => ?_, hdone _ (.self _)⟩
  obtain hall | hx := h x eb hb hst hrec
  · exact hall q hq
  · exact hdone q (hx.trans hq)

theorem Effect.finalizedAt (he : Effect nd a inp J s s') (hf : FinalizedAt s'.disk h) :
    FinalizedAt s.disk h := by
  obtain ⟨eb, hb, hst⟩ := hf
  have hwith : ∀ {x : Hash} {old new : ExtendedBlock},
      (s.withBlock x new).disk.block h = some eb → s.disk.block x = some old →
      (new.status.isFinalized → old.status.isFinalized) → FinalizedAt s.disk h := by
    intro x old new hblock hold himp
    rw [withBlock_block] at hblock
    split at hblock
    · next heq =>
      cases hblock
      exact ⟨old, heq ▸ hold, himp hst⟩
    · exact ⟨eb, hblock, hst⟩
  cases he with
  | linkChild b pb hJ hb' hnew hp => exact hwith hb hp id
  | newBlock b children hJ hb' hnew hchildren =>
    rw [withBlock_block] at hb
    split at hb
    · cases hb
      cases hst
    · exact ⟨eb, hb, hst⟩
  | markInvalid x old hJ hold hpending => exact hwith hb hold (fun hfin => by cases hfin)
  | markUpdate x old hJ hold hpending happly => exact hwith hb hold id
  | markValid x old pb hJ hold hpending hp hvalid hrecent hheight hcov happly =>
    exact hwith hb hold (fun hfin => by cases hfin)
  | commit old hJ hold hvalid => exact hwith hb hold (fun hfin => by cases hfin)
  | _ => exact ⟨eb, hb, hst⟩

theorem Settled.of_store (hw : WellFormed nd s) (h : Settled nd s) (hg : s.disk.Grows s'.disk)
    (hback : ∀ x, FinalizedAt s'.disk x → FinalizedAt s.disk x)
    (hlast : s'.mem.state.lastFinalizedBlock = s.mem.state.lastFinalizedBlock) : Settled nd s' := by
  refine ⟨fun x eb hb hst hrec q hq => ?_, by rw [hlast]; exact h.2.grows hg⟩
  obtain ⟨old, hold, holdst⟩ := hback x ⟨eb, hb, hst⟩
  have hrec' := recent_of_grows hw hg hold hb hrec
  exact (h.1 x old hold holdst hrec' q
    (hq.back hw hg hold (isValid_of_isFinalized holdst) hrec')).grows hg

theorem rootHeight_sameHeaders {d d' : Store} (h : SameHeaders d d') :
    rootHeight nd d' = rootHeight nd d := by
  have hroot := h nd.cfg.root
  unfold rootHeight
  cases hb : d.block nd.cfg.root with
  | none =>
    rw [hb] at hroot
    rw [map_eq_none_iff.1 hroot]
  | some rb =>
    rw [hb] at hroot
    obtain ⟨rb', hb', heq⟩ := map_eq_some_iff.1 hroot
    rw [hb']
    dsimp only
    rw [heq]

theorem FinalizationOver.finalized (hz : nd.NonZeroHash) (hw : WellFormed nd s)
    (h : FinalizationOver nd (Settled nd) s) {q : Hash}
    (hq : DownTo nd.cfg.root s.disk s.mem.state.lastFinalizedBlock q) : FinalizedAt s.disk q := by
  obtain ⟨s₀, hJ, hsame, hkeep, hmarked⟩ := h
  obtain hfin | ⟨f, ⟨fb, hfb, hst⟩, hdown, hfq⟩ := hmarked hz q (hq.sameHeaders hsame.symm)
  · exact hfin
  obtain ⟨lb, hl, hlv, hlrec⟩ := hw.lastFinalized
  obtain ⟨fb', hfb', -, hfrec, -⟩ := (hdown.sameHeaders hsame).valid hw hl hlv hlrec
  have hheader : fb'.header = fb.header := by
    have hf := hsame f
    rw [hfb, hfb'] at hf
    exact some.inj hf
  have hrec : Recent nd s₀.disk fb := by
    rw [Recent, rootHeight_sameHeaders hsame, hheader] at hfrec
    exact hfrec
  exact hkeep q (hJ.1 f fb hfb hst hrec q hfq)

theorem MarkedInPart.mid (hw : WellFormed nd s) (h : MarkedInPart nd s)
    (he : MidEffect nd a (Settled nd) s s') : MarkedInPart nd s' := by
  have hg := he.storeStep.grows
  cases he with
  | flags e he =>
    intro x eb hb hst hrec
    show _ ∨ DownTo nd.cfg.root s.disk e.state.lastFinalizedBlock x
    rw [he]
    exact h x eb hb hst hrec
  | setLastFinalized c p pb hJ hc hp hvalid hrecent =>
    intro x eb hb hst hrec
    refine .inl fun q hq => ?_
    have hfin := hJ.1 x eb hb hst hrec q (hq.back hw hg hb (isValid_of_isFinalized hst) hrec)
    exact hfin.grows hg
  | markFinalized c x old lb st hc hl hpath hold hvalid hrecent hle hst =>
    intro y eb hb hyst hrec
    have hsame : SameHeaders s.disk (s.withBlock x { old with status := st }).disk :=
      SameHeaders.withBlock hold rfl
    by_cases hyx : y = x
    · -- the block that is marked now
      subst hyx
      exact .inr ((downTo_of_path hold hrecent hpath).1.sameHeaders hsame)
    · rw [withBlock_block, if_neg hyx] at hb
      have hrec' : Recent nd s.disk eb := by
        rw [Recent, rootHeight_sameHeaders hsame] at hrec
        exact hrec
      obtain hall | hdown := h y eb hb hyst hrec'
      · exact .inl fun q hq => (hall q (hq.sameHeaders hsame.symm)).grows hg
      · exact .inr (hdown.sameHeaders hsame)

theorem closed_markedInPart (hz : nd.NonZeroHash) (a : Answers) (inp : Inputs) :
    Closed nd a inp (MarkedInPart nd) (Settled nd) (fun _ _ => True) where
  effect {s s'} hw h he := by
    have hg := he.storeStep.grows
    have hback : ∀ x, FinalizedAt s'.disk x → FinalizedAt s.disk x := fun _ => he.finalizedAt
    have hsettled : Settled nd s' := by
      cases he with
      | setHighestCC x eb H hJ hb hvalid hH hlt hmaj hover =>
        have hbefore : Settled nd s := by
          obtain hJ | hover := hover
          · exact hJ
          · exact h.settled fun q hq => hover.finalized hz hw hq
        exact hbefore.of_store hw hg hback rfl
      | flags e hJ heq => exact hJ.of_store hw hg hback (by rw [heq])
      | _ => exact Settled.of_store hw (by assumption) hg hback rfl
    exact ⟨hsettled.1.markedInPart, hsettled⟩
  mid hw h he := h.mid hw he
  keep _ _ := trivial

/-- The recorded last finalized block and its ancestors are finalized: no finalization is under
way. -/
def NotFinalizing (nd : Node) (d : Store) (_ : List Output) : Prop :=
  ∀ q, DownTo nd.cfg.root d (State.load nd.cfg d).lastFinalizedBlock q → FinalizedAt d q

/-- In every store of a run in which the node does not crash while it finalizes a block, and in
which no certificate has two votes of one voter, the ancestors of finalized blocks are finalized,
and so is the recorded last finalized block. -/
theorem ancestors_finalized {digest : Rlp.Item → Hash} {d : Store}
    {m : Machine Engine Store Output} (hz : ∀ i, (digest i).isEmpty = false)
    (hd : ∃ ord, Fresh (nd.under (headerHash digest) ord) d) (hvoters : d.DistinctVoters)
    (hrun : OrderedRun nd (headerHash digest) BringsDistinct (NotFinalizing nd) d m) :
    AncestorsFinalized nd m.disk ∧
      FinalizedAt m.disk (State.load nd.cfg m.disk).lastFinalizedBlock := by
  obtain ⟨ord, hd'⟩ := hd
  obtain ⟨rb, hr, hrst⟩ := hd'.root
  have hroot : ∀ q, DownTo nd.cfg.root d nd.cfg.root q → FinalizedAt d q := by
    intro q hq
    rw [hq.of_root]
    exact ⟨rb, hr, by rw [hrst]; rfl⟩
  have hinit : MarkedInPart nd ⟨Engine.new nd.cfg d, d, []⟩ := by
    intro h eb hb _ hrec
    by_cases heq : h = nd.cfg.root
    · subst heq
      exact .inl hroot
    · exact absurd hrec (hd'.older h eb hb heq).1
  have hstart : NotFinalizing nd d [] := by
    have hload : (State.load nd.cfg d).lastFinalizedBlock = nd.cfg.root := by
      simp [State.load, hd'.stub]
    rw [NotFinalizing, hload]
    exact hroot
  have hboot : ∀ s ord, WellFormed (nd.under (headerHash digest) ord) s → MarkedInPart nd s →
      NotFinalizing nd s.disk s.outs → Settled nd ⟨Engine.new nd.cfg s.disk, s.disk, s.outs⟩ := by
    intro s ord hw h hnot
    have hlast : (State.load nd.cfg s.disk).lastFinalizedBlock = s.mem.state.lastFinalizedBlock :=
      hw.synced.lastFinalized
    have hpart : MarkedInPart nd ⟨Engine.new nd.cfg s.disk, s.disk, s.outs⟩ := by
      intro x eb hb hst hrec
      show _ ∨ DownTo nd.cfg.root s.disk (State.load nd.cfg s.disk).lastFinalizedBlock x
      rw [hlast]
      exact h x eb hb hst hrec
    exact hpart.settled hnot
  have hclosed : ∀ a : Answers, Closed (nd.under (headerHash digest) a.order) a
      ⟨Set.univ, {b | b.header.DistinctVoters}⟩ (MarkedInPart nd) (Settled nd) fun _ _ => True :=
    fun a => closed_markedInPart (fun h => hz (h.toItem a.order)) a _
  obtain ⟨hup, ⟨ord, e, hw, hI, -⟩, hdown⟩ := distinctRun_boundary ⟨ord, hd'⟩ hvoters
    (fun _ a _ _ => hclosed a) (fun s a act hact => ⟨hact, Set.subset_univ _⟩) hinit hstart
    (fun s ord hw h hnot => ⟨(hboot s ord hw h hnot).1.markedInPart, hboot s ord hw h hnot⟩) hrun
  cases hmem : m.mem with
  | none => exact hboot ⟨e, m.disk, m.outs⟩ ord hw hI (hdown hmem)
  | some e' =>
    obtain ⟨ord', hg⟩ := hup e' hmem
    have hlast : (State.load nd.cfg m.disk).lastFinalizedBlock = e'.state.lastFinalizedBlock :=
      hg.wf.synced.lastFinalized
    refine ⟨hg.boundary.1, ?_⟩
    rw [hlast]
    exact hg.boundary.2

def crashPoint : Option EngineConf := do
  let s ← oddRun (oddStart (rootStore oddNode sampleRoot) []) firstBlocks
  ((Engine.step (oddNode.under (headerHash firstVoteDigest) .id) (oddAnswers .id)
    (.vote (voteFor block₃))).points s)[4]?

def afterCrash : Option EngineConf := do
  let c ← crashPoint
  oddRun (oddStart c.disk c.outs) ((.id, .vote (voteFor block₃)) :: deliver block₄)

def statuses (s : EngineConf) : List (Option BlockStatus) :=
  [block₁, block₂, block₃, block₄].map fun b =>
    (s.disk.block (oddNode.cfg.hash b.header)).map ExtendedBlock.status

/-- After the crash and a later finalization, the second block is finalized and its parent is
not. -/
theorem ancestor_left_unfinalized :
    ∃ t : EngineConf, OrderedRun oddNode (headerHash firstVoteDigest) BringsDistinct
        (fun _ _ => True) (rootStore oddNode sampleRoot) ⟨some t.mem, t.disk, t.outs⟩ ∧
      statuses t =
        [some .committed, some .directlyFinalized, some .directlyFinalized, some .committed] ∧
      block₂.header.parent = oddNode.cfg.hash block₁.header ∧
      (State.load oddNode.cfg t.disk).lastFinalizedBlock = oddNode.cfg.hash block₃.header := by
  have hout : (afterCrash.map fun t =>
      (statuses t, (State.load oddNode.cfg t.disk).lastFinalizedBlock)) =
      some ([some .committed, some .directlyFinalized, some .directlyFinalized, some .committed],
        oddNode.cfg.hash block₃.header) := by decide
  have hdistinct : ∀ p ∈ firstBlocks ++ ((.id, .vote (voteFor block₃)) :: deliver block₄),
      ∀ b ∈ p.2.brought, b.header.DistinctVoters := by
    decide
  obtain ⟨hbrought, hbrought'⟩ := List.forall_mem_append.mp hdistinct
  obtain ⟨t, ht, hfacts⟩ := map_eq_some_iff.mp hout
  obtain ⟨hstatus, hlast⟩ := Prod.mk.inj hfacts
  refine ⟨t, ?_, hstatus, rfl, hlast⟩
  rw [afterCrash, bind_eq_bind, bind_eq_some_iff] at ht
  obtain ⟨c, hc, hrest⟩ := ht
  rw [crashPoint, bind_eq_bind, bind_eq_some_iff] at hc
  obtain ⟨s, hs, hpoint⟩ := hc
  have hbefore : OrderedRun oddNode (headerHash firstVoteDigest) BringsDistinct (fun _ _ => True)
      (rootStore oddNode sampleRoot) ⟨some s.mem, s.disk, s.outs⟩ :=
    OrderedRun.oddRun (s := oddStart _ []) OrderedRun.start (fun p hp _ => hbrought p hp) hs
  have hstep : BringsDistinct s (oddAnswers .id) (.vote (voteFor block₃)) := by
    rintro _ ⟨⟩
  have hcrash := (hbefore.tail (.crash ⟨oddAnswers .id, _, hstep, rfl⟩
    (.tail _ (List.mem_of_getElem? hpoint)) trivial)).tail .restart
  exact OrderedRun.oddRun (s := oddStart c.disk c.outs) hcrash (fun p hp _ => hbrought' p hp) hrest

theorem ancestors_finalized_odd :
    ∃ t : EngineConf, oddRun (oddStart (rootStore oddNode sampleRoot) [])
        (firstBlocks ++ [(.reverse, .vote (voteFor block₃))]) = some t ∧
      (State.load oddNode.cfg t.disk).lastFinalizedBlock = oddNode.cfg.hash block₂.header ∧
      AncestorsFinalized oddNode t.disk ∧
      FinalizedAt t.disk (State.load oddNode.cfg t.disk).lastFinalizedBlock := by
  have hout : ((oddRun (oddStart (rootStore oddNode sampleRoot) [])
      (firstBlocks ++ [(.reverse, .vote (voteFor block₃))])).map fun t =>
        (State.load oddNode.cfg t.disk).lastFinalizedBlock) =
      some (oddNode.cfg.hash block₂.header) := by decide
  have hdistinct : ∀ p ∈ firstBlocks ++ [(.reverse, .vote (voteFor block₃))],
      ∀ b ∈ p.2.brought, b.header.DistinctVoters := by
    decide
  obtain ⟨t, ht, hlast⟩ := map_eq_some_iff.mp hout
  have hrun : OrderedRun oddNode (headerHash firstVoteDigest) BringsDistinct
      (NotFinalizing oddNode) (rootStore oddNode sampleRoot) ⟨some t.mem, t.disk, t.outs⟩ :=
    OrderedRun.oddRun (s := oddStart _ []) OrderedRun.start (fun p hp _ => hdistinct p hp) ht
  exact ⟨t, ht, hlast,
    ancestors_finalized firstVoteDigest_nonzero fresh_odd distinctVoters_odd hrun⟩

end ThetaSubchain
