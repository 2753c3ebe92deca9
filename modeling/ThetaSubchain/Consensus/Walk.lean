/-
Every step of a node is made of effects.

Each function of the engine gets one specification: it keeps every invariant that is closed under
the effects, and it relates the state before to the state after as far as its callers need.
-/
import ThetaSubchain.Consensus.WellFormed
import ThetaSubchain.Lib.Ending

namespace ThetaSubchain

open Durable EngineConf Engine Chain Option BlockStatus ExtendedBlock Relation.ReflTransGen

/-- The invariant `I`, the boundary condition `J` and the crash condition `P` are kept
by the effects of a step. -/
structure Closed (nd : Node) (a : Answers) (inp : Inputs) (I J : EngineConf → Prop)
    (P : Store → List Output → Prop) : Prop where
  effect : ∀ {s s'}, WellFormed nd s → I s → Effect nd a inp J s s' → I s' ∧ J s'
  mid : ∀ {s s'}, WellFormed nd s → I s → MidEffect nd a J s s' → I s'
  keep : ∀ {s}, WellFormed nd s → I s → P s.disk s.outs

structure Mid (nd : Node) (I : EngineConf → Prop) (s : EngineConf) : Prop where
  wf : WellFormed nd s
  inv : I s

structure Good (nd : Node) (I J : EngineConf → Prop) (s : EngineConf) : Prop
    extends Mid nd I s where
  boundary : J s

variable {nd : Node} {a : Answers} {inp : Inputs} {I J : EngineConf → Prop}
  {P : Store → List Output → Prop} {s s' : EngineConf}

theorem Closed.goodOfMid (hc : Closed nd a inp I J P) (hg : Mid nd I s)
    (h : Effect nd a inp J s s') : Good nd I J s' :=
  ⟨⟨hg.wf.effect h, (hc.effect hg.wf hg.inv h).1⟩, (hc.effect hg.wf hg.inv h).2⟩

theorem Closed.good (hc : Closed nd a inp I J P) (hg : Good nd I J s)
    (h : Effect nd a inp J s s') : Good nd I J s' :=
  hc.goodOfMid hg.toMid h

theorem Closed.midStep (hc : Closed nd a inp I J P) (hg : Mid nd I s)
    (h : MidEffect nd a J s s') : Mid nd I s' :=
  ⟨hg.wf.mid h, hc.mid hg.wf hg.inv h⟩

theorem Closed.crash (hc : Closed nd a inp I J P) (hg : Mid nd I s) : P s.disk s.outs :=
  hc.keep hg.wf hg.inv

section Elementary

variable {Q : Unit → EngineConf → Prop}

@[simp] theorem wp_set (f : State → State) :
    (State.set nd.cfg f).wp P Q s ↔
      P (s.withState nd f).disk s.outs ∧ Q () (s.withState nd f) := Iff.rfl

@[simp] theorem wp_saveBlock (eb : ExtendedBlock) :
    (saveBlock nd.cfg eb : EngineProc Unit).wp P Q s ↔
      P (s.withBlock (nd.cfg.hash eb.header) eb).disk s.outs ∧
        Q () (s.withBlock (nd.cfg.hash eb.header) eb) := Iff.rfl

@[simp] theorem wp_updateBlock (h : Hash) (f : ExtendedBlock → ExtendedBlock) :
    (updateBlock nd.cfg h f : EngineProc Unit).wp P Q s ↔
      ∀ eb, s.disk.block h = some eb →
        P (s.withBlock (nd.cfg.hash (f eb).header) (f eb)).disk s.outs ∧
          Q () (s.withBlock (nd.cfg.hash (f eb).header) (f eb)) := by
  simp only [updateBlock, findBlock, Proc.wp_bind, Proc.wp_disk, Proc.wp_orDie,
    wp_saveBlock]

@[simp] theorem wp_getHighestCCBlock {Q : ExtendedBlock → EngineConf → Prop} :
    State.getHighestCCBlock.wp P Q s ↔
      ∀ eb, s.disk.block s.mem.state.highestCCBlock = some eb → Q eb s := by
  simp only [State.getHighestCCBlock, findBlock, Proc.wp_bind, Proc.wp_disk, Proc.wp_mem,
    Proc.wp_orDie]

@[simp] theorem wp_getLastFinalizedBlock {Q : ExtendedBlock → EngineConf → Prop} :
    State.getLastFinalizedBlock.wp P Q s ↔
      ∀ eb, s.disk.block s.mem.state.lastFinalizedBlock = some eb → Q eb s := by
  simp only [State.getLastFinalizedBlock, findBlock, Proc.wp_bind, Proc.wp_disk,
    Proc.wp_mem, Proc.wp_orDie]

theorem wp_checkSyncStatus (h : ∀ synced, Q () { s with mem := { s.mem with hasSynced := synced } }) :
    (checkSyncStatus a).wp P Q s := by
  unfold checkSyncStatus
  rw [Proc.wp_bind, Proc.wp_disk]
  cases s.disk.epochVotes with
  | none => exact h s.mem.hasSynced
  | some votes =>
    simp only [Proc.wp_bind, wp_getLastFinalizedBlock, Proc.wp_orDie, Proc.wp_modifyMem]
    intro lb _ ts _
    exact h _

end Elementary

/-- The blocks only grow, the votes stay, and blocks that are pending stay as they are. -/
structure Frame (s s' : EngineConf) : Prop where
  grows : s.disk.Grows s'.disk
  votes : s'.disk.votes = s.disk.votes
  pending : ∀ h eb, s.disk.block h = some eb → eb.status = .pending →
    s'.disk.block h = some eb

variable {d d' d'' : Store}

theorem Store.Grows.trans (h : d.Grows d') (h' : d'.Grows d'') : d.Grows d'' := by
  intro x eb hx
  obtain ⟨eb', hx', hb', hv', hf'⟩ := h x eb hx
  obtain ⟨eb'', hx'', hb'', hv'', hf''⟩ := h' x eb' hx'
  exact ⟨eb'', hx'', hb''.trans hb', hv'' ∘ hv', hf'' ∘ hf'⟩

theorem Frame.refl (s : EngineConf) : Frame s s := ⟨Store.Grows.refl _, rfl, fun _ _ h _ => h⟩

theorem Frame.trans {s'' : EngineConf} (h : Frame s s') (h' : Frame s' s'') : Frame s s'' :=
  ⟨h.grows.trans h'.grows, h'.votes.trans h.votes,
    fun x eb hx hp => h'.pending x eb (h.pending x eb hx hp) hp⟩

theorem Frame.of_eq (hb : s'.disk.block = s.disk.block) (hv : s'.disk.votes = s.disk.votes) :
    Frame s s' := by
  refine ⟨?_, hv, fun x eb hx _ => by rw [hb]; exact hx⟩
  intro x eb hx
  exact ⟨eb, by rw [hb]; exact hx, rfl, id, id⟩

theorem Frame.after {s₁ : EngineConf} (h : Frame s₁ s') (hb : s₁.disk.block = s.disk.block)
    (hv : s₁.disk.votes = s.disk.votes) : Frame s s' :=
  (Frame.of_eq hb hv).trans h

variable {h : Hash} {eb : ExtendedBlock}

theorem Frame.withBlock (eb' : ExtendedBlock) (hb : s.disk.block h = some eb)
    (hblock : eb'.block = eb.block) (hvalid : eb.status.isValid) (hvalid' : eb'.status.isValid)
    (hfin : eb.status.isFinalized → eb'.status.isFinalized) : Frame s (s.withBlock h eb') := by
  refine ⟨grows_withBlock hb hblock (fun _ => hvalid') hfin, rfl, ?_⟩
  intro x xb hx hp
  rw [withBlock_block, if_neg, hx]
  intro hxh
  rw [hxh, hb, some.injEq] at hx
  rw [hx, hp] at hvalid
  simp [isValid] at hvalid

theorem voters_eq (h : Frame s s') (x : Hash) : voters s'.disk x = voters s.disk x := by
  simp only [voters, findVotesByHash, h.votes]

theorem Majority.frame (h : Frame s s') {x : Hash} (hm : Majority a s.disk x) :
    Majority a s'.disk x := by
  obtain ⟨vs, hvs, hq⟩ := hm
  exact ⟨vs, hvs, by rw [voters_eq h]; exact hq⟩

theorem Confirms.withBlock {c p h : Hash} {eb eb' : ExtendedBlock} (hc : Confirms a s c p)
    (hb : s.disk.block h = some eb) (hblock : eb'.block = eb.block) (hne : h ≠ c) :
    Confirms a (s.withBlock h eb') c p := by
  obtain ⟨cb, H, hcb, hst, hp, hhcc, hH, hlt, hm⟩ := hc
  have hcb' : (s.withBlock h eb').disk.block c = some cb := by
    rw [withBlock_block, if_neg (Ne.symm hne), hcb]
  have hheader : eb'.header = eb.header := by rw [header, hblock]
  have hmaj : Majority a (s.withBlock h eb').disk c := hm
  by_cases hHh : s.mem.state.highestCCBlock = h
  · have hHeb : H = eb := by
      rw [hHh, hb, some.injEq] at hH
      exact hH.symm
    refine ⟨cb, eb', hcb', hst, hp, hhcc, ?_, ?_, hmaj⟩
    · rw [withBlock_block, if_pos]
      exact hHh
    · rw [hheader, ← hHeb]
      exact hlt
  · refine ⟨cb, H, hcb', hst, hp, hhcc, ?_, hlt, hmaj⟩
    rw [withBlock_block, withBlock_mem, if_neg hHh, hH]

variable {c p : Hash}

theorem Confirms.height (hw : WellFormed nd s) {pb : ExtendedBlock} (hc : Confirms a s c p)
    (hp : s.disk.block p = some pb) :
    ∃ cb, s.disk.block c = some cb ∧ cb.header.height.toNat = pb.header.height.toNat + 1 := by
  obtain ⟨cb, H, hcb, hst, hcp, -, hH, hlt, -⟩ := hc
  have hroot : c ≠ nd.cfg.root := hw.ne_root hcb (by simp [hst, isFinalized])
  obtain ⟨pb', hpb', -, -, hh⟩ := hw.parent c cb hcb
    (recent_of_lt (hw.recent_highestCC hH) hlt) (by simp [hst, isValid]) hroot
  rw [hcp, hp, some.injEq] at hpb'
  exact ⟨cb, hcb, by rw [hpb']; exact hh⟩

/-- The block at which the marking loop has arrived: an ancestor of the last finalized
block that is valid and not above it. -/
structure MarkAt (nd : Node) (s : EngineConf) (h : Hash) : Prop where
  path : Relation.ReflTransGen (ParentLink s.disk) h s.mem.state.lastFinalizedBlock
  valid : ∃ eb lb, s.disk.block h = some eb ∧ eb.status.isValid ∧ Recent nd s.disk eb ∧
    s.disk.block s.mem.state.lastFinalizedBlock = some lb ∧
    eb.header.height.toNat ≤ lb.header.height.toNat

theorem MarkAt.grows (hw : WellFormed nd s) (hm : MarkAt nd s h) (hg : s.disk.Grows s'.disk)
    (hmem : s'.mem = s.mem) : MarkAt nd s' h := by
  obtain ⟨eb, lb, hb, hv, hrec, hl, hle⟩ := hm.valid
  obtain ⟨eb', hb', hblock, hv', -⟩ := hg h eb hb
  obtain ⟨lb', hl', hlblock, -, -⟩ := hg _ lb hl
  obtain ⟨rb, hr, -⟩ := hw.root
  have hrec' : Recent nd s'.disk eb' := by
    rw [Recent, rootHeight_grows hg hr, header, hblock]
    exact hrec
  refine ⟨?_, eb', lb', hb', hv' hv, hrec', by rw [hmem]; exact hl', ?_⟩
  · rw [hmem]
    refine mono ?_ _ _ hm.path
    rintro p c ⟨pb, cb, hpb, hcb, hp, hh⟩
    obtain ⟨pb', hpb', hpblock, -, -⟩ := hg p pb hpb
    obtain ⟨cb', hcb', hcblock, -, -⟩ := hg c cb hcb
    refine ⟨pb', cb', hpb', hcb', ?_, ?_⟩
    · rw [header, hcblock]; exact hp
    · rw [header, header, hpblock, hcblock]; exact hh
  · rw [header, header, hblock, hlblock]
    exact hle

theorem SameHeaders.symm {d d' : Store} (h : SameHeaders d d') : SameHeaders d' d :=
  fun x => (h x).symm

theorem SameHeaders.trans (h : SameHeaders d d') (h' : SameHeaders d' d'') : SameHeaders d d'' :=
  fun x => (h' x).trans (h x)

theorem SameHeaders.withBlock {eb eb' : ExtendedBlock} (hb : s.disk.block h = some eb)
    (hblock : eb'.block = eb.block) : SameHeaders s.disk (s.withBlock h eb').disk := by
  intro x
  rw [withBlock_block]
  split
  · next heq =>
    rw [heq, hb, map_some, map_some, header, hblock]
  · rfl

theorem DownTo.sameHeaders {d d' : Store} (hs : SameHeaders d d') {h q : Hash}
    (hq : DownTo nd.cfg.root d h q) : DownTo nd.cfg.root d' h q := by
  induction hq with
  | self h => exact .self h
  | @parent h q eb hb hroot _ ih =>
    have hheader := hs h
    rw [hb, map_some] at hheader
    obtain ⟨eb', hb', heq⟩ := map_eq_some_iff.1 hheader
    rw [← heq] at ih
    exact .parent hb' hroot ih

theorem DownTo.valid (hw : WellFormed nd s) {h q : Hash} (hq : DownTo nd.cfg.root s.disk h q) :
    ∀ {eb}, s.disk.block h = some eb → eb.status.isValid → Recent nd s.disk eb →
      ∃ qb, s.disk.block q = some qb ∧ qb.status.isValid ∧ Recent nd s.disk qb ∧
        qb.header.height.toNat ≤ eb.header.height.toNat := by
  induction hq with
  | self h => exact fun hb hv hrec => ⟨_, hb, hv, hrec, le_rfl⟩
  | parent hb hroot _ ih =>
    intro eb hb' hv hrec
    cases hb.symm.trans hb'
    obtain ⟨pb, hp, hpv, hprec, hh⟩ := hw.parent _ _ hb hrec hv hroot
    obtain ⟨qb, hqb, hqv, hqrec, hle⟩ := ih hp hpv hprec
    exact ⟨qb, hqb, hqv, hqrec, by omega⟩

theorem MarkAt.parent (hw : WellFormed nd s) (hm : MarkAt nd s h) (hb : s.disk.block h = some eb)
    (hroot : h ≠ nd.cfg.root) : MarkAt nd s eb.header.parent := by
  obtain ⟨eb', lb, hb', hv, hrec, hl, hle⟩ := hm.valid
  rw [hb, some.injEq] at hb'
  subst hb'
  obtain ⟨pb, hp, hpv, hprec, hh⟩ := hw.parent h eb hb hrec hv hroot
  exact ⟨head ⟨pb, eb, hp, hb, rfl, hh⟩ hm.path, pb, lb, hp, hpv, hprec, hl,
    by omega⟩

theorem MarkedFrom.of_block_eq (hm : MarkedFrom nd d d'' h) (hb : d.block = d'.block) :
    MarkedFrom nd d' d'' h := by
  have hsame : SameHeaders d' d := fun x => by rw [hb]
  intro q hq
  obtain hfin | ⟨f, ⟨fb, hfb, hfin⟩, hdown, hfq⟩ := hm q (hq.sameHeaders hsame)
  · exact .inl hfin
  · rw [hb] at hfb
    exact .inr ⟨f, ⟨fb, hfb, hfin⟩, hdown.sameHeaders hsame.symm, hfq.sameHeaders hsame.symm⟩

theorem markedFrom_round (hw : WellFormed nd s) {st : BlockStatus} (hb : s.disk.block h = some eb)
    (hv : eb.status.isValid) (hrec : Recent nd s.disk eb) (hroot : h ≠ nd.cfg.root)
    (hst : st.isFinalized) {d : Store} (hg : (s.withBlock h { eb with status := st }).disk.Grows d)
    (hmarked : MarkedFrom nd (s.withBlock h { eb with status := st }).disk d eb.header.parent) :
    MarkedFrom nd s.disk d h := by
  have hsame : SameHeaders s.disk (s.withBlock h { eb with status := st }).disk :=
    SameHeaders.withBlock hb rfl
  intro q hq
  cases hq with
  | self =>
    obtain ⟨eb', hb', -, -, hf⟩ := hg h { eb with status := st }
      (by rw [withBlock_block, if_pos rfl])
    exact .inl ⟨eb', hb', hf hst⟩
  | parent hb' _ hq =>
    cases hb.symm.trans hb'
    obtain hfin | ⟨f, ⟨fb, hfb, hfin⟩, hdown, hfq⟩ := hmarked q (hq.sameHeaders hsame)
    · exact .inl hfin
    · have hdown₀ : DownTo nd.cfg.root s.disk eb.header.parent f := hdown.sameHeaders hsame.symm
      -- the block is above its ancestors
      have hne : f ≠ h := by
        rintro rfl
        obtain ⟨pb, hp, hpv, hprec, hh⟩ := hw.parent f eb hb hrec hv hroot
        obtain ⟨fb', hfb', -, -, hle⟩ := hdown₀.valid hw hp hpv hprec
        cases hb.symm.trans hfb'
        omega
      rw [withBlock_block, if_neg hne] at hfb
      exact .inr ⟨f, ⟨fb, hfb, hfin⟩, .parent hb hroot hdown₀, hfq.sameHeaders hsame.symm⟩

theorem wp_finalizeLoop (hc : Closed nd a inp I J P) {c : Hash} (n : Nat) {st : BlockStatus}
    (hg : Mid nd I s) (hconf : Confirms a s c s.mem.state.lastFinalizedBlock) (hat : MarkAt nd s h)
    (hst : st = .directlyFinalized ∨ st = .indirectlyFinalized) :
    (finalizeLoop nd.cfg n h st : EngineProc _).wp P
      (fun r s' => r = .ok () ∧ Mid nd I s' ∧ s'.mem = s.mem ∧ Frame s s' ∧
        Confirms a s' c s.mem.state.lastFinalizedBlock ∧ SameHeaders s.disk s'.disk ∧
        (nd.NonZeroHash → MarkedFrom nd s.disk s'.disk h)) s := by
  induction n generalizing s h st with
  | zero => exact trivial
  | succ n ih =>
    obtain ⟨eb, lb, hb, hv, hrec, hl, hle⟩ := hat.valid
    rw [finalizeLoop]
    by_cases hempty : h.isEmpty
    · rw [if_pos hempty]
      refine ⟨rfl, hg, rfl, Frame.refl s, hconf, fun _ => rfl, fun hz => ?_⟩
      rw [← hg.wf.key h eb hb, hz] at hempty
      cases hempty
    · rw [if_neg hempty, Proc.wp_bind, Proc.wp_disk]
      simp only [findBlock, hb]
      by_cases hfin : eb.status.isFinalized
      · rw [if_pos hfin]
        exact ⟨rfl, hg, rfl, Frame.refl s, hconf, fun _ => rfl,
          fun _ q hq => .inr ⟨h, ⟨eb, hb, hfin⟩, .self h, hq⟩⟩
      · rw [if_neg hfin, if_neg (hg.wf.status h eb hb hrec).2, Proc.wp_bind, wp_saveBlock]
        have hkey : nd.cfg.hash eb.header = h := hg.wf.key h eb hb
        have hroot : h ≠ nd.cfg.root := hg.wf.ne_root hb hfin
        -- the confirming block is higher than every block that is marked
        have hne : h ≠ c := by
          intro heq
          obtain ⟨cb, hcb, hch⟩ := hconf.height hg.wf hl
          rw [← heq, hb, some.injEq] at hcb
          rw [hcb] at hle
          omega
        have hstv : st.isValid := by rcases hst with rfl | rfl <;> rfl
        have hstf : st.isFinalized := by rcases hst with rfl | rfl <;> rfl
        have heff : MidEffect nd a J s (s.withBlock h { eb with status := st }) :=
          .markFinalized c h eb lb st hconf hl hat.path hb hv hrec
            (UInt64.le_iff_toNat_le.2 hle) hst
        have hframe : Frame s (s.withBlock h { eb with status := st }) :=
          Frame.withBlock _ hb rfl hv hstv fun _ => hstf
        have hg' := hc.midStep hg heff
        have hsave : nd.cfg.hash (header { eb with status := st }) = h := hkey
        rw [hsave]
        refine ⟨hc.crash hg', ?_⟩
        have hat' : MarkAt nd (s.withBlock h { eb with status := st }) eb.header.parent :=
          (hat.parent hg.wf hb hroot).grows hg.wf hframe.grows rfl
        refine Proc.wp_mono ?_ (ih hg' (hconf.withBlock hb rfl hne) hat' (.inr rfl))
        rintro r s'' ⟨hr, hg'', hmem, hf, hconf', hsame, hmarked⟩
        have hfirst : SameHeaders s.disk (s.withBlock h { eb with status := st }).disk :=
          SameHeaders.withBlock hb rfl
        exact ⟨hr, hg'', hmem, hframe.trans hf, hconf', hfirst.trans hsame,
          fun hz => markedFrom_round hg.wf hb hv hrec hroot hstf hf.grows (hmarked hz)⟩

theorem Confirms.of_eq (hc : Confirms a s c p) (hb : s'.disk.block = s.disk.block)
    (hv : s'.disk.votes = s.disk.votes)
    (hH : s'.mem.state.highestCCBlock = s.mem.state.highestCCBlock) : Confirms a s' c p := by
  obtain ⟨cb, H, hcb, hst, hp, hhcc, hHb, hlt, hm⟩ := hc
  refine ⟨cb, H, by rw [hb]; exact hcb, hst, hp, hhcc, by rw [hb, hH]; exact hHb, hlt, ?_⟩
  exact hm.frame (Frame.of_eq hb hv)

theorem wp_finalizeBlock (hc : Closed nd a inp I J P) {pb : ExtendedBlock} (hg : Good nd I J s)
    (hconf : Confirms a s c p) (hp : s.disk.block p = some pb) (hvalid : pb.status.isValid)
    (hrecent : Recent nd s.disk pb) :
    (finalizeBlock nd a pb).wp P
      (fun r s' => r = .ok () ∧ Mid nd I s' ∧ Frame s s' ∧ Confirms a s' c p ∧
        s'.mem.state.highestCCBlock = s.mem.state.highestCCBlock ∧
        (J s' ∨ s'.mem.state.lastFinalizedBlock = p) ∧ (J s' ∨ FinalizationOver nd J s')) s := by
  have hkey : nd.cfg.hash pb.header = p := hg.wf.key p pb hp
  unfold finalizeBlock
  rw [Proc.wp_bind, Proc.wp_mem]
  by_cases hstop : s.mem.stopped
  · rw [if_pos hstop]
    exact ⟨rfl, hg.toMid, Frame.refl s, hconf, rfl, .inl hg.boundary, .inl hg.boundary⟩
  · rw [if_neg hstop, Proc.wp_bind, wp_getLastFinalizedBlock]
    intro lb hl
    by_cases hsame : nd.cfg.hash pb.header = nd.cfg.hash lb.header
    · rw [if_pos hsame]
      exact ⟨rfl, hg.toMid, Frame.refl s, hconf, rfl, .inl hg.boundary, .inl hg.boundary⟩
    · rw [if_neg hsame, Proc.wp_bind, State.setLastFinalizedBlock, wp_set, hkey]
      have heff : MidEffect nd a J s
          (s.withState nd fun st => { st with lastFinalizedBlock := p }) :=
        .setLastFinalized c p pb hg.boundary hconf hp hvalid hrecent
      have hg₁ := hc.midStep hg.toMid heff
      refine ⟨hc.crash hg₁, ?_⟩
      rw [Proc.wp_bind]
      refine wp_checkSyncStatus fun synced => ?_
      have hg₂ := hc.midStep hg₁ (.flags { (s.withState nd fun st =>
        { st with lastFinalizedBlock := p }).mem with hasSynced := synced } rfl)
      have hconf₂ : Confirms a { (s.withState nd fun st =>
          { st with lastFinalizedBlock := p }) with mem := { (s.withState nd fun st =>
            { st with lastFinalizedBlock := p }).mem with hasSynced := synced } } c p :=
        hconf.of_eq rfl rfl rfl
      refine Proc.wp_mono ?_ (wp_finalizeLoop hc nd.cfg.fuel hg₂ hconf₂
        ⟨refl, pb, pb, hp, hvalid, hrecent, hp, le_rfl⟩ (.inl rfl))
      rintro r s' ⟨hr, hg', hmem, hf, hconf', hsame, hmarked⟩
      have hf' : Frame s s' := hf.after rfl rfl
      refine ⟨hr, hg', hf', hconf', ?_, .inr ?_, .inr ⟨s, hg.boundary, hsame, ?_, ?_⟩⟩
      · rw [hmem]; rfl
      · rw [hmem]; rfl
      · rintro q ⟨qb, hqb, hfin⟩
        obtain ⟨qb', hqb', -, -, hfin'⟩ := hf'.grows q qb hqb
        exact ⟨qb', hqb', hfin' hfin⟩
      · intro hz
        rw [hmem]
        exact (hmarked hz).of_block_eq rfl

/-- A block with a majority is processed: the highest CC block ends up at least as
high.  The step never fails, because its parent is stored and no block is disposed. -/
theorem wp_processCCBlock (hc : Closed nd a inp I J P) {c : Hash} {cc : ExtendedBlock}
    (hg : Good nd I J s) (hb : s.disk.block c = some cc) (hst : cc.status = .valid)
    (hm : Majority a s.disk c) :
    (processCCBlock nd a cc).wp P
      (fun _ s' => Good nd I J s' ∧ Frame s s' ∧
        ∀ H, s'.disk.block s'.mem.state.highestCCBlock = some H →
          cc.header.height ≤ H.header.height) s := by
  have hkey : nd.cfg.hash cc.header = c := hg.wf.key c cc hb
  unfold processCCBlock
  rw [Proc.wp_bind, wp_getHighestCCBlock]
  intro H hH
  by_cases hle : cc.header.height ≤ H.header.height
  · rw [if_pos hle]
    refine ⟨hg, Frame.refl s, fun H' hH' => ?_⟩
    rw [hH, some.injEq] at hH'
    exact hH' ▸ hle
  · rw [if_neg hle]
    have hlt : H.header.height < cc.header.height := UInt64.not_le.1 hle
    -- setting the highest CC block and committing it
    have hfinish : ∀ s₁ cb H₁, Mid nd I s₁ → Frame s s₁ → s₁.disk.block c = some cb →
        cb.status = .valid → cb.header = cc.header →
        s₁.disk.block s₁.mem.state.highestCCBlock = some H₁ →
        H₁.header.height < cc.header.height →
        (J s₁ ∨ s₁.mem.state.lastFinalizedBlock = cc.header.parent) →
        (J s₁ ∨ FinalizationOver nd J s₁) →
        (State.setHighestCCBlock nd.cfg cc).wp P (fun _ s₂ =>
          (commitBlock nd.cfg (nd.cfg.hash cc.header) : EngineProc Unit).wp P
            (fun _ s' => Good nd I J s' ∧ Frame s s' ∧
              ∀ H, s'.disk.block s'.mem.state.highestCCBlock = some H →
                cc.header.height ≤ H.header.height) s₂) s₁ := by
      intro s₁ cb H₁ hg₁ hf₁ hcb hcbst hhead hH₁ hlt₁ hJ₁ hover₁
      have hmaj : Majority a s₁.disk c := hm.frame hf₁
      have heff : Effect nd a inp J s₁
          (s₁.withState nd fun st => { st with highestCCBlock := c }) :=
        .setHighestCC c cb H₁ (by rw [hhead]; exact hJ₁) hcb hcbst hH₁
          (by rw [hhead]; exact hlt₁) hmaj hover₁
      have hg₂ := hc.goodOfMid hg₁ heff
      rw [State.setHighestCCBlock, wp_set, hkey]
      refine ⟨hc.crash hg₂.toMid, ?_⟩
      rw [commitBlock, wp_updateBlock]
      intro eb heb
      have hebcb : cb = eb := some.inj (hcb.symm.trans heb)
      subst hebcb
      have hcbkey : nd.cfg.hash cb.header = c := by rw [hhead]; exact hkey
      have hg₃ := hc.good hg₂ (.commit cb hg₂.boundary heb hcbst)
      show P (withBlock _ (nd.cfg.hash cb.header) _).disk _ ∧ _
      rw [hcbkey]
      refine ⟨hc.crash hg₃.toMid, hg₃, ?_, ?_⟩
      · refine hf₁.trans ((Frame.withBlock { cb with status := .committed } heb rfl ?_ rfl
          ?_).after rfl rfl)
        · rw [hcbst]; rfl
        · intro h
          rw [hcbst] at h
          simp [isFinalized] at h
      · intro H' hH'
        have hval : H' = { cb with status := .committed } := by
          refine some.inj (hH'.symm.trans ?_)
          rw [withBlock_block, if_pos]
          rfl
        rw [hval]
        show cc.header.height ≤ cb.header.height
        rw [hhead]
        exact UInt64.le_refl _
    rw [Proc.wp_bind]
    unfold finalizeParent
    by_cases hpar : cc.header.parent = cc.header.hcc.blockHash
    · rw [if_neg (not_not_intro hpar), Proc.wp_bind, Proc.wp_disk]
      have hroot : c ≠ nd.cfg.root := hg.wf.ne_root hb (by simp [hst, isFinalized])
      obtain ⟨pb, hp, hpv, hprec, -⟩ := hg.wf.parent c cc hb
        (recent_of_lt (hg.wf.recent_highestCC hH) hlt) (by rw [hst]; rfl) hroot
      simp only [findBlock, hp]
      rw [Proc.wp_bind]
      have hconf : Confirms a s c cc.header.parent :=
        ⟨cc, H, hb, hst, rfl, hpar.symm, hH, hlt, hm⟩
      refine Proc.wp_mono ?_ (wp_finalizeBlock hc hg hconf hp hpv hprec)
      rintro r s₁ ⟨rfl, hg₁, hf₁, hconf₁, -, hJ₁, hover₁⟩
      obtain ⟨cb, H₁, hcb, hcbst, -, -, hH₁, hlt₁, -⟩ := hconf₁
      have hhead : cb.header = cc.header := hf₁.grows.header hb hcb
      show (if true = true then _ else _ : EngineProc Unit).wp P _ s₁
      rw [if_pos rfl, Proc.wp_bind]
      exact hfinish s₁ cb H₁ hg₁ hf₁ hcb hcbst hhead hH₁ (by rw [← hhead]; exact hlt₁) hJ₁
        hover₁
    · rw [if_pos hpar, Proc.wp_pure, if_pos rfl, Proc.wp_bind]
      exact hfinish s cc H hg.toMid (Frame.refl s) hb hst rfl hH hlt (.inl hg.boundary)
        (.inl hg.boundary)

theorem majority_iff (h : Hash) {vs : ValidatorSet} (hvs : a.getValidatorSet h = some vs) :
    vs.hasMajority a.order ((findVotesByHash s.disk h).uniqueVoter a.order) = true ↔
      Majority a s.disk h := by
  rw [ValidatorSet.hasMajority_uniqueVoter_iff]
  constructor
  · exact fun hq => ⟨vs, hvs, hq⟩
  · rintro ⟨vs', hvs', hq⟩
    rw [hvs, some.injEq] at hvs'
    exact hvs' ▸ hq

theorem wp_checkCC (hc : Closed nd a inp I J P) (hg : Good nd I J s) (h : Hash) :
    (checkCC nd a h).wp P
      (fun _ s' => Good nd I J s' ∧ Frame s s' ∧
        (h.isEmpty = false → ∀ cc, s.disk.block h = some cc → cc.status.isValid →
          ¬ cc.status.isFinalized → Majority a s.disk h →
          ∀ H, s'.disk.block s'.mem.state.highestCCBlock = some H →
            cc.header.height ≤ H.header.height)) s := by
  unfold checkCC
  by_cases hempty : h.isEmpty
  · rw [if_pos hempty]
    exact ⟨hg, Frame.refl s, fun hne => by simp [hempty] at hne⟩
  · rw [if_neg hempty, Proc.wp_bind, Proc.wp_disk, findBlock]
    cases hb : s.disk.block h with
    | none => exact ⟨hg, Frame.refl s, fun _ cc hcc => by simp at hcc⟩
    | some cc =>
      -- nothing happens, and the block is not above the highest CC block
      have hskip (hle : cc.status.isValid → ¬ cc.status.isFinalized → Majority a s.disk h →
          ∀ H, s.disk.block s.mem.state.highestCCBlock = some H →
            cc.header.height ≤ H.header.height) :
          Good nd I J s ∧ Frame s s ∧ (h.isEmpty = false → ∀ cc', some cc = some cc' →
            cc'.status.isValid → ¬ cc'.status.isFinalized → Majority a s.disk h →
            ∀ H, s.disk.block s.mem.state.highestCCBlock = some H →
              cc'.header.height ≤ H.header.height) := by
        refine ⟨hg, Frame.refl s, fun _ cc' hcc' => ?_⟩
        rw [some.injEq] at hcc'
        exact hcc' ▸ hle
      show (if cc.status.isInvalid then _ else _ : EngineProc Unit).wp P _ s
      cases hst : cc.status with
      | pending => exact hskip (by simp [hst, isValid])
      | invalid => exact hskip (by simp [hst, isValid])
      | committed => exact hskip fun _ _ _ H hH => hg.wf.committed h cc H hb hst hH
      | directlyFinalized => exact hskip (by simp [hst, isFinalized])
      | indirectlyFinalized => exact hskip (by simp [hst, isFinalized])
      | disposed => exact hskip (by simp [hst, isValid])
      | trusted =>
        -- a trusted block is below the root, so it is not above the highest CC block
        show (processCCBlock nd a cc).wp P _ s
        unfold processCCBlock
        rw [Proc.wp_bind, wp_getHighestCCBlock]
        intro H hH
        have hold : ¬ Recent nd s.disk cc := fun hrec => (hg.wf.status h cc hb hrec).1 hst
        have hle : cc.header.height ≤ H.header.height := by
          have hH := hg.wf.recent_highestCC hH
          unfold Recent at hold hH
          rw [UInt64.le_iff_toNat_le]
          omega
        rw [if_pos hle]
        exact hskip (by simp [hst, isFinalized])
      | valid =>
        show (do
          let hcc ← State.getHighestCCBlock
          if cc.header.height < hcc.header.height then pure ()
          else do
            let votes := (findVotesByHash (← Proc.disk) h).uniqueVoter a.order
            let validators ← Proc.orDie (a.getValidatorSet h)
            if validators.hasMajority a.order votes then processCCBlock nd a cc
            else pure () : EngineProc Unit).wp P _ s
        rw [Proc.wp_bind, wp_getHighestCCBlock]
        intro H hH
        by_cases hlt : cc.header.height < H.header.height
        · rw [if_pos hlt]
          refine hskip fun _ _ _ H' hH' => ?_
          rw [hH, some.injEq] at hH'
          exact hH' ▸ UInt64.le_of_lt hlt
        · rw [if_neg hlt]
          simp only [Proc.wp_bind, Proc.wp_disk, Proc.wp_orDie]
          intro vs hvs
          by_cases hm : vs.hasMajority a.order
              ((findVotesByHash s.disk h).uniqueVoter a.order) = true
          · rw [if_pos hm]
            refine Proc.wp_mono ?_ (wp_processCCBlock hc hg hb hst ((majority_iff h hvs).1 hm))
            rintro - s' ⟨hg', hf', hle⟩
            refine ⟨hg', hf', fun _ cc' hcc' _ _ _ => ?_⟩
            rw [some.injEq] at hcc'
            exact hcc' ▸ hle
          · rw [if_neg hm]
            exact hskip fun _ _ hmaj => absurd ((majority_iff h hvs).2 hmaj) hm

structure VoteFrame (s s' : EngineConf) : Prop where
  block : s'.disk.block = s.disk.block
  highestCC : s'.mem.state.highestCCBlock = s.mem.state.highestCCBlock
  voters : ∀ h, voters s.disk h ⊆ voters s'.disk h

theorem VoteFrame.refl (s : EngineConf) : VoteFrame s s := ⟨rfl, rfl, fun _ => subset_rfl⟩

theorem VoteFrame.trans {s'' : EngineConf} (h : VoteFrame s s') (h' : VoteFrame s' s'') :
    VoteFrame s s'' :=
  ⟨h'.block.trans h.block, h'.highestCC.trans h.highestCC,
    fun x => (h.voters x).trans (h'.voters x)⟩

theorem wp_getTip {Q : ExtendedBlock → EngineConf → Prop} (incl : Bool) :
    (getTip nd incl).wp P Q s ↔
      ∀ H, s.disk.block s.mem.state.highestCCBlock = some H →
        ∀ tip, tipLoop s.disk incl nd.cfg.fuel [H] H = some tip → Q tip s := by
  simp only [getTip, Proc.wp_bind, wp_getHighestCCBlock, Proc.wp_disk, Proc.wp_orDie]

theorem voters_withIndexedVote (v : Vote) (h : Hash) :
    voters (s.withIndexedVote v).disk h =
      if h = v.block then voters s.disk h ∪ {v.id} else voters s.disk h := by
  by_cases hh : h = v.block
  · subst hh
    ext i
    simp only [voters, findVotesByHash, withIndexedVote, Function.update_self,
      getD_some, if_true, Set.mem_ofPred_eq, Set.mem_union, Set.mem_singleton_iff]
    constructor
    · rintro ⟨w, hw, rfl⟩
      rcases VoteSet.mem_addVote.1 hw with hw | rfl
      · exact .inl ⟨w, hw.1, rfl⟩
      · exact .inr rfl
    · rintro (⟨w, hw, rfl⟩ | rfl)
      · by_cases hk : w.key = v.key
        · exact ⟨v, VoteSet.mem_addVote.2 (.inr rfl), (Prod.mk.inj hk).1.symm⟩
        · exact ⟨w, VoteSet.mem_addVote.2 (.inl ⟨hw, hk⟩), rfl⟩
      · exact ⟨v, VoteSet.mem_addVote.2 (.inr rfl), rfl⟩
  · rw [if_neg hh]
    simp only [voters, findVotesByHash, withIndexedVote, Function.update_of_ne hh]

theorem voteFrame_withIndexedVote (v : Vote) : VoteFrame s (s.withIndexedVote v) := by
  refine ⟨rfl, rfl, fun h => ?_⟩
  rw [voters_withIndexedVote]
  by_cases hh : h = v.block
  · rw [if_pos hh]
    exact Set.subset_union_left
  · rw [if_neg hh]

variable {v : Vote}

theorem wp_addVote {Q : Unit → EngineConf → Prop} (hv : v.block.isEmpty = false) :
    (State.addVote a.order v).wp P Q s ↔ P (s.withEpochVote a v).disk s.outs ∧
      P ((s.withEpochVote a v).withIndexedVote v).disk s.outs ∧
        Q () ((s.withEpochVote a v).withIndexedVote v) := by
  rw [State.addVote, Proc.wp_bind, addVoteToIndex, if_neg (by simp [hv])]
  rfl

theorem wp_updateEpoch (hc : Closed nd a inp I J P) (hg : Good nd I J s) (hv : v ∈ inp.votes) :
    (updateEpoch nd a v).wp P (fun _ s' => Good nd I J s' ∧ VoteFrame s s') s := by
  unfold updateEpoch
  simp only [Proc.wp_bind, wp_getLastFinalizedBlock, Proc.wp_orDie, Proc.wp_mem]
  intro lb _ next _
  by_cases hepoch : v.epoch < s.mem.state.epoch
  · rw [if_pos hepoch]
    exact ⟨hg, VoteFrame.refl s⟩
  · rw [if_neg hepoch]
    simp only [Proc.wp_bind, Proc.wp_disk, Proc.wp_orDie]
    intro all _
    by_cases hmaj : next.hasMajority a.order (VoteSet.empty.addVotes
        ((all.votes a.order).filter fun w => w.epoch ≥ v.epoch)) = true
    · rw [if_pos hmaj]
      -- moving on to the next epoch, once the relays are out
      have hmove : ∀ s₁, Good nd I J s₁ → VoteFrame s s₁ →
          s₁.mem.state.epoch = s.mem.state.epoch →
          (do
            let tip ← getTipToExtend nd
            let _ ← Proc.orDie (a.getNextProposer (nd.cfg.hash tip.header) (v.epoch + 1))
            State.setEpoch nd.cfg (v.epoch + 1)
            checkSyncStatus a
            pure true : EngineProc Bool).wp P
              (fun _ s' => Good nd I J s' ∧ VoteFrame s s') s₁ := by
        intro s₁ hg₁ hf₁ he₁
        rw [Proc.wp_bind, getTipToExtend, wp_getTip]
        intro H _ tip _
        simp only [Proc.wp_bind, Proc.wp_orDie, State.setEpoch, wp_set]
        intro proposer _
        have heff : Effect nd a inp J s₁
            (s₁.withState nd fun st => { st with epoch := v.epoch + 1 }) :=
          .setEpoch v hg₁.boundary hv (by rw [he₁]; exact UInt64.not_lt.1 hepoch)
        have hg₂ := hc.good hg₁ heff
        refine ⟨hc.crash hg₂.toMid, wp_checkSyncStatus fun synced => ?_⟩
        have hg₃ := hc.good hg₂ (.flags { (s₁.withState nd fun st =>
          { st with epoch := v.epoch + 1 }).mem with hasSynced := synced } hg₂.boundary rfl)
        exact ⟨hg₃, hf₁.trans ⟨rfl, rfl, fun _ => subset_rfl⟩⟩
      by_cases hjump : v.epoch + 1 > s.mem.state.epoch + 1
      · rw [if_pos hjump, Proc.wp_bind]
        refine Proc.wp_mono (fun _ s₁ h₁ => hmove s₁ h₁.1 h₁.2.1 h₁.2.2)
          (Proc.wp_forEach_const (fun s₁ => Good nd I J s₁ ∧ VoteFrame s s₁ ∧
            s₁.mem.state.epoch = s.mem.state.epoch) _ _ ?_ ⟨hg, VoteFrame.refl s, rfl⟩)
        rintro w s₁ - ⟨hg₁, hf₁, he₁⟩
        have hg₂ := hc.good hg₁ (.relay w hg₁.boundary)
        exact ⟨hc.crash hg₂.toMid, hg₂, hf₁.trans ⟨rfl, rfl, fun _ => subset_rfl⟩, he₁⟩
      · rw [if_neg hjump]
        exact hmove s hg (VoteFrame.refl s) rfl
    · rw [if_neg hmaj]
      exact ⟨hg, VoteFrame.refl s⟩

theorem wp_handleVote (hc : Closed nd a inp I J P) (hg : Good nd I J s) (hv : v ∈ inp.votes) :
    (handleVote nd a v).wp P (fun _ s' => Good nd I J s' ∧ VoteFrame s s' ∧
      ((v.validate nd.verify).isError = false → v.id ∈ voters s'.disk v.block)) s := by
  unfold handleVote
  by_cases hbad : (v.validate nd.verify).isError
  · rw [if_pos hbad]
    exact ⟨hg, VoteFrame.refl s, fun h => by simp [hbad] at h⟩
  · have hok : (v.validate nd.verify).isError = false := by simpa using hbad
    rw [if_neg hbad, Proc.wp_bind, wp_addVote (Vote.validate_block hok)]
    have hg₁ := hc.good hg (.epochVote v hg.boundary hv hok)
    have hg₂ := hc.good hg₁ (.indexVote v hg₁.boundary hv hok)
    refine ⟨hc.crash hg₁.toMid, hc.crash hg₂.toMid, ?_⟩
    refine Proc.wp_mono ?_ (wp_updateEpoch hc hg₂ hv)
    rintro - s' ⟨hg', hf'⟩
    have hf₁ : VoteFrame s (s.withEpochVote a v) := ⟨rfl, rfl, fun _ => subset_rfl⟩
    refine ⟨hg', (hf₁.trans (voteFrame_withIndexedVote v)).trans hf', fun _ => ?_⟩
    refine hf'.voters v.block ?_
    rw [voters_withIndexedVote, if_pos rfl]
    exact Set.mem_union_right _ rfl

structure Reached (nd : Node) (d : Store) (r : Hash) (eb : ExtendedBlock) : Prop where
  stored : d.block (nd.cfg.hash eb.header) = some eb
  path : Relation.ReflTransGen (ChildLink d) r (nd.cfg.hash eb.header)

theorem tipLoop_reached {d : Store} {incl : Bool} {r : Hash} {H : ExtendedBlock}
    (hkey : ∀ h eb, d.block h = some eb → nd.cfg.hash eb.header = h) (n : Nat)
    {stack : List ExtendedBlock} {candidate tip : ExtendedBlock}
    (hstack : ∀ x ∈ stack, x.status.isValid → Reached nd d r x) (hcand : Reached nd d r candidate ∧
      (candidate = H ∨ H.header.height < candidate.header.height))
    (h : tipLoop d incl n stack candidate = some tip) :
    Reached nd d r tip ∧ (tip = H ∨ H.header.height < tip.header.height) := by
  induction n generalizing stack candidate with
  | zero => simp [tipLoop] at h
  | succ n ih =>
    cases stack with
    | nil =>
      rw [tipLoop, some.injEq] at h
      exact h ▸ hcand
    | cons curr stack =>
      have htail : ∀ x ∈ stack, x.status.isValid → Reached nd d r x :=
        fun x hx => hstack x (.tail _ hx)
      rw [tipLoop] at h
      by_cases hv : curr.status.isValid
      · rw [if_neg (by simp [hv])] at h
        by_cases hskip : (!incl && curr.hasValidatorUpdate) = true
        · rw [if_pos hskip] at h
          exact ih htail hcand h
        · rw [if_neg hskip] at h
          have hcurr : Reached nd d r curr := hstack curr (by simp) hv
          cases hchildren : curr.children.mapM (findBlock d) with
          | none => simp [hchildren] at h
          | some children =>
            simp only [hchildren] at h
            refine ih ?_ ?_ h
            · intro x hx hxv
              rcases List.mem_append.1 hx with hx | hx
              · obtain ⟨c, hc, hcx⟩ :=
                  Ending.exists_left_of_mem (Ending.mapM_eq_some.1 hchildren) (List.mem_reverse.1 hx)
                have hxkey : nd.cfg.hash x.header = c := hkey c x hcx
                refine ⟨by rw [hxkey]; exact hcx, ?_⟩
                rw [hxkey]
                exact hcurr.path.tail ⟨curr, x, hcurr.stored, hc, hcx, hxv⟩
              · exact htail x hx hxv
            · split
              next hhigher =>
                refine ⟨hcurr, .inr ?_⟩
                rcases hcand.2 with rfl | hlt
                · exact hhigher
                · exact UInt64.lt_trans hlt hhigher
              · exact hcand
      · rw [if_pos (by simp [hv])] at h
        exact ih htail hcand h

theorem reached_tip (hw : WellFormed nd s) {incl : Bool} {H tip : ExtendedBlock}
    (hH : s.disk.block s.mem.state.highestCCBlock = some H)
    (h : tipLoop s.disk incl nd.cfg.fuel [H] H = some tip) :
    Reached nd s.disk s.mem.state.highestCCBlock tip ∧
      (tip = H ∨ H.header.height < tip.header.height) := by
  have hkey := hw.key _ H hH
  have hcc : Reached nd s.disk s.mem.state.highestCCBlock H :=
    ⟨by rw [hkey]; exact hH, by rw [hkey]⟩
  exact tipLoop_reached hw.key _ (fun x hx _ => List.mem_singleton.1 hx ▸ hcc)
    ⟨hcc, .inl rfl⟩ h

theorem wp_vote (hc : Closed nd a inp I J P) (hg : Good nd I J s) :
    (vote nd a).wp P (fun _ s' => Good nd I J s' ∧ Frame s s') s := by
  unfold vote
  rw [Proc.wp_bind, getTipToVote, wp_getTip]
  intro H hH tip htip
  obtain ⟨hr, hhigh⟩ := reached_tip hg.wf hH htip
  simp only [Proc.wp_bind, Proc.wp_orDie]
  intro vs _
  by_cases hmember : (vs.getValidator nd.id).isNone
  · rw [if_pos hmember]
    exact ⟨hg, Frame.refl s⟩
  · rw [if_neg hmember, Proc.wp_bind]
    unfold chooseVote
    simp only [Proc.wp_bind, Proc.wp_mem, wp_getHighestCCBlock]
    intro H' _
    by_cases hold : (decide (s.mem.state.lastVote.height ≠ 0) &&
        (decide (s.mem.state.lastVote.height ≥ tip.header.height) ||
          decide (tip.header.hcc.blockHash ≠ nd.cfg.hash H'.header))) = true
    · rw [if_pos hold]
      simp only [Proc.wp_bind, Proc.wp_disk, Proc.wp_orDie, findBlock, Proc.wp_pure]
      intro lb hlb
      have hne : s.mem.state.lastVote.height ≠ 0 := by
        simp only [Bool.and_eq_true, decide_eq_true_eq] at hold
        exact hold.1
      obtain ⟨eb, heb, hheight⟩ := hg.wf.lastVote hne
      have hsame : eb = lb := some.inj (heb.symm.trans hlb)
      rw [hsame] at hheight
      have hg' := hc.good hg (.castVote (createVote nd a s.mem.state.epoch lb.block)
        hg.boundary rfl (fun hz => hne (by rw [hz]; rfl)) (hg.wf.key _ lb hlb) hheight
        fun h0 => absurd (hheight.symm.trans h0) hne)
      exact ⟨hc.crash hg'.toMid, hg', Frame.of_eq rfl rfl⟩
    · rw [if_neg hold]
      simp only [Proc.wp_pure, Proc.wp_mem, if_true, State.setLastVote, Proc.wp_bind, wp_set,
        Proc.wp_output]
      have hlast : s.mem.state.lastVote.height = 0 ∨
          s.mem.state.lastVote.height < tip.header.height := by
        by_cases h0 : s.mem.state.lastVote.height = 0
        · exact .inl h0
        · refine .inr (UInt64.not_le.1 fun hle => hold ?_)
          simp [h0, hle]
      have hzero : tip.header.height = 0 → nd.cfg.hash tip.header = nd.cfg.root := by
        intro h0
        rcases hhigh with rfl | hlt
        · obtain ⟨H, hH', hv, hrec⟩ := hg.wf.highestCC
          rw [some.inj (hH'.symm.trans hH)] at hv hrec
          rw [hg.wf.key _ tip hH]
          exact hg.wf.eq_root_of_height_zero hH hrec hv h0
        · rw [h0] at hlt
          exact absurd hlt UInt64.not_lt_zero
      have hg₁ := hc.good hg (.newVote (createVote nd a s.mem.state.epoch tip.block) tip
        H hg.boundary rfl hr.stored rfl hH hhigh hr.path hlast)
      have hg₂ := hc.good hg₁ (.castVote (createVote nd a s.mem.state.epoch tip.block)
        hg₁.boundary rfl (fun hz => some_ne_none _ (congrArg Vote.signature hz)) rfl rfl
        hzero)
      exact ⟨hc.crash hg₁.toMid, hc.crash hg₂.toMid, hg₂, Frame.of_eq rfl rfl⟩

end ThetaSubchain
