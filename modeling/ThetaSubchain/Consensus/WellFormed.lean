/-
The invariant of a single node.

`WellFormed` holds between any two elementary changes of a node, whatever messages
arrive and wherever the node is stopped.
-/
import ThetaSubchain.Consensus.Effects

namespace ThetaSubchain

open Durable EngineConf BlockStatus Option

/-- The durable record holds the consensus state, except for the last proposal. -/
def Synced (nd : Node) (s : EngineConf) : Prop :=
  { State.load nd.cfg s.disk with lastProposal := s.mem.state.lastProposal } = s.mem.state

structure WellFormed (nd : Node) (s : EngineConf) : Prop where
  synced : Synced nd s
  key : ∀ h eb, s.disk.block h = some eb → nd.cfg.hash eb.header = h
  root : ∃ eb, s.disk.block nd.cfg.root = some eb ∧ eb.status.isFinalized
  status : ∀ h eb, s.disk.block h = some eb → Recent nd s.disk eb →
    eb.status ≠ .trusted ∧ eb.status ≠ .disposed
  /-- A valid block other than the root has a valid parent one below it. -/
  parent : ∀ h eb, s.disk.block h = some eb → Recent nd s.disk eb → eb.status.isValid →
    h ≠ nd.cfg.root → ∃ pb, s.disk.block eb.header.parent = some pb ∧ pb.status.isValid ∧
      Recent nd s.disk pb ∧ eb.header.height.toNat = pb.header.height.toNat + 1
  votes : ∀ h v, v ∈ Chain.findVotesByHash s.disk h → v.block = h
  highestCC : ∃ eb, s.disk.block s.mem.state.highestCCBlock = some eb ∧ eb.status.isValid ∧
    Recent nd s.disk eb
  lastFinalized : ∃ eb, s.disk.block s.mem.state.lastFinalizedBlock = some eb ∧
    eb.status.isValid ∧ Recent nd s.disk eb
  lastVote : s.mem.state.lastVote.height ≠ 0 →
    ∃ eb, s.disk.block s.mem.state.lastVote.block = some eb ∧
      eb.header.height = s.mem.state.lastVote.height
  committed : ∀ h eb H, s.disk.block h = some eb → eb.status = .committed →
    s.disk.block s.mem.state.highestCCBlock = some H → eb.header.height ≤ H.header.height

variable {nd : Node} {a : Answers} {inp : Inputs} {J : EngineConf → Prop} {s s' : EngineConf}

/-- A store that keeps every block, with its content, and keeps valid and finalized
blocks valid and finalized. -/
def Store.Grows (d d' : Store) : Prop :=
  ∀ h eb, d.block h = some eb → ∃ eb', d'.block h = some eb' ∧ eb'.block = eb.block ∧
    (eb.status.isValid → eb'.status.isValid) ∧ (eb.status.isFinalized → eb'.status.isFinalized)

theorem Store.Grows.refl (d : Store) : d.Grows d := fun _ eb h => ⟨eb, h, rfl, id, id⟩

variable {eb eb' : ExtendedBlock} {d d' : Store}

theorem Store.Grows.header (hg : d.Grows d') {h : Hash} (hb : d.block h = some eb)
    (hb' : d'.block h = some eb') : eb'.header = eb.header := by
  obtain ⟨x, hx, hblock, -, -⟩ := hg h eb hb
  rw [hb', some.injEq] at hx
  rw [ExtendedBlock.header, ExtendedBlock.header, hx, hblock]

theorem rootHeight_grows (hg : d.Grows d') {rb : ExtendedBlock}
    (hr : d.block nd.cfg.root = some rb) :
    rootHeight nd d' = rootHeight nd d := by
  obtain ⟨rb', hr', hblock, -, -⟩ := hg _ rb hr
  rw [rootHeight, rootHeight, hr, hr']
  show rb'.block.header.height.toNat = rb.block.header.height.toNat
  rw [hblock]

section Synced

variable (h : Synced nd s)
include h

theorem Synced.highestCC :
    (State.load nd.cfg s.disk).highestCCBlock = s.mem.state.highestCCBlock := by
  rw [← show _ = s.mem.state from h]

theorem Synced.lastFinalized :
    (State.load nd.cfg s.disk).lastFinalizedBlock = s.mem.state.lastFinalizedBlock := by
  rw [← show _ = s.mem.state from h]

theorem Synced.lastVote : (State.load nd.cfg s.disk).lastVote = s.mem.state.lastVote := by
  rw [← show _ = s.mem.state from h]

theorem Synced.epoch : (State.load nd.cfg s.disk).epoch = s.mem.state.epoch := by
  rw [← show _ = s.mem.state from h]

end Synced

theorem load_grows (hg : d.Grows d') (hstub : d'.stub = d.stub) {rb : ExtendedBlock}
    (hr : d.block nd.cfg.root = some rb) : State.load nd.cfg d' = State.load nd.cfg d := by
  obtain ⟨rb', hr', hblock, -, -⟩ := hg _ rb hr
  simp only [State.load, hstub, Chain.findBlock, hr, hr', ExtendedBlock.header, hblock]

theorem recent_of_lt {x y : ExtendedBlock} {d : Store} (hx : Recent nd d x)
    (h : x.header.height < y.header.height) : Recent nd d y :=
  le_trans hx (UInt64.lt_iff_toNat_lt.1 h).le

variable (hw : WellFormed nd s)
include hw

theorem WellFormed.recent_highestCC {H : ExtendedBlock}
    (hH : s.disk.block s.mem.state.highestCCBlock = some H) : Recent nd s.disk H := by
  obtain ⟨H', hH', -, hrec⟩ := hw.highestCC
  rwa [some.inj (hH'.symm.trans hH)] at hrec

theorem WellFormed.ne_root {h : Hash} {eb : ExtendedBlock}
    (hb : s.disk.block h = some eb) (hfin : ¬ eb.status.isFinalized) : h ≠ nd.cfg.root := by
  intro heq
  obtain ⟨rb, hrb, hrfin⟩ := hw.root
  rw [heq] at hb
  exact hfin (some.inj (hrb.symm.trans hb) ▸ hrfin)

theorem WellFormed.eq_root_of_height_zero {h : Hash} {eb : ExtendedBlock}
    (hb : s.disk.block h = some eb) (hrec : Recent nd s.disk eb) (hv : eb.status.isValid)
    (h0 : eb.header.height = 0) : h = nd.cfg.root := by
  by_contra hne
  obtain ⟨pb, -, -, -, hheight⟩ := hw.parent h eb hb hrec hv hne
  rw [h0] at hheight
  simp at hheight

omit hw

theorem synced_withState (f : State → State) : Synced nd (s.withState nd f) := by
  simp [Synced, withState, State.load, State.getSummary]

@[simp] theorem withBlock_mem (h : Hash) (eb : ExtendedBlock) :
    (s.withBlock h eb).mem = s.mem := rfl

theorem withBlock_block (h x : Hash) (eb : ExtendedBlock) :
    (s.withBlock h eb).disk.block x = if x = h then some eb else s.disk.block x := by
  simp only [withBlock, Chain.Store.setBlock, Function.update_apply]

theorem isValid_of_isFinalized {st : BlockStatus} (h : st.isFinalized) : st.isValid := by
  cases st <;> simp_all [isFinalized, isValid]

theorem grows_withBlock {h : Hash} (hb : s.disk.block h = some eb) (hblock : eb'.block = eb.block)
    (hvalid : eb.status.isValid → eb'.status.isValid)
    (hfin : eb.status.isFinalized → eb'.status.isFinalized) :
    s.disk.Grows (s.withBlock h eb').disk := by
  intro x xb hx
  rw [withBlock_block]
  by_cases hxh : x = h
  · subst hxh
    rw [hb, some.injEq] at hx
    subst hx
    exact ⟨eb', if_pos rfl, hblock, hvalid, hfin⟩
  · exact ⟨xb, by rw [if_neg hxh, hx], rfl, id, id⟩

theorem grows_newBlock {h : Hash} {eb : ExtendedBlock} (hnew : s.disk.block h = none) :
    s.disk.Grows (s.withBlock h eb).disk := by
  intro x xb hx
  refine ⟨xb, ?_, rfl, id, id⟩
  rw [withBlock_block, if_neg, hx]
  intro hxh
  rw [hxh, hnew] at hx
  cases hx

include hw

theorem WellFormed.of_grows (hg : s.disk.Grows s'.disk)
    (hmem : s'.mem.state = s.mem.state) (hstub : s'.disk.stub = s.disk.stub)
    (hvotes : s'.disk.votes = s.disk.votes)
    (hnew : ∀ h eb', s'.disk.block h = some eb' → s.disk.block h ≠ some eb' →
      nd.cfg.hash eb'.header = h ∧
      (Recent nd s.disk eb' → eb'.status ≠ .trusted ∧ eb'.status ≠ .disposed) ∧
      (Recent nd s.disk eb' → eb'.status.isValid → h ≠ nd.cfg.root →
        ∃ pb, s.disk.block eb'.header.parent = some pb ∧ pb.status.isValid ∧
          Recent nd s.disk pb ∧ eb'.header.height.toNat = pb.header.height.toNat + 1) ∧
      (eb'.status = .committed → ∀ H, s.disk.block s.mem.state.highestCCBlock = some H →
        eb'.header.height ≤ H.header.height)) : WellFormed nd s' := by
  -- a block that did not change satisfies what it satisfied before
  have hold : ∀ h eb', s'.disk.block h = some eb' →
      s.disk.block h = some eb' ∨ s.disk.block h ≠ some eb' := fun h eb' _ => em _
  have hgrow : ∀ h eb, s.disk.block h = some eb → ∃ eb', s'.disk.block h = some eb' ∧
      eb'.header = eb.header ∧ (eb.status.isValid → eb'.status.isValid) := by
    intro h eb hb
    obtain ⟨eb', hb', hblock, hv, -⟩ := hg h eb hb
    exact ⟨eb', hb', by rw [ExtendedBlock.header, hblock], hv⟩
  obtain ⟨rb, hr, hrfin⟩ := hw.root
  have hrecent : ∀ {x y : ExtendedBlock}, x.header = y.header →
      (Recent nd s'.disk x ↔ Recent nd s.disk y) := by
    intro x y hxy
    rw [Recent, Recent, rootHeight_grows hg hr, hxy]
  constructor
  · rw [Synced, load_grows hg hstub hr, hmem]
    exact hw.synced
  · intro h eb' hb'
    rcases hold h eb' hb' with hb | hb
    · exact hw.key h eb' hb
    · exact (hnew h eb' hb' hb).1
  · obtain ⟨rb', hr', -, -, hf'⟩ := hg _ rb hr
    exact ⟨rb', hr', hf' hrfin⟩
  · intro h eb' hb' hrec
    rw [hrecent rfl] at hrec
    rcases hold h eb' hb' with hb | hb
    · exact hw.status h eb' hb hrec
    · exact (hnew h eb' hb' hb).2.1 hrec
  · intro h eb' hb' hrec hv hroot
    rw [hrecent rfl] at hrec
    have hparent : ∃ pb, s.disk.block eb'.header.parent = some pb ∧ pb.status.isValid ∧
        Recent nd s.disk pb ∧ eb'.header.height.toNat = pb.header.height.toNat + 1 := by
      rcases hold h eb' hb' with hb | hb
      · exact hw.parent h eb' hb hrec hv hroot
      · exact (hnew h eb' hb' hb).2.2.1 hrec hv hroot
    obtain ⟨pb, hp, hpv, hprec, hh⟩ := hparent
    obtain ⟨pb', hp', hhead, hpv'⟩ := hgrow _ pb hp
    exact ⟨pb', hp', hpv' hpv, (hrecent hhead).2 hprec, by rw [hhead]; exact hh⟩
  · intro h v hv
    rw [Chain.findVotesByHash, hvotes] at hv
    exact hw.votes h v hv
  · obtain ⟨eb, hb, hv, hrec⟩ := hw.highestCC
    obtain ⟨eb', hb', hhead, hv'⟩ := hgrow _ eb hb
    exact ⟨eb', by rw [hmem]; exact hb', hv' hv, (hrecent hhead).2 hrec⟩
  · obtain ⟨eb, hb, hv, hrec⟩ := hw.lastFinalized
    obtain ⟨eb', hb', hhead, hv'⟩ := hgrow _ eb hb
    exact ⟨eb', by rw [hmem]; exact hb', hv' hv, (hrecent hhead).2 hrec⟩
  · intro hne
    rw [hmem] at hne ⊢
    obtain ⟨eb, hb, hh⟩ := hw.lastVote hne
    obtain ⟨eb', hb', hhead, -⟩ := hgrow _ eb hb
    exact ⟨eb', hb', by rw [hhead]; exact hh⟩
  · intro h eb' H' hb' hcommit hH'
    rw [hmem] at hH'
    obtain ⟨H, hH, -⟩ := hw.highestCC
    have hheader : H'.header = H.header := hg.header hH hH'
    rw [hheader]
    rcases hold h eb' hb' with hb | hb
    · exact hw.committed h eb' H hb hcommit hH
    · exact (hnew h eb' hb' hb).2.2.2 hcommit H hH

theorem WellFormed.of_block_eq (hsynced : Synced nd s')
    (hblock : s'.disk.block = s.disk.block) (hvotes : s'.disk.votes = s.disk.votes)
    (hcc : ∃ eb, s.disk.block s'.mem.state.highestCCBlock = some eb ∧ eb.status.isValid ∧
      Recent nd s.disk eb) (hcommit : ∀ h eb H, s.disk.block h = some eb → eb.status = .committed →
      s.disk.block s'.mem.state.highestCCBlock = some H → eb.header.height ≤ H.header.height)
    (hlf : ∃ eb, s.disk.block s'.mem.state.lastFinalizedBlock = some eb ∧ eb.status.isValid ∧
      Recent nd s.disk eb) (hvote : s'.mem.state.lastVote.height ≠ 0 →
      ∃ eb, s.disk.block s'.mem.state.lastVote.block = some eb ∧
        eb.header.height = s'.mem.state.lastVote.height) : WellFormed nd s' := by
  have hrecent : Recent nd s'.disk = Recent nd s.disk := by
    funext eb
    rw [Recent, Recent, rootHeight, rootHeight, hblock]
  constructor
  · exact hsynced
  · rw [hblock]; exact hw.key
  · rw [hblock]; exact hw.root
  · rw [hblock, hrecent]; exact hw.status
  · rw [hblock, hrecent]; exact hw.parent
  · intro h v hv
    rw [Chain.findVotesByHash, hvotes] at hv
    exact hw.votes h v hv
  · rw [hblock, hrecent]; exact hcc
  · rw [hblock, hrecent]; exact hlf
  · rw [hblock]; exact hvote
  · rw [hblock]; exact hcommit

theorem WellFormed.of_eq (hblock : s'.disk.block = s.disk.block)
    (hvotes : s'.disk.votes = s.disk.votes) (hstub : s'.disk.stub = s.disk.stub)
    (hmem : s'.mem.state = s.mem.state) : WellFormed nd s' := by
  refine hw.of_block_eq ?_ hblock hvotes ?_ ?_ ?_ ?_
  · simp only [Synced, State.load, hstub, Chain.findBlock, hblock, hmem]
    exact hw.synced
  · rw [hmem]; exact hw.highestCC
  · rw [hmem]; exact hw.committed
  · rw [hmem]; exact hw.lastFinalized
  · rw [hmem]; exact hw.lastVote

theorem WellFormed.withBlock {h : Hash} (hb : s.disk.block h = some eb)
    (hblock : eb'.block = eb.block) (hvalid : eb.status.isValid → eb'.status.isValid)
    (hfin : eb.status.isFinalized → eb'.status.isFinalized)
    (hst : Recent nd s.disk eb → eb'.status ≠ .trusted ∧ eb'.status ≠ .disposed)
    (hparent : Recent nd s.disk eb → eb'.status.isValid → h ≠ nd.cfg.root → ∃ pb, s.disk.block
      eb.header.parent = some pb ∧ pb.status.isValid ∧ Recent nd s.disk pb ∧ eb.header.height.toNat
      = pb.header.height.toNat + 1)
    (hcommit : eb'.status = .committed → ∀ H, s.disk.block s.mem.state.highestCCBlock = some H →
      eb.header.height ≤ H.header.height) : WellFormed nd (s.withBlock h eb') := by
  have hheader : eb'.header = eb.header := by rw [ExtendedBlock.header, hblock]
  refine hw.of_grows (grows_withBlock hb hblock hvalid hfin) rfl rfl rfl ?_
  intro x xb hx hne
  rw [withBlock_block] at hx
  by_cases hxh : x = h
  · rw [if_pos hxh, some.injEq] at hx
    subst hx hxh
    have hrecent : Recent nd s.disk eb' ↔ Recent nd s.disk eb := by
      rw [Recent, Recent, hheader]
    rw [hrecent, hheader]
    exact ⟨hw.key x eb hb, hst, hparent, hcommit⟩
  · rw [if_neg hxh] at hx
    exact absurd hx hne

theorem WellFormed.newBlock {b : Block} {children : List Hash}
    (hnew : s.disk.block (nd.cfg.hash b.header) = none) :
    WellFormed nd (s.withBlock (nd.cfg.hash b.header) ⟨b, children, .pending, false⟩) := by
  refine hw.of_grows (grows_newBlock hnew) rfl rfl rfl ?_
  intro x xb hx hne
  rw [withBlock_block] at hx
  by_cases hxh : x = nd.cfg.hash b.header
  · rw [if_pos hxh, some.injEq] at hx
    subst hx hxh
    refine ⟨rfl, ?_, ?_, ?_⟩
    all_goals simp [isValid]
  · rw [if_neg hxh] at hx
    exact absurd hx hne

theorem WellFormed.indexVote (v : Vote) : WellFormed nd (s.withIndexedVote v) := by
  refine ⟨hw.synced, hw.key, hw.root, hw.status, hw.parent, ?_, hw.highestCC, hw.lastFinalized,
    hw.lastVote, hw.committed⟩
  intro h w hmem
  simp only [Chain.findVotesByHash, withIndexedVote, Function.update_apply] at hmem
  by_cases hh : h = v.block
  · rw [if_pos hh, getD_some, VoteSet.mem_addVote] at hmem
    rcases hmem with hmem | rfl
    · exact hh ▸ hw.votes v.block w hmem.1
    · exact hh.symm
  · rw [if_neg hh] at hmem
    exact hw.votes h w hmem

theorem WellFormed.mid (h : MidEffect nd a J s s') : WellFormed nd s' := by
  cases h with
  | flags e he => exact hw.of_eq rfl rfl rfl he
  | setLastFinalized c p pb hJ hc hp hvalid hrecent =>
    exact hw.of_block_eq (synced_withState _) rfl rfl hw.highestCC hw.committed
      ⟨pb, hp, hvalid, hrecent⟩ hw.lastVote
  | markFinalized c h eb lb st hc hl hpath hb hvalid hrecent hle hst =>
    refine hw.withBlock hb rfl ?_ ?_ ?_ (fun hr _ => hw.parent h eb hb hr hvalid) ?_
    all_goals rcases hst with rfl | rfl <;> simp [isValid, isFinalized]

theorem WellFormed.effect (h : Effect nd a inp J s s') : WellFormed nd s' := by
  cases h with
  | flags e hJ he => exact hw.of_eq rfl rfl rfl he
  | linkChild b pb hJ hb hnew hp =>
    exact hw.withBlock hp rfl id id (hw.status _ pb hp) (hw.parent _ pb hp)
      fun hc H => hw.committed _ pb H hp hc
  | newBlock b children hJ hb hnew hchildren => exact hw.newBlock hnew
  | heightIndex f hJ hb => exact hw.of_eq rfl rfl rfl rfl
  | epochVote v hJ hv hok => exact hw.of_eq rfl rfl rfl rfl
  | indexVote v hJ hv hok => exact hw.indexVote v
  | setEpoch v hJ hv hepoch =>
    exact hw.of_block_eq (synced_withState _) rfl rfl hw.highestCC hw.committed hw.lastFinalized
      hw.lastVote
  | relay v hJ => exact hw.of_eq rfl rfl rfl rfl
  | markInvalid h eb hJ hb hpending =>
    refine hw.withBlock hb rfl ?_ ?_ (by simp) ?_ (by simp)
    all_goals simp [hpending, isValid, isFinalized]
  | markUpdate h eb hJ hb hpending happly =>
    exact hw.withBlock hb rfl id id (hw.status h eb hb) (hw.parent h eb hb)
      fun hc H => hw.committed h eb H hb hc
  | markValid h eb pb hJ hb hpending hp hvalid hrecent hheight hcov happly =>
    refine hw.withBlock hb rfl (fun _ => by simp [isValid]) ?_ (by simp)
      (fun _ _ _ => ⟨pb, hp, hvalid, hrecent, hheight⟩) (by simp)
    simp [hpending, isFinalized]
  | newVote v tip H hJ hid htip hheight hH hhigh hpath hlast =>
    exact hw.of_block_eq (synced_withState _) rfl rfl hw.highestCC hw.committed hw.lastFinalized
      fun _ => ⟨tip, htip, hheight⟩
  | castVote v hJ hid hvoted hblock hheight hzero => exact hw.of_eq rfl rfl rfl rfl
  | setHighestCC h eb H hJ hb hvalid hH hlt hmaj hover =>
    have hrecent : Recent nd s.disk eb := recent_of_lt (hw.recent_highestCC hH) hlt
    refine hw.of_block_eq (synced_withState _) rfl rfl ⟨eb, hb, by simp [hvalid, isValid], hrecent⟩ ?_
      hw.lastFinalized hw.lastVote
    -- the highest CC block only moves up
    intro x xb H' hx hcommit hH'
    have hH'eq : H' = eb := some.inj (hH'.symm.trans hb)
    rw [hH'eq]
    exact UInt64.le_of_lt (UInt64.lt_of_le_of_lt (hw.committed x xb H hx hcommit hH) hlt)
  | commit eb hJ hb hvalid =>
    refine hw.withBlock hb rfl (fun _ => by simp [isValid]) ?_ (by simp)
      (fun hr _ => hw.parent _ eb hb hr (by simp [hvalid, isValid])) ?_
    · simp [hvalid, isFinalized]
    · intro _ H hH
      rw [hb, some.injEq] at hH
      rw [hH]
      exact UInt64.le_refl _
  | newProposal p b hJ hp hepoch hlast =>
    refine hw.of_block_eq ?_ rfl rfl hw.highestCC hw.committed hw.lastFinalized hw.lastVote
    exact congrArg (fun st : State => { st with lastProposal := p }) hw.synced
  | castProposal b hJ hb hepoch => exact hw.of_eq rfl rfl rfl rfl

theorem WellFormed.restart : WellFormed nd ⟨Engine.new nd.cfg s.disk, s.disk, s.outs⟩ := by
  refine hw.of_block_eq rfl rfl rfl ?_ ?_ ?_ ?_
  · simp only [Engine.new, hw.synced.highestCC]; exact hw.highestCC
  · simp only [Engine.new, hw.synced.highestCC]; exact hw.committed
  · simp only [Engine.new, hw.synced.lastFinalized]; exact hw.lastFinalized
  · simp only [Engine.new, hw.synced.lastVote]; exact hw.lastVote

end ThetaSubchain
