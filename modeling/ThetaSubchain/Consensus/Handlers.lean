/-
The handlers of the main loop, and one step of a node.

`wp_step` is the result of the whole walk through the engine: a step keeps every
invariant that is closed under the effects, and the crash condition holds after each
of its writes and outputs.
-/
import ThetaSubchain.Blockchain.Rehash
import ThetaSubchain.Consensus.Walk

namespace ThetaSubchain

open Durable EngineConf Engine ExtendedBlock Chain Option Result

variable {nd : Node} {a : Answers} {inp : Inputs} {I J : EngineConf → Prop}
  {P : Store → List Output → Prop} {s s' : EngineConf}

theorem height_toNat {x y : UInt64} (h : x + 1 = y) (hy : y ≠ 0) : y.toNat = x.toNat + 1 := by
  have hne : y.toNat ≠ 0 := fun h0 => hy (UInt64.toNat_inj.1 h0)
  have hlt := x.toNat_lt
  have hadd : y.toNat = (x.toNat + 1) % 2 ^ 64 := by rw [← h, UInt64.toNat_add]; rfl
  omega

variable {parent : ExtendedBlock} {res : Result} {block : Block} {d : Store}

theorem validateHCC_ok (h : validateHCC nd a d block parent = some res)
    (hok : res.isError = false) :
    ∃ hb, d.block block.header.hcc.blockHash = some hb ∧ (hb.status.isFinalized ∨
      ∃ vs, a.getValidatorSet block.header.hcc.blockHash = some vs ∧
        block.header.hcc.isValid nd.verify a.order vs = true) := by
  unfold validateHCC at h
  split at h
  · cases h
    simp [isError] at hok
  cases hb : findBlock d block.header.hcc.blockHash with
  | none =>
    simp only [hb] at h
    cases h
    simp [isError] at hok
  | some hb' =>
    refine ⟨hb', hb, ?_⟩
    by_cases hfin : hb'.status.isFinalized
    · exact .inl hfin
    · refine .inr ?_
      simp only [hb, if_neg hfin] at h
      cases hvs : a.getValidatorSet block.header.hcc.blockHash with
      | none => simp [hvs] at h
      | some vs =>
        refine ⟨vs, rfl, ?_⟩
        by_contra hbad
        rw [Bool.not_eq_true] at hbad
        simp [hvs, hbad] at h
        rw [← h] at hok
        simp [isError] at hok

variable {low : UInt64}

theorem validateBlock_cases (h : validateBlock nd a d low block parent = some res)
    (hok : res.isError = false) :
    parent.status.isValid ∧ low < block.header.height ∧
      block.header.height.toNat = parent.header.height.toNat + 1 ∧
      ∃ r, validateHCC nd a d block parent = some r ∧ r.isError = false := by
  have herr : ∀ {m : String}, some (error m) = some res → False := by
    intro m hm
    cases hm
    simp [isError] at hok
  unfold validateBlock at h
  split at h
  · exact (herr h).elim
  next hlow =>
  split at h
  · exact (herr h).elim
  next hheight =>
  simp only [bind_eq_bind, bind_eq_some_iff] at h
  obtain ⟨pt, _, ts, _, h⟩ := h
  split at h
  · exact (herr h).elim
  split at h
  · exact (herr h).elim
  split at h
  · split at h
    · cases h
    · exact (herr h).elim
  next hvalid =>
  simp only [bind_eq_some_iff] at h
  obtain ⟨r, hr, h⟩ := h
  have hr_ok : r.isError = false := by
    by_contra hbad
    rw [Bool.not_eq_false] at hbad
    rw [if_pos hbad] at h
    cases h
    rw [hbad] at hok
    cases hok
  refine ⟨by simpa using hvalid, UInt64.not_le.1 hlow, height_toNat (not_not.1 hheight) ?_,
    r, hr, hr_ok⟩
  intro h0
  exact hlow (by rw [h0]; exact UInt64.zero_le)

theorem validateBlock_ok (h : validateBlock nd a d low block parent = some res)
    (hok : res.isError = false) :
    parent.status.isValid ∧ low < block.header.height ∧
      block.header.height.toNat = parent.header.height.toNat + 1 ∧
      ∃ hb, d.block block.header.hcc.blockHash = some hb ∧ (hb.status.isFinalized ∨
        ∃ vs, a.getValidatorSet block.header.hcc.blockHash = some vs ∧
          block.header.hcc.isValid nd.verify a.order vs = true) := by
  obtain ⟨hvalid, hlow, hheight, r, hr, hr_ok⟩ := validateBlock_cases h hok
  exact ⟨hvalid, hlow, hheight, validateHCC_ok hr hr_ok⟩

theorem CoveredBy.grows {d d' : Store} {x p : Hash} (h : CoveredBy a d x p) (hg : d.Grows d')
    (hv : d'.votes = d.votes) : CoveredBy a d' x p := by
  obtain ⟨H, pb, hH, hp, hcase⟩ := h
  obtain ⟨H', hH', hHblock, -, -⟩ := hg x H hH
  obtain ⟨pb', hp', hpblock, -, hfin⟩ := hg p pb hp
  have hmaj : Majority a d p → Majority a d' p := by
    rintro ⟨vs, hvs, hq⟩
    have hvoters : voters d' p = voters d p := by simp only [voters, findVotesByHash, hv]
    exact ⟨vs, hvs, by rw [hvoters]; exact hq⟩
  refine ⟨H', pb', hH', hp', ?_⟩
  simp only [header, hHblock, hpblock]
  rcases hcase with h | h | ⟨h, hm⟩
  · exact .inl (hfin h)
  · exact .inr (.inl h)
  · exact .inr (.inr ⟨h, hmaj hm⟩)

structure Ready (nd : Node) (a : Answers) (s : EngineConf) (h : Hash) (eb : ExtendedBlock) : Prop where
  stored : s.disk.block h = some eb
  pending : eb.status = .pending
  parent : ∃ pb, s.disk.block eb.header.parent = some pb ∧ pb.status.isValid ∧
    Recent nd s.disk pb ∧ eb.header.height.toNat = pb.header.height.toNat + 1
  covered : a.NonNegStakes → eb.header.hcc.blockHash = eb.header.parent →
    CoveredBy a s.disk s.mem.state.highestCCBlock eb.header.parent

variable {eb : ExtendedBlock}

theorem Ready.markUpdate (hw : WellFormed nd s) {h : Hash} (hr : Ready nd a s h eb) :
    Ready nd a (s.withBlock h { eb with hasValidatorUpdate := true }) h
      { eb with hasValidatorUpdate := true } := by
  have hgrows : s.disk.Grows (s.withBlock h { eb with hasValidatorUpdate := true }).disk :=
    grows_withBlock hr.stored rfl id id
  obtain ⟨pb, hp, hv, hrec, hheight⟩ := hr.parent
  obtain ⟨pb', hp', hblock, hv', -⟩ := hgrows _ pb hp
  obtain ⟨rb, hroot, -⟩ := hw.root
  refine ⟨?_, hr.pending, ⟨pb', hp', hv' hv, ?_, ?_⟩, ?_⟩
  · rw [withBlock_block, if_pos rfl]
  · rw [Recent, rootHeight_grows hgrows hroot, header, hblock]
    exact hrec
  · rw [header, header, hblock]
    exact hheight
  · exact fun hs hcc => (hr.covered hs hcc).grows hgrows rfl

variable (hc : Closed nd a inp I J P)
include hc

variable (hg : Good nd I J s)
include hg

theorem wp_acceptBlock (hr : Ready nd a s (nd.cfg.hash eb.header) eb) {update : Option Bool}
    (happly : a.applyBlockTxs eb.block = (.ok, update)) :
    (acceptBlock nd a eb.block update).wp P (fun _ => Good nd I J) s := by
  -- from marking the block as valid on
  have hvalid : ∀ s₁ eb₁, Good nd I J s₁ → eb₁.block = eb.block →
      (update = some true → eb₁.hasValidatorUpdate = true) → Ready nd a s₁ (nd.cfg.hash eb.header) eb₁ → (do
        markBlockValid nd.cfg (nd.cfg.hash eb.header)
        let e ← Proc.mem
        if eb.header.epoch = e.state.epoch - 1 || eb.header.epoch = e.state.epoch then
          Proc.modifyMem fun e => { e with blockProcessed := true }
          if e.voteTimerReady then vote nd a
        checkCC nd a (nd.cfg.hash eb.header) : EngineProc Unit).wp P
          (fun _ => Good nd I J) s₁ := by
    intro s₁ eb₁ hg₁ hblock hflag hr₁
    rw [Proc.wp_bind, markBlockValid, wp_updateBlock]
    intro eb₂ hb₂
    have hsame : eb₁ = eb₂ := some.inj (hr₁.stored.symm.trans hb₂)
    subst hsame
    obtain ⟨pb, hp, hpv, hrec, hheight⟩ := hr₁.parent
    have hg₂ := hc.good hg₁ (.markValid (nd.cfg.hash eb.header) eb₁ pb hg₁.boundary hr₁.stored
      hr₁.pending hp hpv hrec hheight hr₁.covered ⟨update, hblock ▸ happly, hflag⟩)
    have hsave : nd.cfg.hash (header { eb₁ with status := .valid }) =
        nd.cfg.hash eb.header := congrArg (fun b : Block => nd.cfg.hash b.header) hblock
    rw [hsave]
    refine ⟨hc.crash hg₂.toMid, ?_⟩
    have hcheck : ∀ s₃, Good nd I J s₃ →
        (checkCC nd a (nd.cfg.hash eb.header)).wp P (fun _ => Good nd I J) s₃ :=
      fun s₃ hg₃ => Proc.wp_mono (fun _ _ h => h.1) (wp_checkCC hc hg₃ _)
    rw [Proc.wp_bind, Proc.wp_mem]
    split
    · simp only [Proc.wp_bind, Proc.wp_modifyMem]
      have hg₃ := hc.good hg₂ (.flags { (s₁.withBlock (nd.cfg.hash eb.header)
        { eb₁ with status := .valid }).mem with blockProcessed := true } hg₂.boundary rfl)
      split
      · rw [Proc.wp_bind]
        exact Proc.wp_mono (fun _ s₄ h => hcheck s₄ h.1) (wp_vote hc hg₃)
      · exact hcheck _ hg₃
    · exact hcheck _ hg₂
  unfold acceptBlock
  by_cases hupdate : update = some true
  · rw [if_pos hupdate, Proc.wp_bind, markBlockHasValidatorUpdate, wp_updateBlock]
    intro eb' hb'
    have hsame : eb = eb' := some.inj (hr.stored.symm.trans hb')
    subst hsame
    have hg₁ := hc.good hg (.markUpdate (nd.cfg.hash eb.header) eb hg.boundary hr.stored hr.pending
      (hupdate ▸ happly))
    exact ⟨hc.crash hg₁.toMid,
      hvalid _ { eb with hasValidatorUpdate := true } hg₁ rfl (fun _ => rfl) (hr.markUpdate hg.wf)⟩
  · rw [if_neg hupdate]
    exact hvalid s eb hg rfl (fun h => absurd h hupdate) hr

theorem wp_markBlockInvalid
    (hb : s.disk.block (nd.cfg.hash eb.header) = some eb) (hpending : eb.status = .pending) :
    (markBlockInvalid nd.cfg (nd.cfg.hash eb.header) : EngineProc Unit).wp P
      (fun _ => Good nd I J) s := by
  rw [markBlockInvalid, wp_updateBlock]
  intro eb' hb'
  have hsame : eb = eb' := some.inj (hb.symm.trans hb')
  subst hsame
  have hg₁ := hc.good hg (.markInvalid (nd.cfg.hash eb.header) eb hg.boundary hb hpending)
  exact ⟨hc.crash hg₁.toMid, hg₁⟩

theorem wp_applyBlock (hr : Ready nd a s (nd.cfg.hash eb.header) eb) (parent : ExtendedBlock) :
    (applyBlock nd a eb.block parent).wp P (fun _ => Good nd I J) s := by
  have hinvalid := wp_markBlockInvalid hc hg hr.stored hr.pending
  unfold applyBlock
  split
  · exact hinvalid
  · show (if (a.applyBlockTxs eb.block).1.isError then
        markBlockInvalid nd.cfg (nd.cfg.hash eb.header)
      else if (a.applyBlockTxs eb.block).1.isUndecided then pure ()
      else acceptBlock nd a eb.block (a.applyBlockTxs eb.block).2 : EngineProc Unit).wp P _ s
    split
    · exact hinvalid
    · split
      · exact hg
      next herr hund =>
        have hok : (a.applyBlockTxs eb.block).1 = .ok := by
          cases hres : (a.applyBlockTxs eb.block).1 with
          | ok => rfl
          | error message => simp [hres, isError] at herr
          | undecided message => simp [hres, isUndecided] at hund
        exact wp_acceptBlock hc hg hr (Prod.ext hok rfl)

variable {votes : VoteSet}

theorem wp_hccVotes (hv : ∀ v ∈ votes, v ∈ inp.votes) :
    (Proc.forEach (votes.votes a.order) fun v => do
      let _ ← handleVote nd a v : EngineProc Unit).wp P
        (fun _ s' => Good nd I J s' ∧ VoteFrame s s' ∧ ∀ v ∈ votes,
          (v.validate nd.verify).isError = false → v.id ∈ voters s'.disk v.block) s := by
  have hloop := Proc.wp_forEach (P := P) (s := s)
    (fun pre s' => Good nd I J s' ∧ VoteFrame s s' ∧ ∀ v ∈ pre,
      (v.validate nd.verify).isError = false → v.id ∈ voters s'.disk v.block)
    (fun v => do let _ ← handleVote nd a v) (votes.votes a.order) ?_
    ⟨hg, VoteFrame.refl s, by simp⟩
  · simpa only [VoteSet.mem_votes] using hloop
  · rintro pre v s₁ hmem ⟨hg₁, hf₁, hpre⟩
    rw [Proc.wp_bind]
    refine Proc.wp_mono ?_ (wp_handleVote hc hg₁ (hv v (VoteSet.mem_votes.1 hmem)))
    rintro - s₂ ⟨hg₂, hf₂, hnew⟩
    refine ⟨hg₂, hf₁.trans hf₂, fun w hw hok => ?_⟩
    rcases List.mem_append.1 hw with hw | hw
    · exact hf₂.voters _ (hpre w hw hok)
    · rw [List.mem_singleton.1 hw] at hok ⊢
      exact hnew hok

omit hc

omit hg

theorem majority_of_certificate {cc : CommitCertificate} {vs : ValidatorSet} (hs : a.NonNegStakes)
    (hvs : a.getValidatorSet cc.blockHash = some vs) (hcc : cc.isValid nd.verify a.order vs = true)
    (hvotes : cc.votes = some votes)
    (hindex : ∀ v ∈ votes, (v.validate nd.verify).isError = false → v.id ∈ voters s.disk v.block) :
    Majority a s.disk cc.blockHash := by
  obtain ⟨votes', hvotes', -, hq⟩ := CommitCertificate.isValid_spec hcc
  rw [hvotes, some.injEq] at hvotes'
  subst hvotes'
  refine ⟨vs, hvs, hq.mono (fun i _ => ValidatorSet.stakeOf_nonneg (hs _ vs hvs) i) ?_⟩
  rintro i ⟨v, hv, rfl, hblock, hok⟩
  exact hblock ▸ hindex v hv hok

theorem coveredBy_of_le {p : Hash} {pb : ExtendedBlock} (hw : WellFormed nd s)
    (hp : s.disk.block p = some pb) (hcert : pb.status.isFinalized ∨ Majority a s.disk p)
    (hle : ¬ pb.status.isFinalized → ∀ H, s.disk.block s.mem.state.highestCCBlock = some H →
      pb.header.height ≤ H.header.height) : CoveredBy a s.disk s.mem.state.highestCCBlock p := by
  obtain ⟨H, hH, -⟩ := hw.highestCC
  refine ⟨H, pb, hH, hp, ?_⟩
  by_cases hfin : pb.status.isFinalized
  · exact .inl hfin
  · have hm : Majority a s.disk p := hcert.resolve_left hfin
    have hle := UInt64.le_iff_toNat_le.1 (hle hfin H hH)
    by_cases heq : pb.header.height = H.header.height
    · exact .inr (.inr ⟨heq, hm⟩)
    · refine .inr (.inl (UInt64.lt_iff_toNat_lt.2 ?_))
      have hne : pb.header.height.toNat ≠ H.header.height.toNat :=
        fun h => heq (UInt64.toNat_inj.1 h)
      omega

theorem WellFormed.recent_parent (hw : WellFormed nd s) {lb pb : ExtendedBlock} {height : UInt64}
    (hlb : s.disk.block s.mem.state.lastFinalizedBlock = some lb) (hlow : lb.header.height < height)
    (hheight : height.toNat = pb.header.height.toNat + 1) : Recent nd s.disk pb := by
  obtain ⟨lb', hlb', -, hlrec⟩ := hw.lastFinalized
  rw [some.inj (hlb'.symm.trans hlb)] at hlrec
  have hlow := UInt64.lt_iff_toNat_lt.1 hlow
  unfold Recent at hlrec ⊢
  omega

theorem wp_afterHccVotes (hc : Closed nd a inp I J P) {s₁ : EngineConf} (hg₁ : Good nd I J s₁)
    {eb pb : ExtendedBlock} (hb : s.disk.block (nd.cfg.hash eb.header) = some eb)
    (hpending : eb.status = .pending) (hp : s.disk.block eb.header.parent = some pb)
    (hprec : Recent nd s.disk pb)
    (hres : validateBlock nd a s.disk low eb.block pb = some res) (hok : res.isError = false)
    (hvotes : eb.header.hcc.votes = some votes) (hf₁ : VoteFrame s s₁)
    (hindex : ∀ v ∈ votes, (v.validate nd.verify).isError = false → v.id ∈ voters s₁.disk v.block) :
    (do
      let localHCC ← State.getHighestCCBlock
      if nd.cfg.hash localHCC.header ≠ eb.block.header.hcc.blockHash then
        checkCC nd a eb.block.header.hcc.blockHash
      applyBlock nd a eb.block pb : EngineProc Unit).wp P (fun _ => Good nd I J) s₁ := by
  obtain ⟨hpv, -, hheight, ccb, hccb, hcert⟩ := validateBlock_ok hres hok
  rw [Proc.wp_bind, wp_getHighestCCBlock]
  intro H hH
  -- the block stays ready until it is applied, if its HCC is covered by then
  have happly : ∀ s₂, Good nd I J s₂ → Frame s₁ s₂ →
      (a.NonNegStakes → eb.header.hcc.blockHash = eb.header.parent →
        CoveredBy a s₂.disk s₂.mem.state.highestCCBlock eb.header.parent) →
      (applyBlock nd a eb.block pb).wp P (fun _ => Good nd I J) s₂ := by
    intro s₂ hg₂ hf₂ hcov
    obtain ⟨pb', hp', hblock, hpv', -⟩ := hf₂.grows _ pb (by rw [hf₁.block]; exact hp)
    have hprec' : Recent nd s₂.disk pb' := by
      obtain ⟨rb, hroot, -⟩ := hg₁.wf.root
      rw [Recent, rootHeight_grows hf₂.grows hroot, header, hblock, rootHeight,
        hf₁.block]
      exact hprec
    refine wp_applyBlock hc hg₂ ⟨?_, hpending, ⟨pb', hp', hpv' hpv, hprec', ?_⟩, hcov⟩ pb
    · exact hf₂.pending _ eb (by rw [hf₁.block]; exact hb) hpending
    · rw [header, header, hblock]
      exact hheight
  have hccb₁ : s₁.disk.block eb.header.hcc.blockHash = some ccb := by
    rw [hf₁.block]; exact hccb
  have hmaj : a.NonNegStakes →
      ccb.status.isFinalized ∨ Majority a s₁.disk eb.header.hcc.blockHash := by
    intro hs
    rcases hcert with hfin | ⟨vs, hvs, hvalid⟩
    · exact .inl hfin
    · exact .inr (majority_of_certificate hs hvs hvalid hvotes hindex)
  by_cases hlocal : nd.cfg.hash H.header = eb.header.hcc.blockHash
  · rw [if_neg (not_not_intro hlocal)]
    refine happly s₁ hg₁ (Frame.refl s₁) fun hs hpar => ?_
    have hkey := hg₁.wf.key _ H hH
    rw [← hpar]
    refine coveredBy_of_le hg₁.wf hccb₁ (hmaj hs) fun _ H' hH' => ?_
    rw [← hkey, hlocal, hccb₁, some.injEq] at hH'
    rw [hH']
    exact UInt64.le_refl _
  · rw [if_pos hlocal, Proc.wp_bind]
    refine Proc.wp_mono ?_ (wp_checkCC hc hg₁ eb.header.hcc.blockHash)
    rintro - s₂ ⟨hg₂, hf₂, hle⟩
    refine happly s₂ hg₂ hf₂ fun hs hpar => ?_
    obtain ⟨ccb', hccb', hblock, -, hfin'⟩ := hf₂.grows _ ccb hccb₁
    rw [← hpar]
    refine coveredBy_of_le hg₂.wf hccb' ((hmaj hs).imp hfin' fun h => h.frame hf₂) ?_
    intro hnf H' hH'
    rw [header, hblock]
    have hccbfin : ¬ ccb.status.isFinalized := fun h => hnf (hfin' h)
    have hccpv : ccb = pb := by
      rw [hpar, hp, some.injEq] at hccb
      exact hccb.symm
    obtain ⟨vs, -, hvalid⟩ := hcert.resolve_left hccbfin
    obtain ⟨-, -, hne, -⟩ := CommitCertificate.isValid_spec hvalid
    exact hle hne ccb hccb₁ (hccpv ▸ hpv) hccbfin ((hmaj hs).resolve_left hccbfin) H' hH'

include hc

include hg

theorem wp_handleNormalBlock (hb : s.disk.block (nd.cfg.hash eb.header) = some eb)
    (hv : ∀ votes, eb.header.hcc.votes = some votes → ∀ v ∈ votes, v ∈ inp.votes) :
    (handleNormalBlock nd a eb).wp P (fun _ => Good nd I J) s := by
  unfold handleNormalBlock
  by_cases hpending : eb.status = .pending
  · rw [if_neg (by simp [hpending, BlockStatus.isPending])]
    simp only [Proc.wp_bind, Proc.wp_disk, Proc.wp_orDie, wp_getLastFinalizedBlock,
      findBlock]
    intro pb hp lb hlb res hres
    by_cases hbad : res.isError
    · rw [if_pos hbad]
      exact wp_markBlockInvalid hc hg hb hpending
    · rw [if_neg hbad]
      simp only [Proc.wp_bind, Proc.wp_orDie]
      intro votes hvotes
      have hok : res.isError = false := by simpa using hbad
      obtain ⟨-, hlow, hheight, -⟩ := validateBlock_ok hres hok
      refine Proc.wp_mono ?_ (wp_hccVotes hc hg (hv votes hvotes))
      rintro - s₁ ⟨hg₁, hf₁, hindex⟩
      have hrest := wp_afterHccVotes hc hg₁ hb hpending hp
        (hg.wf.recent_parent hlb hlow hheight) hres hok hvotes hf₁ hindex
      simpa only [Proc.wp_bind] using hrest
  · rw [if_pos (by simp [hpending, BlockStatus.isPending])]
    exact hg

theorem wp_addBlockByHeightIndex (hb : inp.blocks.Nonempty) (height : UInt64) (h : Hash) :
    (addBlockByHeightIndex height h : EngineProc Unit).wp P
      (fun _ s' => Good nd I J s' ∧ s'.mem = s.mem) s := by
  unfold addBlockByHeightIndex
  rw [Proc.wp_bind, Proc.wp_disk]
  dsimp only
  split
  · exact ⟨hg, rfl⟩
  · rw [Proc.wp_modifyDisk]
    have hg₁ := hc.good hg (.heightIndex (Function.update s.disk.blocksByHeight height
      (some ((s.disk.blocksByHeight height).getD [] ++ [h]))) hg.boundary hb)
    exact ⟨hc.crash hg₁.toMid, hg₁, rfl⟩

theorem wp_addBlock {b : Block} (hb : b ∈ inp.blocks) :
    (addBlock nd.cfg b false : EngineProc _).wp P (fun _ s' => Good nd I J s' ∧ s'.mem = s.mem) s:= by
  -- from linking the children on
  have hstore : ∀ s₁, Good nd I J s₁ → s₁.mem = s.mem →
      s₁.disk.block (nd.cfg.hash b.header) = none → (do
        let children := (findBlocksByHeight (← Proc.disk) (b.header.height + 1)).filter
          fun c => c.header.parent = nd.cfg.hash b.header
        let extendedBlock : ExtendedBlock :=
          ⟨b, children.map fun c => nd.cfg.hash c.header, .pending, false⟩
        saveBlock nd.cfg extendedBlock
        addBlockByHeightIndex b.header.height (nd.cfg.hash b.header)
        pure (.ok extendedBlock) : EngineProc (Except String ExtendedBlock)).wp P
          (fun _ s' => Good nd I J s' ∧ s'.mem = s.mem) s₁ := by
    intro s₁ hg₁ hmem₁ hnew
    simp only [Proc.wp_bind, Proc.wp_disk, wp_saveBlock]
    have hg₂ := hc.good hg₁ (.newBlock b (((findBlocksByHeight s₁.disk
      (b.header.height + 1)).filter fun c => c.header.parent = nd.cfg.hash b.header).map
        fun c => nd.cfg.hash c.header) hg₁.boundary hb hnew ?_)
    · refine ⟨hc.crash hg₂.toMid, ?_⟩
      refine Proc.wp_mono ?_ (wp_addBlockByHeightIndex hc hg₂ ⟨b, hb⟩ _ _)
      rintro - s₂ ⟨hg₃, hmem₃⟩
      exact ⟨hg₃, hmem₃.trans hmem₁⟩
    · intro c hc'
      obtain ⟨cb, hcb, rfl⟩ := List.mem_map.1 hc'
      obtain ⟨hfound, hpar⟩ := List.mem_filter.1 hcb
      obtain ⟨x, -, hx⟩ := List.mem_filterMap.1 hfound
      have hx : s₁.disk.block x = some cb := hx
      refine ⟨cb, ?_, by simpa using hpar⟩
      rw [hg₁.wf.key x cb hx]
      exact hx
  unfold addBlock
  split
  · exact ⟨hg, rfl⟩
  · rw [Proc.wp_bind, Proc.wp_disk]
    split
    · exact ⟨hg, rfl⟩
    next hnew =>
      have hnew : s.disk.block (nd.cfg.hash b.header) = none := by
        simpa [findBlock] using hnew
      split
      · rw [Proc.wp_bind, Proc.wp_disk]
        cases hp : findBlock s.disk b.header.parent with
        | none => exact hstore s hg rfl hnew
        | some pb =>
          have hp : s.disk.block b.header.parent = some pb := hp
          simp only [Proc.wp_bind, wp_saveBlock]
          have hkey : nd.cfg.hash pb.header = b.header.parent := hg.wf.key _ pb hp
          have hg₁ := hc.good hg (.linkChild b pb hg.boundary hb hnew hp)
          rw [hkey]
          refine ⟨hc.crash hg₁.toMid, hstore _ hg₁ rfl ?_⟩
          rw [withBlock_block, if_neg, hnew]
          intro heq
          rw [heq, hp] at hnew
          cases hnew
      · exact hstore s hg rfl hnew

omit hc

omit hg

theorem wp_createProposal (sameDynasty : Bool) :
    (createProposal nd a sameDynasty).wp P
      (fun r s' => s' = s ∧ ∀ p, r = some p →
        ∃ b, p.block = some b ∧ b.header.epoch = s.mem.state.epoch ∧ b.header.DistinctVoters) s := by
  unfold createProposal
  rw [Proc.wp_bind, getTipToExtend, wp_getTip]
  intro H _ tip _
  split
  · trivial
  · simp only [Proc.wp_bind, Proc.wp_disk, Proc.wp_orDie, wp_getHighestCCBlock, Proc.wp_mem]
    intro pb _ ts _ H' _ vs _
    split
    · exact ⟨rfl, fun p hp => by cases hp⟩
    · refine ⟨rfl, fun p hp => ?_⟩
      cases hp
      refine ⟨_, rfl, rfl, ?_⟩
      -- the certificate has the votes of different voters, as far as they are validators
      rintro _ ⟨⟩
      exact (VoteSet.uniqueVoter_spec a.order _).2.1.sublist (List.filter_sublist.map _)

def Engine.Action.added (nd : Node) (a : Answers) (s : EngineConf) : Engine.Action → Set Block
  | .addBlock b => {b}
  | .propose => {b | ∃ sameDynasty p s',
      (Engine.createProposal nd a sameDynasty).run s = (some (some p), s') ∧ p.block = some b}
  | _ => ∅

def Engine.Action.delivered (nd : Node) (d : Store) : Engine.Action → Set Vote
  | .vote v => {v}
  | .block b => {v | ∃ eb votes, d.block (nd.cfg.hash b.header) = some eb ∧
      eb.header.hcc.votes = some votes ∧ v ∈ votes}
  | _ => ∅

include hc

include hg

theorem wp_proposeNew (hb : Engine.Action.propose.added nd a s ⊆ inp.blocks)
    (hlast : ∀ c, s.mem.state.lastProposal.block = some c →
      c.header.epoch ≠ s.mem.state.epoch) (sameDynasty : Bool) :
    (propose.proposeNew nd a sameDynasty).wp P (fun _ => Good nd I J) s := by
  unfold propose.proposeNew
  rw [Proc.wp_bind]
  refine Proc.wp_mono ?_ (Proc.wp_and_run (wp_createProposal sameDynasty))
  rintro r s' ⟨⟨rfl, hr⟩, hrun⟩
  cases r with
  | none => exact hg
  | some p =>
    obtain ⟨b, hpb, hepoch, -⟩ := hr p rfl
    simp only [Proc.wp_bind, Proc.wp_modifyMem, Proc.wp_orDie]
    intro b' hb'
    have hsame : b = b' := some.inj (hpb.symm.trans hb')
    subst hsame
    have hg₁ := hc.good hg (.newProposal p b hg.boundary hpb hepoch hlast)
    refine Proc.wp_mono ?_ (wp_addBlock hc hg₁ (hb ⟨sameDynasty, p, s', hrun, hpb⟩))
    rintro r₂ s₂ ⟨hg₂, hmem₂⟩
    cases r₂ with
    | error m => trivial
    | ok eb =>
      have hp : s₂.mem.state.lastProposal = p := by rw [hmem₂]
      have hg₃ := hc.good hg₂ (.castProposal b hg₂.boundary (by rw [hp]; exact hpb)
        (by rw [hmem₂]; exact hepoch))
      rw [hp] at hg₃
      exact ⟨hc.crash hg₃.toMid, hg₃⟩

theorem wp_propose (hb : Engine.Action.propose.added nd a s ⊆ inp.blocks) :
    (propose nd a).wp P (fun _ => Good nd I J) s := by
  unfold propose
  rw [Proc.wp_bind, getTipToExtend, wp_getTip]
  intro H _ tip _
  simp only [Proc.wp_bind, Proc.wp_mem, Proc.wp_orDie]
  intro turn _
  split
  · exact hg
  · simp only [Proc.wp_bind, Proc.wp_disk, Proc.wp_orDie]
    intro sameDynasty _
    cases hlast : s.mem.state.lastProposal.block with
    | none => exact wp_proposeNew hc hg hb (fun c hc' => by simp [hlast] at hc') sameDynasty
    | some c =>
      dsimp only
      split
      next heq =>
        have hg₁ := hc.good hg (.castProposal c hg.boundary hlast heq.symm)
        exact ⟨hc.crash hg₁.toMid, hg₁⟩
      next hne =>
        refine wp_proposeNew hc hg hb (fun c' hc' => ?_) sameDynasty
        rw [hlast, some.injEq] at hc'
        exact hc' ▸ Ne.symm hne

theorem wp_handle (act : Engine.Action)
    (hv : act.delivered nd s.disk ⊆ inp.votes) (hb : act.added nd a s ⊆ inp.blocks) :
    (handle nd a act).wp P (fun _ => Good nd I J) s := by
  have hflags : ∀ e : Engine, e.state = s.mem.state → Good nd I J { s with mem := e } :=
    fun e he => hc.good hg (.flags e hg.boundary he)
  have hvote : ∀ s₁, Good nd I J s₁ → (vote nd a).wp P (fun _ => Good nd I J) s₁ :=
    fun s₁ hg₁ => Proc.wp_mono (fun _ _ h => h.1) (wp_vote hc hg₁)
  cases act with
  | addBlock b =>
    rw [handle, Proc.wp_bind]
    exact Proc.wp_mono (fun _ _ h => h.1) (wp_addBlock hc hg (hb rfl))
  | block b =>
    rw [handle, handleBlock]
    simp only [Proc.wp_bind, Proc.wp_disk, Proc.wp_orDie, findBlock]
    intro eb heb
    have hkey := hg.wf.key _ eb heb
    refine wp_handleNormalBlock hc hg (by rw [hkey]; exact heb) fun votes hvotes v hmem => ?_
    exact hv ⟨eb, votes, heb, hvotes, hmem⟩
  | vote v =>
    rw [handle, Proc.wp_bind]
    refine Proc.wp_mono ?_ (wp_handleVote hc hg (hv rfl))
    rintro - s₁ ⟨hg₁, -⟩
    exact Proc.wp_mono (fun _ _ h => h.1) (wp_checkCC hc hg₁ v.block)
  | voteTimer =>
    rw [handle, Proc.wp_bind, Proc.wp_modifyMem, Proc.wp_bind, Proc.wp_mem]
    have hg₁ := hflags { s.mem with voteTimerReady := true } rfl
    split
    · exact hvote _ hg₁
    · exact hg₁
  | epochTimer => exact hvote s hg
  | enterEpoch => exact hflags _ rfl
  | propose => exact wp_propose hc hg hb
  | stop => exact hflags _ rfl

/-- One step of a node keeps every invariant that is closed under the effects, and the
crash condition holds after each of its writes and outputs. -/
theorem wp_step (act : Engine.Action)
    (hv : act.delivered nd s.disk ⊆ inp.votes) (hb : act.added nd a s ⊆ inp.blocks) :
    (step nd a act).wp P (fun _ => Good nd I J) s := by
  have hhandle := wp_handle hc hg act hv hb
  have hstopped : (do
      if (← Proc.mem).stopped then pure () else handle nd a act : EngineProc Unit).wp P
        (fun _ => Good nd I J) s := by
    rw [Proc.wp_bind, Proc.wp_mem]
    split
    · exact hg
    · exact hhandle
  cases act with
  | addBlock b => exact hhandle
  | _ => exact hstopped

end ThetaSubchain
