/-
Finality agreement.

The votes that honest nodes have recorded are a legal log in the sense of `VoteLog`.  `NodeInv`
ties the store and the state of one node to that log.
-/
import ThetaSubchain.Consensus.Network

namespace ThetaSubchain

open Durable EngineConf BlockStatus VoteLog.Chain.Anc Option

variable {ι : Type} {N : Network ι} {occ : Set BlockHeader}

def BlockStatus.IsFinal (st : BlockStatus) : Prop :=
  st = .directlyFinalized ∨ st = .indirectlyFinalized

structure NodeInv (hocc : Set.InjOn N.cfg.hash occ) (L : List (Address × Hash)) (i : ι)
    (s : EngineConf) : Prop where
  occurs : ∀ h eb, s.disk.block h = some eb → eb.header ∈ occ
  rooted : ∀ h eb, s.disk.block h = some eb → eb.status.isValid →
    h = N.cfg.root ∨ ¬ Recent (N.node i) s.disk eb →
    ∀ q ∈ occ, N.cfg.hash q = eb.header.parent → q.height < eb.header.height
  children : ∀ p pb c, s.disk.block p = some pb → c ∈ pb.children →
    ∃ hd ∈ occ, N.cfg.hash hd = c ∧ hd.parent = p
  final : ∀ h eb, s.disk.block h = some eb → eb.status.IsFinal →
    (N.tree hocc).Final L h ∧ Recent (N.node i) s.disk eb
  low : ∀ h eb lb, s.disk.block h = some eb → eb.status.IsFinal →
    s.disk.block s.mem.state.lastFinalizedBlock = some lb →
    eb.header.height.toNat ≤ lb.header.height.toNat
  certified : (N.tree hocc).RootOrCertified L s.mem.state.highestCCBlock
  covered : ∀ h eb, s.disk.block h = some eb → eb.status.isValid →
    Recent (N.node i) s.disk eb → h ≠ N.cfg.root → eb.header.hcc.blockHash = eb.header.parent →
    (N.tree hocc).Covers L s.mem.state.highestCCBlock eb.header.parent
  index : ∀ h v, v ∈ Chain.findVotesByHash s.disk h → v.id ∈ Set.range N.addr →
    (v.id, v.block) ∈ L
  cast : ∀ v ∈ castVotes s.outs, v.id = N.addr i ∧ (N.addr i, v.block) ∈ L
  logged : s.mem.state.lastVote ≠ .zero → (N.addr i, s.mem.state.lastVote.block) ∈ L
  bound : ∀ b, (N.addr i, b) ∈ L → (N.tree hocc).height b ≤ s.mem.state.lastVote.height.toNat
  voted : ∀ b, (N.addr i, b) ∈ L → ∃ eb, s.disk.block b = some eb ∧ eb.status.isValid ∧
    Recent (N.node i) s.disk eb

/-- The last finalized block is below the highest CC block once it is not the root. -/
def Below (N : Network ι) (s : EngineConf) : Prop :=
  s.mem.state.lastFinalizedBlock = N.cfg.root ∨
    ∃ lb H, s.disk.block s.mem.state.lastFinalizedBlock = some lb ∧
      s.disk.block s.mem.state.highestCCBlock = some H ∧ lb.header.height < H.header.height

variable {hocc : Set.InjOn N.cfg.hash occ} {L : List (Address × Hash)} {i : ι}
  {a : Answers} {inp : Inputs} {s s' : EngineConf} {h p c : Hash} {eb pb cb : ExtendedBlock}

section Stored

variable (hw : WellFormed (N.node i) s) (hI : NodeInv hocc L i s)
include hw hI

theorem height_stored (hb : s.disk.block h = some eb) :
    (N.tree hocc).height h = eb.header.height.toNat := by
  have hkey : N.cfg.hash eb.header = h := hw.key h eb hb
  rw [← hkey]
  exact Network.heightAt_hash hocc (hI.occurs h eb hb)

theorem lock_stored (hb : s.disk.block h = some eb) :
    (N.tree hocc).lock h = eb.header.hcc.blockHash := by
  have hkey : N.cfg.hash eb.header = h := hw.key h eb hb
  rw [← hkey]
  exact Network.lockAt_hash hocc (hI.occurs h eb hb)

theorem height_root : (N.tree hocc).height N.cfg.root = rootHeight (N.node i) s.disk := by
  obtain ⟨rb, hr, -⟩ := hw.root
  rw [rootHeight, hr]
  exact height_stored hw hI hr

theorem link_stored (hp : s.disk.block p = some pb) (hc : s.disk.block c = some cb)
    (hpar : cb.header.parent = p) (hh : cb.header.height.toNat = pb.header.height.toNat + 1) :
    (N.tree hocc).link p c := by
  refine ⟨cb.header, hI.occurs c cb hc, hw.key c cb hc, hpar, ?_⟩
  have hc' := height_stored hw hI hc
  have hp' := height_stored hw hI hp
  show (N.tree hocc).height c = (N.tree hocc).height p + 1
  omega

theorem anc_of_parentLinks (hpath : Relation.ReflTransGen (ParentLink s.disk) p c) :
    (N.tree hocc).Anc p c := by
  refine Relation.ReflTransGen.mono ?_ _ _ hpath
  rintro x y ⟨xb, yb, hx, hy, hpar, hh⟩
  exact link_stored hw hI hx hy hpar hh

theorem anc_root (n : ℕ) (hn : eb.header.height.toNat = n) (hb : s.disk.block h = some eb)
    (hv : eb.status.isValid) (hrec : Recent (N.node i) s.disk eb) :
    (N.tree hocc).Anc N.cfg.root h := by
  induction n generalizing h eb with
  | zero =>
    have hroot : h = N.cfg.root :=
      hw.eq_root_of_height_zero hb hrec hv (UInt64.toNat_inj.1 hn)
    rw [hroot]
    exact refl _
  | succ n ih =>
    by_cases hroot : h = N.cfg.root
    · rw [hroot]
      exact refl _
    · obtain ⟨pb, hp, hpv, hprec, hh⟩ := hw.parent h eb hb hrec hv hroot
      have hlink := link_stored hw hI hp hb rfl hh
      exact (ih (by omega) hp hpv hprec).trans (of_link hlink)

theorem anc_of_childLinks {r : Hash} {rb : ExtendedBlock} (hr : s.disk.block r = some rb)
    (hrv : rb.status.isValid) (hrrec : Recent (N.node i) s.disk rb)
    (hpath : Relation.ReflTransGen (ChildLink s.disk) r c) (hc : s.disk.block c = some cb) :
    cb.status.isValid ∧ Recent (N.node i) s.disk cb ∧ (N.tree hocc).Anc r c := by
  induction hpath generalizing cb with
  | refl =>
    rw [some.inj (hc.symm.trans hr)]
    exact ⟨hrv, hrrec, refl _⟩
  | @tail z c hz hlink ih =>
    obtain ⟨zb, cb', hzb, hchild, hcb', hcv⟩ := hlink
    rw [some.inj (hcb'.symm.trans hc)] at hcv
    obtain ⟨hzv, hzrec, hzanc⟩ := ih hzb
    obtain ⟨hd, hdocc, hhash, hpar⟩ := hI.children z zb c hzb hchild
    have hhead : cb.header = hd :=
      hocc (hI.occurs c cb hc) hdocc ((hw.key c cb hc).trans hhash.symm)
    have hcz : cb.header.parent = z := by rw [hhead]; exact hpar
    -- a child up to the root has its parent below the root
    have hup : ¬ (c = N.cfg.root ∨ ¬ Recent (N.node i) s.disk cb) := by
      intro hold
      have hlt := hI.rooted c cb hc hcv hold zb.header (hI.occurs z zb hzb)
        ((hw.key z zb hzb).trans hcz.symm)
      have hlow : cb.header.height.toNat ≤ rootHeight (N.node i) s.disk := by
        rcases hold with rfl | hold
        · rw [← height_root hw hI, height_stored hw hI hc]
        · unfold Recent at hold
          omega
      have hlt := UInt64.lt_iff_toNat_lt.1 hlt
      unfold Recent at hzrec
      omega
    rw [not_or, not_not] at hup
    obtain ⟨pb, hp, -, -, hh⟩ := hw.parent c cb hc hup.2 hcv hup.1
    rw [hcz] at hp
    exact ⟨hcv, hup.2,
      hzanc.trans (of_link (link_stored hw hI hp hc hcz hh))⟩

end Stored

section Certified

variable (hw : WellFormed (N.node i) s) (hI : NodeInv hocc L i s)
  (hfixed : ∀ h vs, a.getValidatorSet h = some vs → vs = N.validators)
include hw hI hfixed

theorem certified_of_majority (hm : Majority a s.disk h) : (N.tree hocc).Certified L h := by
  obtain ⟨vs, hvs, hq⟩ := hm
  rw [hfixed h vs hvs] at hq
  refine (N.tree hocc).quorum_mono ?_ hq
  rintro v ⟨u, hu, rfl⟩
  by_cases hv : u.id ∈ Set.range N.addr
  · have hlog := hI.index h u hu hv
    rw [hw.votes h u hu] at hlog
    exact .inr hlog
  · exact .inl hv

theorem directlyFinal_of_confirms (hc : Confirms a s c p) : (N.tree hocc).DirectlyFinal L p := by
  obtain ⟨cb, H, hcb, hst, hpar, hhcc, hH, hlt, hm⟩ := hc
  have hroot : c ≠ N.cfg.root := hw.ne_root hcb (by simp [hst, isFinalized])
  have hrec := recent_of_lt (hw.recent_highestCC hH) hlt
  obtain ⟨pb, hp, -, -, hh⟩ := hw.parent c cb hcb hrec (by simp [hst, isValid]) hroot
  rw [hpar] at hp
  refine .inr ⟨c, certified_of_majority hw hI hfixed hm, hroot,
    link_stored hw hI hp hcb hpar hh, ?_⟩
  rw [lock_stored hw hI hcb, hhcc]

theorem covers_of_coveredBy (hJ : Below N s)
    (hcov : CoveredBy a s.disk s.mem.state.highestCCBlock p) (hp : s.disk.block p = some pb)
    (hv : pb.status.isValid) (hrec : Recent (N.node i) s.disk pb) :
    (N.tree hocc).Covers L s.mem.state.highestCCBlock p := by
  obtain ⟨H, pb', hH, hp', hcase⟩ := hcov
  rw [some.inj (hp'.symm.trans hp)] at hcase
  have hHh := height_stored hw hI hH
  have hph := height_stored hw hI hp
  rcases hcase with hfin | hlt | ⟨heq, hm⟩
  · by_cases hroot : p = N.cfg.root
    · -- the root is covered by every block that is not below it
      have hle := hw.recent_highestCC hH
      have hrh := height_root hw hI
      unfold Recent at hle
      rcases Nat.lt_or_ge ((N.tree hocc).height p)
          ((N.tree hocc).height s.mem.state.highestCCBlock) with hlt | hge
      · exact .inl hlt
      · refine .inr ⟨?_, .inl hroot⟩
        rw [hroot] at hge ⊢
        omega
    · have hfinal : pb.status.IsFinal := by
        have := (hw.status p pb hp hrec).1
        revert hfin this
        cases pb.status <;> simp [isFinalized, BlockStatus.IsFinal]
      rcases hJ with hlf | ⟨lb, H', hlb, hH', hlt⟩
      · -- no block but the root is finalized
        exfalso
        obtain ⟨rb, hr, -⟩ := hw.root
        have hle := hI.low p pb rb hp hfinal (by rw [hlf]; exact hr)
        obtain ⟨qb, -, -, hqrec, hh⟩ := hw.parent p pb hp hrec hv hroot
        have hrh : rb.header.height.toNat = rootHeight (N.node i) s.disk :=
          (height_stored hw hI hr).symm.trans (height_root hw hI)
        unfold Recent at hqrec
        omega
      · have hle := hI.low p pb lb hp hfinal hlb
        rw [some.inj (hH'.symm.trans hH)] at hlt
        have hlt := UInt64.lt_iff_toNat_lt.1 hlt
        exact .inl (by omega)
  · exact .inl (by have := UInt64.lt_iff_toNat_lt.1 hlt; omega)
  · exact .inr ⟨by rw [hph, hHh, heq], .inr (certified_of_majority hw hI hfixed hm)⟩

end Certified

/-! ## Changes of the log and of the state -/

variable {M : List (Address × Hash)}

theorem NodeInv.record (hI : NodeInv hocc L i s) (hLM : L ⊆ M)
    (hblock : s'.disk.block = s.disk.block) (hvotes : s'.disk.votes = s.disk.votes)
    (hcast : castVotes s'.outs = castVotes s.outs)
    (hcc : s'.mem.state.highestCCBlock = s.mem.state.highestCCBlock)
    (hlf : s'.mem.state.lastFinalizedBlock = s.mem.state.lastFinalizedBlock)
    (hlogged : s'.mem.state.lastVote ≠ .zero → (N.addr i, s'.mem.state.lastVote.block) ∈ M)
    (hbound : ∀ b, (N.addr i, b) ∈ M →
      (N.tree hocc).height b ≤ s'.mem.state.lastVote.height.toNat)
    (hvoted : ∀ b, (N.addr i, b) ∈ M → ∃ eb, s.disk.block b = some eb ∧ eb.status.isValid ∧
      Recent (N.node i) s.disk eb) : NodeInv hocc M i s' := by
  have hrec : Recent (N.node i) s'.disk = Recent (N.node i) s.disk := by
    funext eb
    rw [Recent, Recent, rootHeight, rootHeight, hblock]
  have hfind : Chain.findVotesByHash s'.disk = Chain.findVotesByHash s.disk := by
    funext h
    rw [Chain.findVotesByHash, Chain.findVotesByHash, hvotes]
  constructor
  · rw [hblock]
    exact hI.occurs
  · rw [hblock, hrec]
    exact hI.rooted
  · rw [hblock]
    exact hI.children
  · rw [hblock, hrec]
    exact fun h eb hb hst => ⟨(hI.final h eb hb hst).1.mono hLM, (hI.final h eb hb hst).2⟩
  · rw [hblock, hlf]
    exact hI.low
  · rw [hcc]
    exact hI.certified.mono hLM
  · rw [hblock, hrec, hcc]
    exact fun h eb hb hv hr hne hhcc => (hI.covered h eb hb hv hr hne hhcc).mono hLM
  · rw [hfind]
    exact fun h v hv hid => hLM (hI.index h v hv hid)
  · rw [hcast]
    exact fun v hv => ⟨(hI.cast v hv).1, hLM (hI.cast v hv).2⟩
  · exact hlogged
  · exact hbound
  · rw [hblock, hrec]
    exact hvoted

theorem NodeInv.of_eq (hI : NodeInv hocc L i s) (hblock : s'.disk.block = s.disk.block)
    (hvotes : s'.disk.votes = s.disk.votes) (hcast : castVotes s'.outs = castVotes s.outs)
    (hcc : s'.mem.state.highestCCBlock = s.mem.state.highestCCBlock)
    (hlf : s'.mem.state.lastFinalizedBlock = s.mem.state.lastFinalizedBlock)
    (hlast : s'.mem.state.lastVote = s.mem.state.lastVote) : NodeInv hocc L i s' := by
  refine hI.record (List.Subset.refl L) hblock hvotes hcast hcc hlf ?_ ?_ hI.voted
  · rw [hlast]
    exact hI.logged
  · rw [hlast]
    exact hI.bound

theorem NodeInv.mono (hI : NodeInv hocc L i s) (hLM : L ⊆ M)
    (hown : ∀ b, (N.addr i, b) ∈ M → (N.addr i, b) ∈ L) : NodeInv hocc M i s :=
  hI.record hLM rfl rfl rfl rfl rfl (fun hne => hLM (hI.logged hne))
    (fun b hb => hI.bound b (hown b hb)) fun b hb => hI.voted b (hown b hb)

variable {v : Vote}

theorem NodeInv.newVote (hw : WellFormed (N.node i) s) (hI : NodeInv hocc L i s)
    (hlegal : (N.tree hocc).Legal L) {tip : ExtendedBlock} (htip : s.disk.block v.block = some tip)
    (hheight : tip.header.height = v.height)
    (hpath : Relation.ReflTransGen (ChildLink s.disk) s.mem.state.highestCCBlock v.block)
    (hlast : s.mem.state.lastVote.height = 0 ∨ s.mem.state.lastVote.height < v.height) :
    ∃ M, (N.tree hocc).Legal M ∧ L ⊆ M ∧
      (∀ u b, (u, b) ∈ M → u ≠ N.addr i → (u, b) ∈ L) ∧
      NodeInv hocc M i (s.withState (N.node i) fun st => { st with lastVote := v }) := by
  obtain ⟨H, hH, hHv, hHrec⟩ := hw.highestCC
  obtain ⟨htv, htrec, hanc⟩ := anc_of_childLinks hw hI hH hHv hHrec hpath htip
  have hvh : (N.tree hocc).height v.block = v.height.toNat := by
    rw [height_stored hw hI htip, hheight]
  -- a block voted for before is lower, or it is the root and so is the new one
  have hold : ∀ b, (N.addr i, b) ∈ L →
      (N.tree hocc).height b < v.height.toNat ∨ (b = v.block ∧ v.height = 0) := by
    intro b hb
    have hle := hI.bound b hb
    rcases hlast with h0 | hlt
    · obtain ⟨eb, heb, hev, herec⟩ := hI.voted b hb
      have hb0 : eb.header.height = 0 := by
        rw [height_stored hw hI heb, h0] at hle
        exact UInt64.toNat_inj.1 (Nat.le_zero.1 hle)
      have hbroot := hw.eq_root_of_height_zero heb herec hev hb0
      by_cases hv0 : v.height = 0
      · have hvroot := hw.eq_root_of_height_zero htip htrec htv (hheight.trans hv0)
        exact .inr ⟨hbroot.trans hvroot.symm, hv0⟩
      · refine .inl ?_
        rw [height_stored hw hI heb, hb0]
        exact Nat.pos_of_ne_zero fun h => hv0 (UInt64.toNat_inj.1 h)
    · exact .inl (by have := UInt64.lt_iff_toNat_lt.1 hlt; omega)
  by_cases hmem : (N.addr i, v.block) ∈ L
  · refine ⟨L, hlegal, List.Subset.refl L, fun u b hb _ => hb, ?_⟩
    refine hI.record (List.Subset.refl L) rfl rfl rfl rfl rfl (fun _ => hmem) ?_ hI.voted
    intro b hb
    show (N.tree hocc).height b ≤ v.height.toNat
    rcases hold b hb with hlt | ⟨rfl, -⟩
    · exact hlt.le
    · exact hvh.le
  · have hlow : ∀ b, (N.addr i, b) ∈ L → (N.tree hocc).height b < v.height.toNat := by
      intro b hb
      rcases hold b hb with hlt | ⟨rfl, -⟩
      · exact hlt
      · exact absurd hb hmem
    have hmay : (N.tree hocc).MayVote L (N.addr i) v.block := by
      refine ⟨anc_root hw hI _ rfl htip htv htrec, ?_,
        s.mem.state.highestCCBlock, hI.certified, hanc, ?_⟩
      · intro b hb
        rw [hvh]
        exact hlow b hb
      · intro b hb hne hlink
        obtain ⟨eb, heb, hev, herec⟩ := hI.voted b hb
        obtain ⟨hd, hdocc, hhash, hpar, -⟩ := hlink
        have hhead : eb.header = hd :=
          hocc (hI.occurs b eb heb) hdocc ((hw.key b eb heb).trans hhash.symm)
        have hlock := lock_stored hw hI heb
        have hhcc : eb.header.hcc.blockHash = eb.header.parent := by
          rw [← hlock, hhead, hpar]
        rw [hlock, hhcc]
        exact hI.covered b eb heb hev herec hne hhcc
    have hcases : ∀ u b, (u, b) ∈ (N.addr i, v.block) :: L →
        (u = N.addr i ∧ b = v.block) ∨ (u, b) ∈ L := by
      intro u b hb
      rcases List.mem_cons.1 hb with heq | hb
      · exact .inl (Prod.mk.inj heq)
      · exact .inr hb
    refine ⟨(N.addr i, v.block) :: L, .cons hlegal hmay, List.subset_cons_self _ _, ?_, ?_⟩
    · intro u b hb hne
      exact (hcases u b hb).resolve_left fun h => hne h.1
    · refine hI.record (List.subset_cons_self _ _) rfl rfl rfl rfl rfl
        (fun _ => .head _) ?_ ?_
      · intro b hb
        show (N.tree hocc).height b ≤ v.height.toNat
        rcases hcases _ b hb with ⟨-, rfl⟩ | hb
        · exact hvh.le
        · exact (hlow b hb).le
      · intro b hb
        rcases hcases _ b hb with ⟨-, rfl⟩ | hb
        · exact ⟨tip, htip, htv, htrec⟩
        · exact hI.voted b hb

theorem NodeInv.castVote (hI : NodeInv hocc L i s) (hid : v.id = N.addr i)
    (hvoted : s.mem.state.lastVote ≠ .zero) (hblock : v.block = s.mem.state.lastVote.block) :
    NodeInv hocc L i (s.emit (.vote v)) := by
  refine ⟨hI.occurs, hI.rooted, hI.children, hI.final, hI.low, hI.certified, hI.covered,
    hI.index, ?_, hI.logged, hI.bound, hI.voted⟩
  intro u hu
  rw [emit, castVotes_vote, List.mem_append, List.mem_singleton] at hu
  rcases hu with hu | rfl
  · exact hI.cast u hu
  · rw [hblock]
    exact ⟨hid, hI.logged hvoted⟩

theorem NodeInv.indexVote (hI : NodeInv hocc L i s)
    (hv : v.id ∈ Set.range N.addr → (v.id, v.block) ∈ L) :
    NodeInv hocc L i (s.withIndexedVote v) := by
  refine ⟨hI.occurs, hI.rooted, hI.children, hI.final, hI.low, hI.certified, hI.covered,
    ?_, hI.cast, hI.logged, hI.bound, hI.voted⟩
  intro h u hu hid
  simp only [Chain.findVotesByHash, withIndexedVote, Function.update_apply] at hu
  by_cases hh : h = v.block
  · rw [if_pos hh, getD_some, VoteSet.mem_addVote] at hu
    rcases hu with hu | rfl
    · exact hI.index v.block u hu.1 hid
    · exact hv hid
  · rw [if_neg hh] at hu
    exact hI.index h u hu hid

section Changes

variable (hw : WellFormed (N.node i) s) (hI : NodeInv hocc L i s)
include hw hI

theorem NodeInv.setHighestCC {H : ExtendedBlock} (hb : s.disk.block h = some eb)
    (hH : s.disk.block s.mem.state.highestCCBlock = some H)
    (hlt : H.header.height < eb.header.height) (hcert : (N.tree hocc).Certified L h) :
    NodeInv hocc L i (s.withState (N.node i) fun st => { st with highestCCBlock := h }) := by
  refine ⟨hI.occurs, hI.rooted, hI.children, hI.final, hI.low, .inr hcert, ?_, hI.index,
    hI.cast, hI.logged, hI.bound, hI.voted⟩
  intro x xb hx hv hrec hne hhcc
  refine .inl ?_
  show (N.tree hocc).height xb.header.parent < (N.tree hocc).height h
  have hlt := UInt64.lt_iff_toNat_lt.1 hlt
  have hHh := height_stored hw hI hH
  have hbh := height_stored hw hI hb
  rcases hI.covered x xb hx hv hrec hne hhcc with hcov | ⟨hcov, -⟩ <;> omega

theorem NodeInv.setLastFinalized (hJ : Below N s) (hc : Confirms a s c p)
    (hp : s.disk.block p = some pb)
    (hrec : Recent (N.node i) s.disk pb) :
    NodeInv hocc L i (s.withState (N.node i) fun st => { st with lastFinalizedBlock := p }) := by
  refine ⟨hI.occurs, hI.rooted, hI.children, hI.final, ?_, hI.certified, hI.covered, hI.index,
    hI.cast, hI.logged, hI.bound, hI.voted⟩
  intro x xb pb' hx hfin hp'
  rw [some.inj (Eq.trans (Eq.symm hp') hp)]
  obtain ⟨lb, hl, -⟩ := hw.lastFinalized
  refine (hI.low x xb lb hx hfin hl).trans ?_
  rcases hJ with hroot | ⟨lb', H, hl', hH, hlt⟩
  · have hlr : (N.tree hocc).height N.cfg.root = lb.header.height.toNat := by
      rw [← hroot]
      exact height_stored hw hI hl
    rw [← hlr, height_root hw hI]
    exact hrec
  · obtain ⟨cb, H', hcb, hst, hpar, -, hH', hlt', -⟩ := hc
    rw [some.inj (hl'.symm.trans hl), some.inj (hH.symm.trans hH')] at hlt
    have hcrec := recent_of_lt (hw.recent_highestCC hH') hlt'
    obtain ⟨qb, hq, -, -, hh⟩ := hw.parent c cb hcb hcrec (by simp [hst, isValid])
      (hw.ne_root hcb (by simp [hst, isFinalized]))
    rw [hpar] at hq
    rw [some.inj (hq.symm.trans hp)] at hh
    have h1 := UInt64.lt_iff_toNat_lt.1 hlt
    have h2 := UInt64.lt_iff_toNat_lt.1 hlt'
    omega

theorem NodeInv.withBlock {eb' : ExtendedBlock} (hg : s.disk.Grows (s.withBlock h eb').disk)
    (hoccurs : eb'.header ∈ occ)
    (hchildren : ∀ c ∈ eb'.children, ∃ hd ∈ occ, N.cfg.hash hd = c ∧ hd.parent = h)
    (hfinal : eb'.status.IsFinal →
      ((N.tree hocc).Final L h ∧ Recent (N.node i) s.disk eb') ∧
      ∀ lb, s.disk.block s.mem.state.lastFinalizedBlock = some lb →
        eb'.header.height.toNat ≤ lb.header.height.toNat) (hvalid : eb'.status.isValid →
      (∃ eb, s.disk.block h = some eb ∧ eb.header = eb'.header ∧ eb.status.isValid) ∨
      (h ≠ N.cfg.root ∧ Recent (N.node i) s.disk eb' ∧
        (eb'.header.hcc.blockHash = eb'.header.parent →
          (N.tree hocc).Covers L s.mem.state.highestCCBlock eb'.header.parent))) :
    NodeInv hocc L i (s.withBlock h eb') := by
  obtain ⟨rb, hr, -⟩ := hw.root
  have hrec : ∀ {x y : ExtendedBlock}, x.header = y.header →
      (Recent (N.node i) (s.withBlock h eb').disk x ↔ Recent (N.node i) s.disk y) := by
    intro x y hxy
    rw [Recent, Recent, rootHeight_grows hg hr, hxy]
  -- a stored block is the one that changed, or was there before
  have hcases : ∀ {x xb}, (s.withBlock h eb').disk.block x = some xb →
      (x = h ∧ xb = eb') ∨ s.disk.block x = some xb := by
    intro x xb hx
    rw [withBlock_block] at hx
    by_cases hxh : x = h
    · rw [if_pos hxh, some.injEq] at hx
      exact .inl ⟨hxh, hx.symm⟩
    · rw [if_neg hxh] at hx
      exact .inr hx
  constructor
  · intro x xb hx
    rcases hcases hx with ⟨-, rfl⟩ | hx
    · exact hoccurs
    · exact hI.occurs x xb hx
  · intro x xb hx hxv hup
    rw [hrec rfl] at hup
    rcases hcases hx with ⟨rfl, rfl⟩ | hx
    · rcases hvalid hxv with ⟨eb, hb, hhead, hv⟩ | ⟨hne, hrecent, -⟩
      · have hup' : x = N.cfg.root ∨ ¬ Recent (N.node i) s.disk eb := by
          rw [Recent, hhead]
          exact hup
        rw [← hhead]
        exact hI.rooted x eb hb hv hup'
      · exact absurd hup (by simp [hne, hrecent])
    · exact hI.rooted x xb hx hxv hup
  · intro x xb y hx hy
    rcases hcases hx with ⟨rfl, rfl⟩ | hx
    · exact hchildren y hy
    · exact hI.children x xb y hx hy
  · intro x xb hx hfin
    rw [hrec rfl]
    rcases hcases hx with ⟨rfl, rfl⟩ | hx
    · exact (hfinal hfin).1
    · exact hI.final x xb hx hfin
  · intro x xb lb' hx hfin hlb'
    obtain ⟨lb, hlb, -⟩ := hw.lastFinalized
    have hhead : lb'.header = lb.header := hg.header hlb hlb'
    rw [hhead]
    rcases hcases hx with ⟨rfl, rfl⟩ | hx
    · exact (hfinal hfin).2 lb hlb
    · exact hI.low x xb lb hx hfin hlb
  · exact hI.certified
  · intro x xb hx hxv hxrec hne hhcc
    rw [hrec rfl] at hxrec
    rcases hcases hx with ⟨rfl, rfl⟩ | hx
    · rcases hvalid hxv with ⟨eb, hb, hhead, hv⟩ | ⟨-, -, hcov⟩
      · rw [← hhead] at hhcc ⊢
        refine hI.covered x eb hb hv ?_ hne hhcc
        rw [Recent, hhead]
        exact hxrec
      · exact hcov hhcc
    · exact hI.covered x xb hx hxv hxrec hne hhcc
  · exact hI.index
  · exact hI.cast
  · exact hI.logged
  · exact hI.bound
  · intro x hx
    obtain ⟨xb, hxb, hv, hxrec⟩ := hI.voted x hx
    obtain ⟨xb', hxb', hblock, hv', -⟩ := hg x xb hxb
    have hhead : xb'.header = xb.header := by rw [ExtendedBlock.header, hblock]
    exact ⟨xb', hxb', hv' hv, (hrec hhead).2 hxrec⟩

theorem NodeInv.markValid (hfixed : ∀ h vs, a.getValidatorSet h = some vs → vs = N.validators)
    (hJ : Below N s)
    (hb : s.disk.block h = some eb) (hpending : eb.status = .pending)
    (hp : s.disk.block eb.header.parent = some pb) (hvalid : pb.status.isValid)
    (hrec : Recent (N.node i) s.disk pb)
    (hheight : eb.header.height.toNat = pb.header.height.toNat + 1)
    (hcov : a.NonNegStakes → eb.header.hcc.blockHash = eb.header.parent →
      CoveredBy a s.disk s.mem.state.highestCCBlock eb.header.parent) :
    NodeInv hocc L i (s.withBlock h { eb with status := .valid }) := by
  have hnonNeg : a.NonNegStakes := by
    intro x vs hvs
    rw [hfixed x vs hvs]
    exact N.nonNeg
  refine hI.withBlock hw (grows_withBlock hb rfl (fun _ => rfl) ?_) (hI.occurs h eb hb)
    (fun c hc => hI.children h eb c hb hc) (by simp [BlockStatus.IsFinal]) ?_
  · simp [hpending, isFinalized]
  · refine fun _ => .inr ⟨hw.ne_root hb (by simp [hpending, isFinalized]), ?_, ?_⟩
    · unfold Recent at hrec ⊢
      show rootHeight (N.node i) s.disk ≤ eb.header.height.toNat
      omega
    · exact fun hhcc => covers_of_coveredBy hw hI hfixed hJ (hcov hnonNeg hhcc) hp hvalid hrec

theorem NodeInv.setStatus (hb : s.disk.block h = some eb) {st : BlockStatus}
    (hfin : eb.status.isFinalized → st.isFinalized) (hvalid : st.isValid = eb.status.isValid)
    (hfinal : st.IsFinal → ((N.tree hocc).Final L h ∧ Recent (N.node i) s.disk eb) ∧
      ∀ lb, s.disk.block s.mem.state.lastFinalizedBlock = some lb →
        eb.header.height.toNat ≤ lb.header.height.toNat) :
    NodeInv hocc L i (s.withBlock h { eb with status := st }) := by
  refine hI.withBlock hw (grows_withBlock hb rfl (fun h => hvalid.trans h) hfin)
    (hI.occurs h eb hb) (fun c hc => hI.children h eb c hb hc) hfinal ?_
  exact fun hv => .inl ⟨eb, hb, rfl, hvalid.symm.trans hv⟩

theorem NodeInv.mid (hfixed : ∀ h vs, a.getValidatorSet h = some vs → vs = N.validators)
    (he : MidEffect (N.node i) a (Below N) s s') : NodeInv hocc L i s' := by
  cases he with
  | flags e he =>
    refine hI.of_eq rfl rfl rfl ?_ ?_ ?_
    all_goals rw [he]
  | setLastFinalized c p pb hJ hc hp hvalid hrecent =>
    exact hI.setLastFinalized hw hJ hc hp hrecent
  | markFinalized c h eb lb st hc hl hpath hb hvalid hrecent hle hst =>
    refine hI.setStatus hw hb ?_ ?_ ?_
    · rcases hst with rfl | rfl <;> exact fun _ => rfl
    · rw [hvalid]
      rcases hst with rfl | rfl <;> rfl
    · intro _
      refine ⟨⟨⟨_, anc_of_parentLinks hw hI hpath, directlyFinal_of_confirms hw hI hfixed hc⟩,
        hrecent⟩, ?_⟩
      intro lb' hl'
      rw [some.inj (hl'.symm.trans hl)]
      exact UInt64.le_iff_toNat_le.1 hle

end Changes

/-- The inputs of a node that match the log: no forged votes, and blocks that occur. -/
def Network.inputs (N : Network ι) (occ : Set BlockHeader) (L : List (Address × Hash)) : Inputs where
  votes := {v | (v.validate N.verify).isError = false → v.id ∈ Set.range N.addr →
    (v.id, v.block) ∈ L}
  blocks := {b | b.header ∈ occ}

structure NodeLog (hocc : Set.InjOn N.cfg.hash occ) (L M : List (Address × Hash)) (i : ι)
    (s : EngineConf) : Prop where
  legal : (N.tree hocc).Legal M
  grows : L ⊆ M
  own : ∀ u b, (u, b) ∈ M → u ≠ N.addr i → (u, b) ∈ L
  inv : NodeInv hocc M i s

theorem NodeLog.effect (hw : WellFormed (N.node i) s) (hM : NodeLog hocc L M i s)
    (hfixed : ∀ h vs, a.getValidatorSet h = some vs → vs = N.validators)
    (he : Effect (N.node i) a (N.inputs occ L) (Below N) s s') : ∃ M', NodeLog hocc L M' i s' := by
  have hI := hM.inv
  suffices h : (∃ M', (N.tree hocc).Legal M' ∧ M ⊆ M' ∧
      (∀ u b, (u, b) ∈ M' → u ≠ N.addr i → (u, b) ∈ M) ∧ NodeInv hocc M' i s') ∨
      NodeInv hocc M i s' by
    rcases h with ⟨M', hlegal, hgrows, hown, hI'⟩ | hI'
    · exact ⟨M', hlegal, List.Subset.trans hM.grows hgrows,
        fun u b hb hne => hM.own u b (hown u b hb hne) hne, hI'⟩
    · exact ⟨M, hM.legal, hM.grows, hM.own, hI'⟩
  cases he with
  | newVote v tip H hJ hid htip hheight hH hhigh hpath hlast =>
    exact .inl (hI.newVote hw hM.legal htip hheight hpath hlast)
  | flags e hJ he =>
    refine .inr (hI.of_eq rfl rfl rfl ?_ ?_ ?_)
    all_goals rw [he]
  | linkChild b pb hJ hb hnew hp =>
    refine .inr (hI.withBlock hw (grows_withBlock hp rfl id id) (hI.occurs _ pb hp) ?_ ?_ ?_)
    · intro c hc
      rcases List.mem_append.1 hc with hc | hc
      · exact hI.children _ pb c hp hc
      · rw [List.mem_singleton.1 hc]
        exact ⟨b.header, hb, rfl, rfl⟩
    · exact fun hst => ⟨hI.final _ pb hp hst, fun lb hl => hI.low _ pb lb hp hst hl⟩
    · exact fun hv => .inl ⟨pb, hp, rfl, hv⟩
  | newBlock b children hJ hb hnew hchildren =>
    refine .inr (hI.withBlock hw (grows_newBlock hnew) hb ?_ ?_ ?_)
    · intro c hc
      obtain ⟨cb, hcb, hpar⟩ := hchildren c hc
      exact ⟨cb.header, hI.occurs c cb hcb, hw.key c cb hcb, hpar⟩
    · simp [BlockStatus.IsFinal]
    · simp [isValid]
  | indexVote v hJ hv hok =>
    exact .inr (hI.indexVote fun hid => hM.grows (hv hok hid))
  | markInvalid h eb hJ hb hpending =>
    refine .inr (hI.setStatus hw hb ?_ ?_ ?_)
    all_goals simp [hpending, isFinalized, isValid, BlockStatus.IsFinal]
  | markUpdate h eb hJ hb hpending happly =>
    refine .inr (hI.withBlock hw (grows_withBlock hb rfl id id) (hI.occurs h eb hb)
      (fun c hc => hI.children h eb c hb hc) ?_ fun hv => .inl ⟨eb, hb, rfl, hv⟩)
    simp [hpending, BlockStatus.IsFinal]
  | markValid h eb pb hJ hb hpending hp hvalid hrecent hheight hcov happly =>
    exact .inr (hI.markValid hw hfixed hJ hb hpending hp hvalid hrecent hheight hcov)
  | castVote v hJ hid hvoted hblock hheight hzero =>
    exact .inr (hI.castVote hid hvoted hblock)
  | setHighestCC h eb H hJ hb hvalid hH hlt hmaj hover =>
    exact .inr (hI.setHighestCC hw hb hH hlt (certified_of_majority hw hI hfixed hmaj))
  | commit eb hJ hb hvalid =>
    refine .inr (hI.setStatus hw hb ?_ (by rw [hvalid]; rfl) ?_)
    all_goals simp [hvalid, isFinalized, BlockStatus.IsFinal]
  | relay v hJ => exact .inr (hI.of_eq rfl rfl (castVotes_relay _ _) rfl rfl rfl)
  | castProposal b hJ hb hepoch =>
    exact .inr (hI.of_eq rfl rfl (castVotes_proposal _ _) rfl rfl rfl)
  | _ => exact .inr (hI.of_eq rfl rfl rfl rfl rfl rfl)

theorem Below.of_grows (hJ : Below N s) (hg : s.disk.Grows s'.disk)
    (hlf : s'.mem.state.lastFinalizedBlock = s.mem.state.lastFinalizedBlock)
    (hcc : s'.mem.state.highestCCBlock = s.mem.state.highestCCBlock) : Below N s' := by
  unfold Below
  rw [hlf, hcc]
  rcases hJ with hroot | ⟨lb, H, hl, hH, hlt⟩
  · exact .inl hroot
  · obtain ⟨lb', hl', hlb, -⟩ := hg _ lb hl
    obtain ⟨H', hH', hHb, -⟩ := hg _ H hH
    refine .inr ⟨lb', H', hl', hH', ?_⟩
    rw [ExtendedBlock.header, ExtendedBlock.header, hlb, hHb]
    exact hlt

theorem Below.setHighestCC (hw : WellFormed (N.node i) s) {H : ExtendedBlock}
    (hJ : Below N s ∨ s.mem.state.lastFinalizedBlock = eb.header.parent)
    (hb : s.disk.block h = some eb) (hvalid : eb.status = .valid)
    (hH : s.disk.block s.mem.state.highestCCBlock = some H)
    (hlt : H.header.height < eb.header.height) :
    Below N (s.withState (N.node i) fun st => { st with highestCCBlock := h }) := by
  rcases hJ with (hroot | ⟨lb, H', hl, hH', hlt'⟩) | hpar
  · exact .inl hroot
  · rw [some.inj (hH'.symm.trans hH)] at hlt'
    exact .inr ⟨lb, eb, hl, hb, UInt64.lt_trans hlt' hlt⟩
  · have hrec := recent_of_lt (hw.recent_highestCC hH) hlt
    obtain ⟨pb, hp, -, -, hh⟩ := hw.parent h eb hb hrec (by simp [hvalid, isValid])
      (hw.ne_root hb (by simp [hvalid, isFinalized]))
    refine .inr ⟨pb, eb, ?_, hb, ?_⟩
    · show s.disk.block s.mem.state.lastFinalizedBlock = some pb
      rw [hpar]
      exact hp
    · rw [UInt64.lt_iff_toNat_lt]
      omega

theorem Below.effect (hw : WellFormed (N.node i) s)
    (he : Effect (N.node i) a inp (Below N) s s') : Below N s' := by
  cases he with
  | setHighestCC h eb H hJ hb hvalid hH hlt hmaj hover => exact Below.setHighestCC hw hJ hb hvalid hH hlt
  | flags e hJ he => exact hJ.of_grows (Store.Grows.refl _) (by rw [he]) (by rw [he])
  | linkChild b pb hJ hb hnew hp => exact hJ.of_grows (grows_withBlock hp rfl id id) rfl rfl
  | newBlock b children hJ hb hnew hchildren => exact hJ.of_grows (grows_newBlock hnew) rfl rfl
  | markInvalid h eb hJ hb hpending =>
    refine hJ.of_grows (grows_withBlock hb rfl ?_ ?_) rfl rfl
    all_goals simp [hpending, isValid, isFinalized]
  | markUpdate h eb hJ hb hpending happly => exact hJ.of_grows (grows_withBlock hb rfl id id) rfl rfl
  | markValid h eb pb hJ hb hpending hp hvalid hrecent hheight hcov happly =>
    refine hJ.of_grows (grows_withBlock hb rfl (fun _ => rfl) ?_) rfl rfl
    simp [hpending, isFinalized]
  | commit eb hJ hb hvalid =>
    refine hJ.of_grows (grows_withBlock hb rfl (fun _ => rfl) ?_) rfl rfl
    simp [hvalid, isFinalized]
  | _ => exact Below.of_grows (by assumption) (Store.Grows.refl _) rfl rfl

end ThetaSubchain
