/-
Which stored blocks are handed to the engine (netsync/request.go, `passReadyBlocks`).

The engine works on while an iteration goes up the heights, so an iteration is given the store
of each of its reads.  The tip of the request manager, which is only shown, is left out.
-/
import ThetaSubchain.Consensus.Monotonicity
import ThetaSubchain.Consensus.Tip

namespace ThetaSubchain

open Durable List Engine

structure Delivery where
  dumpBlockCache : List Hash
  passed : List Block

namespace Delivery

def dumpBlockCacheLimit : Nat := 32

def passBlock (cfg : ChainConfig) (parents : List ExtendedBlock) (p : Delivery)
    (block : ExtendedBlock) : Delivery :=
  let hash := cfg.hash block.header
  if hash ∈ p.dumpBlockCache then p
  -- Check if block's parent has already been added to chain. If not, skip block.
  else if parents.any fun parent =>
      cfg.hash parent.header = block.header.parent && parent.status.isValid then
    { dumpBlockCache := (hash :: p.dumpBlockCache).take dumpBlockCacheLimit
      passed := if block.status.isPending then p.passed ++ [block.block] else p.passed }
  else p

def passHeights (cfg : ChainConfig) :
    List Store → UInt64 → List ExtendedBlock → Delivery → Option Delivery
  | [], _, _, _ => none
  | d :: reads, height, parents, p =>
    let blocks := Chain.findBlocksByHeight d height
    if blocks.isEmpty then some p
    else passHeights cfg reads (height + 1) blocks (blocks.foldl (passBlock cfg parents) p)

def passReadyBlocks (cfg : ChainConfig) (lfb : ExtendedBlock) (reads : List Store)
    (dumpBlockCache : List Hash) : Option Delivery :=
  passHeights cfg reads (lfb.header.height + 1) [lfb] ⟨dumpBlockCache, []⟩

section Block

variable {cfg : ChainConfig} {parents : List ExtendedBlock} {p p' : Delivery} {x : ExtendedBlock}
  {h : Hash} {b : Block}

/-- The block was passed in this iteration, or nothing keeps it from being passed. -/
def Due (h : Hash) (b : Block) (p : Delivery) : Prop := b ∈ p.passed ∨ h ∉ p.dumpBlockCache

def Waits (cfg : ChainConfig) (h : Hash) (b : Block) (x : ExtendedBlock) : Prop :=
  cfg.hash x.header = h → x.block = b ∧ x.status.isPending = true

theorem mem_passed_passBlock (hb : b ∈ p.passed) : b ∈ (passBlock cfg parents p x).passed := by
  unfold passBlock
  dsimp only
  split
  · exact hb
  · split
    · dsimp only
      split
      · exact mem_append_left _ hb
      · exact hb
    · exact hb

variable {blocks : List ExtendedBlock}

theorem mem_passed_foldl (hb : b ∈ p.passed) :
    b ∈ (blocks.foldl (passBlock cfg parents) p).passed := by
  induction blocks generalizing p with
  | nil => exact hb
  | cons x blocks ih => exact ih (mem_passed_passBlock hb)

theorem mem_passed_passHeights {reads : List Store} {height : UInt64} (hb : b ∈ p.passed)
    (hrun : passHeights cfg reads height parents p = some p') : b ∈ p'.passed := by
  induction reads generalizing height parents p with
  | nil => cases hrun
  | cons d reads ih =>
    unfold passHeights at hrun
    dsimp only at hrun
    split at hrun
    · cases hrun
      exact hb
    · exact ih (mem_passed_foldl hb) hrun

theorem Due.passBlock (hx : Waits cfg h b x) (hp : Due h b p) :
    Due h b (passBlock cfg parents p x) := by
  rcases hp with hb | hfree
  · exact .inl (mem_passed_passBlock hb)
  unfold Delivery.passBlock
  dsimp only
  split
  · exact .inr hfree
  split
  · by_cases hh : cfg.hash x.header = h
    · obtain ⟨rfl, hpending⟩ := hx hh
      left
      simp [hpending]
    · right
      intro hmem
      rcases mem_cons.1 (mem_of_mem_take hmem) with heq | hold
      · exact hh heq.symm
      · exact hfree hold
  · exact .inr hfree

def ParentFound (cfg : ChainConfig) (parents : List ExtendedBlock) (parent : Hash) : Prop :=
  ∃ pb ∈ parents, cfg.hash pb.header = parent ∧ pb.status.isValid = true

theorem Due.passed (hh : cfg.hash x.header = h) (hx : Waits cfg h b x)
    (hparent : ParentFound cfg parents x.header.parent) (hp : Due h b p) :
    b ∈ (Delivery.passBlock cfg parents p x).passed := by
  rcases hp with hb | hfree
  · exact mem_passed_passBlock hb
  obtain ⟨pb, hpb, hhash, hvalid⟩ := hparent
  obtain ⟨rfl, hpending⟩ := hx hh
  have hany : (parents.any fun parent =>
      cfg.hash parent.header = x.header.parent && parent.status.isValid) = true :=
    any_eq_true.2 ⟨pb, hpb, by simp [hhash, hvalid]⟩
  unfold Delivery.passBlock
  dsimp only
  rw [if_neg (hh ▸ hfree), if_pos hany]
  simp [hpending]

theorem Due.foldl (hwait : ∀ x ∈ blocks, Waits cfg h b x)
    (hp : Due h b p) : Due h b (blocks.foldl (Delivery.passBlock cfg parents) p) := by
  induction blocks generalizing p with
  | nil => exact hp
  | cons y blocks ih =>
    exact ih (fun x hx => hwait x (mem_cons_of_mem y hx)) (hp.passBlock (hwait y mem_cons_self))

theorem Due.foldl_passed (hwait : ∀ x ∈ blocks, Waits cfg h b x)
    (hmem : x ∈ blocks) (hh : cfg.hash x.header = h)
    (hparent : ParentFound cfg parents x.header.parent) (hp : Due h b p) :
    b ∈ (blocks.foldl (Delivery.passBlock cfg parents) p).passed := by
  obtain ⟨before, after, rfl⟩ := append_of_mem hmem
  rw [foldl_append, foldl_cons]
  have hbefore : Due h b (before.foldl (Delivery.passBlock cfg parents) p) :=
    hp.foldl fun y hy => hwait y (mem_append_left _ hy)
  exact mem_passed_foldl (hbefore.passed hh (hwait x hmem) hparent)

end Block

section Iteration

variable {cfg : ChainConfig} {parents : List ExtendedBlock} {p p' : Delivery} {h : Hash}
  {eb : ExtendedBlock} {lowest : UInt64}

structure Offers (cfg : ChainConfig) (h : Hash) (eb : ExtendedBlock) (lowest : UInt64)
    (d : Store) : Prop where
  heights : ∀ k, lowest < k → k ≤ eb.header.height → Chain.findBlocksByHeight d k ≠ []
  waits : ∀ k, ∀ x ∈ Chain.findBlocksByHeight d k, Waits cfg h eb.block x
  block : ∃ x ∈ Chain.findBlocksByHeight d eb.header.height, cfg.hash x.header = h
  parent : ∀ k, lowest < k → k + 1 = eb.header.height →
    ParentFound cfg (Chain.findBlocksByHeight d k) eb.header.parent

theorem passed_of_passHeights {reads : List Store} (hreads : ∀ d ∈ reads, Offers cfg h eb lowest d)
    {height : UInt64} (hlow : lowest < height) (htop : height ≤ eb.header.height)
    (hparent : height = eb.header.height → ParentFound cfg parents eb.header.parent)
    (hp : Due h eb.block p) (hrun : passHeights cfg reads height parents p = some p') :
    eb.block ∈ p'.passed := by
  -- up to the height of the block nothing holds it up; there it is passed
  induction reads generalizing height parents p with
  | nil => cases hrun
  | cons d reads ih =>
    have hd := hreads d mem_cons_self
    unfold passHeights at hrun
    dsimp only at hrun
    rw [if_neg (by simpa using hd.heights height hlow htop)] at hrun
    by_cases hheight : height = eb.header.height
    · subst hheight
      obtain ⟨x, hx, hh⟩ := hd.block
      have hsame : x.header = eb.header := congrArg Block.header (hd.waits _ x hx hh).1
      refine mem_passed_passHeights ?_ hrun
      exact hp.foldl_passed (hd.waits _) hx hh (by rw [hsame]; exact hparent rfl)
    · have hbelow : height.toNat < eb.header.height.toNat :=
        Nat.lt_of_le_of_ne (UInt64.le_iff_toNat_le.1 htop) fun h => hheight (UInt64.toNat.inj h)
      have hnext : (height + 1).toNat = height.toNat + 1 := by
        have := eb.header.height.toNat_lt
        rw [UInt64.toNat_add, UInt64.toNat_one, Nat.mod_eq_of_lt (by omega)]
      refine ih (fun d hd => hreads d (.tail _ hd)) ?_ ?_
        (hd.parent height hlow) (hp.foldl (hd.waits _)) hrun
      · rw [UInt64.lt_iff_toNat_lt] at hlow ⊢
        omega
      · rw [UInt64.le_iff_toNat_le]
        omega

end Iteration

variable {nd : Node} {digest : Rlp.Item → Hash} {a : Answers} {s s' : EngineConf}

theorem tidy_processes (hzero : ∀ i, (digest i).isEmpty = false) (hs : Boundary nd digest s)
    (ht : Tidy nd s.disk) (hrun : Processes nd digest BringsDistinct s s') : Tidy nd s'.disk := by
  induction hrun with
  | refl => exact ht
  | @tail t _ hrun hstep ih =>
    obtain ⟨a, act, -, hr⟩ := hstep
    have hstart : Tidy (nd.under (headerHash digest) a.order) t.disk := tidy_under_iff.2 ih
    exact tidy_under_iff.1 (hstart.step (fun h => hzero (h.toItem a.order))
      ((hs.processes hrun).2.wf a.order) hr)

theorem height_of_left_pending {b : Block} {eb : ExtendedBlock} (hw : WellFormed nd s)
    (hrun : (handleBlock nd a b).run s = (some (), s'))
    (hleft : s'.disk.block (nd.cfg.hash b.header) = some eb) (hpending : eb.status.isPending) :
    ∃ eb₀ pb, s.disk.block (nd.cfg.hash b.header) = some eb₀ ∧
      s.disk.block eb₀.header.parent = some pb ∧
      eb₀.header.height.toNat = pb.header.height.toNat + 1 := by
  have hwp : (handleBlock nd a b).wp (fun _ _ => True) (fun _ s' => ∀ eb,
      s'.disk.block (nd.cfg.hash b.header) = some eb → eb.status.isPending →
        ∃ eb₀ pb, s.disk.block (nd.cfg.hash b.header) = some eb₀ ∧
          s.disk.block eb₀.header.parent = some pb ∧
          eb₀.header.height.toNat = pb.header.height.toNat + 1) s := by
    unfold handleBlock handleNormalBlock
    simp only [Proc.wp_bind, Proc.wp_disk, Proc.wp_orDie, Chain.findBlock]
    intro eb₀ hb₀
    split
    · next hnot =>
      intro eb hb hpending
      rw [hb₀, Option.some.injEq] at hb
      rw [hb, hpending] at hnot
      cases hnot
    simp only [Proc.wp_bind, Proc.wp_disk, Proc.wp_orDie, wp_getLastFinalizedBlock]
    intro pb hpb lfb _ res hres
    split
    · rw [Chain.markBlockInvalid, wp_updateBlock]
      intro eb₁ hb₁
      refine ⟨trivial, fun eb hb hpending => ?_⟩
      -- the block that was marked is the one that was loaded
      have hkey : nd.cfg.hash eb₀.block.header = nd.cfg.hash b.header := hw.key _ eb₀ hb₀
      have hkey₁ : nd.cfg.hash eb₁.header = nd.cfg.hash b.header := (hw.key _ eb₁ hb₁).trans hkey
      rw [withBlock_block, if_pos hkey₁.symm, Option.some.injEq] at hb
      rw [← hb] at hpending
      cases hpending
    · next hok =>
      have hheight := (validateBlock_ok hres (by simpa using hok)).2.2.1
      exact Proc.wp_of_run fun _ _ _ _ _ _ => ⟨eb₀, pb, hb₀, hpb, hheight⟩
  exact Proc.wp_run hwp hrun eb hleft hpending

section Reads

variable {eb lfb pb : ExtendedBlock} {w : EngineConf}

theorem mem_findBlocksByHeight (hzero : ∀ i, (digest i).isEmpty = false)
    (hs : Boundary nd digest s) (ht : Tidy nd s.disk)
    (hw : Processes nd digest BringsDistinct s w)
    (hlfb : s.disk.block s.mem.state.lastFinalizedBlock = some lfb) {h : Hash}
    (hb : s.disk.block h = some eb) (habove : lfb.header.height < eb.header.height)
    (ord : MapOrder) :
    ∃ eb' ∈ Chain.findBlocksByHeight w.disk eb.header.height,
      headerHash digest ord eb'.header = h ∧
      eb'.block = eb.block ∧ (eb.status.isValid → eb'.status.isValid) := by
  obtain ⟨hkeeps, hsw⟩ := hs.processes hw
  obtain ⟨eb', hb', hblock, hvalid, -⟩ := hkeeps.grows h eb hb
  have hheader : eb'.header = eb.header := congrArg Block.header hblock
  obtain ⟨l, hl, -, hrecent⟩ := (hs.wf ord).lastFinalized
  rw [hlfb, Option.some.injEq] at hl
  subst hl
  obtain ⟨rb, hrb, -⟩ : ∃ rb, s.disk.block nd.cfg.root = some rb ∧ _ := (hs.wf ord).root
  obtain ⟨rb', hrb', hroot, -⟩ := hkeeps.grows _ rb hrb
  have hrootHeight : rootHeight nd w.disk = rb.header.height.toNat := by
    rw [rootHeight, hrb']
    exact congrArg (fun b : Block => b.header.height.toNat) hroot
  have hlow : rb.header.height.toNat < eb.header.height.toNat := by
    rw [Recent, rootHeight, show s.disk.block (nd.under _ ord).cfg.root = _ from hrb] at hrecent
    exact Nat.lt_of_le_of_lt hrecent (UInt64.lt_iff_toNat_lt.1 habove)
  have hne : h ≠ nd.cfg.root := by
    rintro rfl
    rw [hrb, Option.some.injEq] at hb
    rw [hb] at hlow
    exact Nat.lt_irrefl _ hlow
  have hindex := (tidy_processes hzero hs ht hw).index h eb' hb'
    (by rw [Recent, hrootHeight, hheader]; exact hlow.le) hne
  rw [hheader] at hindex
  exact ⟨eb', mem_filterMap.2 ⟨h, hindex, hb'⟩, (hsw.wf ord).key h eb' hb', hblock, hvalid⟩

end Reads

/-- What holds no block up: the block is not in the cache, the engine does not decide it while
the iteration reads, and it is not beside the last finalized block or below. -/
structure Unhindered (cfg : ChainConfig) (lfb eb : ExtendedBlock) (reads : List Store)
    (dumpBlockCache : List Hash) : Prop where
  uncached : cfg.hash eb.header ∉ dumpBlockCache
  undecided : ∀ d ∈ reads, ∀ x, d.block (cfg.hash eb.header) = some x → x.status.isPending
  above : lfb.header.height < eb.header.height
  onTop : lfb.header.height + 1 = eb.header.height → eb.header.parent = cfg.hash lfb.header

/-- A block that the engine has processed and left pending is passed to it by every iteration
that starts when the heights up to it are there and its parent is valid, and that it does not
find in the cache, if no certificate has two votes of one voter. -/
theorem undecided_block_passed_again {d : Store} (hzero : ∀ i, (digest i).isEmpty = false)
    (hd : ∃ ord, Fresh (nd.under (headerHash digest) ord) d) (hvoters : d.DistinctVoters)
    {s₁ s₂ : EngineConf} {b : Block} {left lfb eb : ExtendedBlock}
    (hrun : Processes nd digest BringsDistinct ⟨Engine.new nd.cfg d, d, []⟩ s₁)
    (hup : s₁.mem.stopped = false)
    (hstep : (Engine.step (nd.under (headerHash digest) a.order) a (.block b)).run s₁ =
      (some (), s₂))
    (hleft : s₂.disk.block (headerHash digest a.order b.header) = some left)
    (hpending : left.status.isPending) (hnext : Processes nd digest BringsDistinct s₂ s)
    (hlfb : s.disk.block s.mem.state.lastFinalizedBlock = some lfb)
    (hstored : s.disk.block (headerHash digest a.order b.header) = some eb)
    (hheights : ∀ k, lfb.header.height < k → k ≤ eb.header.height →
      ∃ h x, s.disk.block h = some x ∧ x.header.height = k)
    (hparent : ∃ pb, s.disk.block eb.header.parent = some pb ∧ pb.status.isValid)
    {reads : List EngineConf} (hreads : ∀ w ∈ reads, Processes nd digest BringsDistinct s w)
    {ord : MapOrder} {dumpBlockCache : List Hash} {p : Delivery}
    (hiter : passReadyBlocks (nd.cfg.under (headerHash digest) ord) lfb
      (reads.map fun w => w.disk) dumpBlockCache = some p)
    (hfree : Unhindered (nd.cfg.under (headerHash digest) ord) lfb eb
      (reads.map fun w => w.disk) dumpBlockCache) :
    eb.block ∈ p.passed := by
  obtain ⟨-, hs₁⟩ := (boundary_start hd hvoters).processes hrun
  have hbrings : BringsDistinct s₁ a (.block b) := by
    rintro _ ⟨⟩
  have hmid : Processes nd digest BringsDistinct s₁ s := hnext.head ⟨a, _, hbrings, hstep⟩
  obtain ⟨hkeeps, hs⟩ := hs₁.processes hmid
  have ht : Tidy nd s.disk := by
    obtain ⟨o, hd⟩ := hd
    exact tidy_processes hzero (boundary_start ⟨o, hd⟩ hvoters) (tidy_under_iff.1 hd.tidy)
      (hrun.trans hmid)
  have hkey : headerHash digest ord eb.header = headerHash digest a.order b.header :=
    (hs.wf ord).key _ eb hstored
  rw [← hkey] at hstored
  obtain ⟨pb, hpb, hvalid⟩ := hparent
  have hheight : eb.header.height.toNat = pb.header.height.toNat + 1 := by
    have hhandle : (handleBlock (nd.under (headerHash digest) a.order) a b).run s₁ =
        (some (), s₂) := by
      rw [← hstep]
      show _ = Proc.run (if s₁.mem.stopped then pure () else _) s₁
      rw [if_neg (by simp [hup])]
      rfl
    obtain ⟨eb₀, pb₀, hb₀, hpb₀, hheight⟩ :=
      height_of_left_pending (hs₁.wf a.order) hhandle hleft hpending
    have hheader := hkeeps.grows.header hb₀ (hkey ▸ hstored)
    rw [← hheader] at hpb₀
    rw [hheader, hheight, hkeeps.grows.header hpb₀ hpb]
  have hoffers : ∀ d ∈ reads.map fun w => w.disk, Offers (nd.cfg.under (headerHash digest) ord)
      (headerHash digest ord eb.header) eb lfb.header.height d := by
    intro d hd
    obtain ⟨w, hw, rfl⟩ := mem_map.1 hd
    have hfind := fun {h : Hash} {x : ExtendedBlock} (hb : s.disk.block h = some x) habove =>
      mem_findBlocksByHeight hzero hs ht (hreads w hw) hlfb hb habove ord
    refine ⟨fun k hk hle hnil => ?_, fun k x hx hh => ?_, ?_, fun k hk hnext => ?_⟩
    · obtain ⟨h, x, hb, rfl⟩ := hheights k hk hle
      obtain ⟨y, hy, -⟩ := hfind hb hk
      rw [hnil] at hy
      cases hy
    · obtain ⟨h, -, hx⟩ := mem_filterMap.1 hx
      obtain ⟨hkept, hsw⟩ := hs.processes (hreads w hw)
      obtain rfl : h = headerHash digest ord eb.header := ((hsw.wf ord).key h x hx).symm.trans hh
      obtain ⟨x', hx', hblock, -⟩ := hkept.grows _ eb hstored
      obtain rfl : x' = x := Option.some.inj (hx'.symm.trans hx)
      exact ⟨hblock, hfree.undecided _ hd x' hx⟩
    · obtain ⟨x, hx, hh, -⟩ := hfind hstored hfree.above
      exact ⟨x, hx, hh⟩
    · obtain rfl : pb.header.height = k := by
        have hk := k.toNat_lt
        have hnat := congrArg UInt64.toNat hnext
        rw [UInt64.toNat_add, UInt64.toNat_one, hheight] at hnat
        have := eb.header.height.toNat_lt
        exact UInt64.toNat.inj (by omega)
      obtain ⟨x, hx, hh, -, hkept⟩ := hfind hpb hk
      exact ⟨x, hx, hh, hkept hvalid⟩
  have hfirst : (lfb.header.height + 1).toNat = lfb.header.height.toNat + 1 := by
    have := UInt64.lt_iff_toNat_lt.1 hfree.above
    have := eb.header.height.toNat_lt
    rw [UInt64.toNat_add, UInt64.toNat_one, Nat.mod_eq_of_lt (by omega)]
  refine passed_of_passHeights hoffers ?_ ?_ ?_ (.inr hfree.uncached) hiter
  · rw [UInt64.lt_iff_toNat_lt, hfirst]
    exact Nat.lt_succ_self _
  · rw [UInt64.le_iff_toNat_le, hfirst]
    exact UInt64.lt_iff_toNat_lt.1 hfree.above
  · intro htop
    obtain ⟨l, hl, hlvalid, -⟩ := (hs.wf ord).lastFinalized
    obtain rfl : l = lfb := Option.some.inj (hl.symm.trans hlfb)
    exact ⟨l, mem_singleton_self l, (hfree.onTop htop).symm, hlvalid⟩

/-! ## A node whose mainchain is out of sync -/

def outOfSync : Answers :=
  { sampleAnswers 12 with applyBlockTxs := fun _ => (.undecided "", none) }

def oddStep (s : EngineConf) (act : Engine.Action) : Option Unit × EngineConf :=
  (Engine.step (oddNode.under (headerHash firstVoteDigest) .id) outOfSync act).run s

def received : EngineConf :=
  (oddStep (oddStart (rootStore oddNode sampleRoot) []) (.addBlock block₁)).2

def leftPending : EngineConf := (oddStep received (.block block₁)).2

theorem received_reached : Processes oddNode firstVoteDigest BringsDistinct
    (oddStart (rootStore oddNode sampleRoot) []) received := by
  have hdistinct : block₁.header.DistinctVoters := by decide
  refine Relation.ReflTransGen.single ⟨outOfSync, .addBlock block₁, ?_, ?_⟩
  · rintro _ ⟨⟩
    exact hdistinct
  · exact Prod.ext (by decide) rfl

def oddChain : ChainConfig := oddNode.cfg.under (headerHash firstVoteDigest) .id

/-- The first iteration passes the block; the engine leaves it pending, on a valid parent; and
the next iteration does not pass it. -/
theorem undecided_block_not_retried :
    ∃ lfb eb p p', Processes oddNode firstVoteDigest BringsDistinct
        (oddStart (rootStore oddNode sampleRoot) []) received ∧
      passReadyBlocks oddChain lfb [received.disk, received.disk] [] = some p ∧
      p.passed = [block₁] ∧ oddStep received (.block block₁) = (some (), leftPending) ∧
      leftPending.disk.block leftPending.mem.state.lastFinalizedBlock = some lfb ∧
      leftPending.disk.block (oddChain.hash block₁.header) = some eb ∧
      eb.status = .pending ∧ eb.header.height = lfb.header.height + 1 ∧
      eb.header.parent = oddChain.hash lfb.header ∧ lfb.status.isValid ∧
      passReadyBlocks oddChain lfb [leftPending.disk, leftPending.disk] p.dumpBlockCache =
        some p' ∧ p'.passed = [] := by
  exact ⟨_, _, _, _, received_reached, rfl, rfl, rfl, rfl, rfl, rfl, rfl, rfl, rfl, rfl, rfl⟩

theorem undecided_block_passed_again_uncached :
    ∃ lfb p, leftPending.disk.block leftPending.mem.state.lastFinalizedBlock = some lfb ∧
      passReadyBlocks oddChain lfb [leftPending.disk, leftPending.disk] [] = some p ∧
      block₁ ∈ p.passed := by
  obtain ⟨lfb, eb, p, hlfb, hstored, hp, heb⟩ : ∃ lfb eb p,
      leftPending.disk.block leftPending.mem.state.lastFinalizedBlock = some lfb ∧
      leftPending.disk.block (headerHash firstVoteDigest .id block₁.header) = some eb ∧
      passReadyBlocks oddChain lfb [leftPending.disk, leftPending.disk] [] = some p ∧
      eb.block = block₁ ∧ eb.status = .pending ∧ lfb.header.height = 0 ∧ lfb.status.isValid ∧
      oddChain.hash lfb.header = block₁.header.parent ∧
      leftPending.disk.block block₁.header.parent = some lfb :=
    ⟨_, _, _, rfl, rfl, rfl, rfl, rfl, rfl, rfl, rfl, rfl⟩
  obtain ⟨hblock, hpending, hheight, hvalid, hparent, hfound⟩ := heb
  have heb : eb.header = block₁.header := congrArg Block.header hblock
  have hheights : ∀ k : UInt64, lfb.header.height < k → k ≤ eb.header.height →
      ∃ h x, leftPending.disk.block h = some x ∧ x.header.height = k := by
    intro k hk hle
    obtain rfl : k = 1 := by
      rw [hheight, UInt64.lt_iff_toNat_lt] at hk
      rw [heb, UInt64.le_iff_toNat_le] at hle
      exact UInt64.toNat.inj (Nat.le_antisymm hle hk)
    exact ⟨_, eb, hstored, by rw [heb]; rfl⟩
  have hreads : ∀ w ∈ [leftPending, leftPending],
      Processes oddNode firstVoteDigest BringsDistinct leftPending w := by
    intro w hw
    obtain rfl : w = leftPending := by simpa using hw
    exact .refl
  have hfree : Unhindered oddChain lfb eb [leftPending.disk, leftPending.disk] [] := by
    refine ⟨not_mem_nil, fun d hd x hx => ?_, ?_, fun _ => ?_⟩
    · obtain rfl : d = leftPending.disk := by simpa using hd
      rw [heb, show leftPending.disk.block (oddChain.hash block₁.header) = _ from hstored] at hx
      obtain rfl := Option.some.inj hx
      rw [hpending]
      rfl
    · rw [heb, hheight]
      decide
    · rw [heb, hparent]
  have hstep : (Engine.step (oddNode.under (headerHash firstVoteDigest) outOfSync.order) outOfSync
      (.block block₁)).run received = (some (), leftPending) :=
    Prod.ext (by decide) rfl
  have hpassed := undecided_block_passed_again (a := outOfSync) (b := block₁)
    firstVoteDigest_nonzero fresh_odd distinctVoters_odd received_reached (by decide)
    hstep hstored (by rw [hpending]; rfl) .refl hlfb hstored hheights
    ⟨lfb, heb ▸ hfound, hvalid⟩ hreads hp hfree
  exact ⟨lfb, p, hlfb, hp, hblock ▸ hpassed⟩

end Delivery

end ThetaSubchain
