/-
No two finalized blocks conflict.

The invariant of the whole network is one legal log that every node agrees with.  A step
of one node adds entries of that node only, so the other nodes are not affected.
-/
import ThetaSubchain.Consensus.Agreement

namespace ThetaSubchain

open Durable EngineConf ExtendedBlock Relation.ReflTransGen Function

variable {ι : Type} {N : Network ι} {occ : Set BlockHeader} {hocc : Set.InjOn N.cfg.hash occ}
  {L M : List (Address × Hash)} {i : ι} {a : Answers} {s : EngineConf} {w w' : Network.World ι}

def Ancestor (d : Store) : Hash → Hash → Prop :=
  Relation.ReflTransGen fun p c => ∃ cb, d.block c = some cb ∧ cb.header.parent = p

theorem ancestor_of_anc (hw : WellFormed (N.node i) s) (hI : NodeInv hocc L i s) {x y : Hash}
    (hx : (N.tree hocc).height N.cfg.root ≤ (N.tree hocc).height x)
    (h : (N.tree hocc).Anc x y) {yb : ExtendedBlock} (hy : s.disk.block y = some yb)
    (hv : yb.status.isValid) (hrec : Recent (N.node i) s.disk yb) : Ancestor s.disk x y := by
  induction h generalizing yb with
  | refl => exact refl
  | @tail z y hxz hlink ih =>
    have hle := VoteLog.Chain.Anc.height_le hxz
    have hh := (N.tree hocc).link_height hlink
    obtain ⟨hd, hdocc, hhash, hpar, -⟩ := hlink
    have hhead : yb.header = hd :=
      hocc (hI.occurs y yb hy) hdocc ((hw.key y yb hy).trans hhash.symm)
    have hne : y ≠ N.cfg.root := by
      intro hroot
      rw [hroot] at hh
      omega
    obtain ⟨zb, hz, hzv, hzrec, -⟩ := hw.parent y yb hy hrec hv hne
    rw [hhead, hpar] at hz
    exact (ih hz hzv hzrec).tail ⟨yb, hy, by rw [hhead]; exact hpar⟩

theorem closed_nodeLog (hfixed : ∀ h vs, a.getValidatorSet h = some vs → vs = N.validators) :
    Closed (N.node i) a (N.inputs occ L) (fun s => ∃ M, NodeLog hocc L M i s) (Below N)
      (Kept (N.node i) fun s => ∃ M, NodeLog hocc L M i s) where
  effect := by
    rintro s s' hw ⟨M, hM⟩ he
    exact ⟨hM.effect hw hfixed he, Below.effect hw he⟩
  mid := by
    rintro s s' hw ⟨M, hM⟩ he
    exact ⟨M, hM.legal, hM.grows, hM.own, hM.inv.mid hw hfixed he⟩
  keep hw h := ⟨_, hw, h⟩

theorem nodeInv_start {d : Store} (hd : Fresh (N.node i) d)
    (hinit : ∀ h eb, d.block h = some eb → eb.header ∈ occ ∧
      ∀ q ∈ occ, N.cfg.hash q = eb.header.parent → q.height < eb.header.height) :
    NodeInv hocc [] i ⟨Engine.new N.cfg d, d, []⟩ ∧ Below N ⟨Engine.new N.cfg d, d, []⟩ := by
  have hcc : (State.load N.cfg d).highestCCBlock = N.cfg.root := by simp [State.load, hd.stub]
  have hlf : (State.load N.cfg d).lastFinalizedBlock = N.cfg.root := by
    simp [State.load, hd.stub]
  have hlast : (State.load N.cfg d).lastVote = .zero := by simp [State.load, hd.stub]
  obtain ⟨rb, hr, -⟩ := hd.root
  have hfinal : ∀ h eb, d.block h = some eb → eb.status.IsFinal → h = N.cfg.root := by
    intro h eb hb hfin
    by_contra hne
    have hold := (hd.older h eb hb hne).2
    rcases hfin with hst | hst <;> simp [hst] at hold
  refine ⟨?_, .inl hlf⟩
  constructor
  · intro h eb hb
    exact (hinit h eb hb).1
  · intro h eb hb _ _
    exact (hinit h eb hb).2
  · intro p pb c hp hc
    obtain ⟨cb, hcb, hpar⟩ := hd.children p pb c hp hc
    exact ⟨cb.header, (hinit c cb hcb).1, hd.key c cb hcb, hpar⟩
  · intro h eb hb hfin
    have hroot := hfinal h eb hb hfin
    refine ⟨⟨N.cfg.root, ?_, .inl rfl⟩, ?_⟩
    · rw [hroot]
      exact VoteLog.Chain.Anc.refl _
    · rw [hroot] at hb
      show rootHeight (N.node i) d ≤ eb.header.height.toNat
      rw [rootHeight, show d.block (N.node i).cfg.root = some eb from hb]
  · intro h eb lb hb hfin hl
    have hl : d.block (State.load N.cfg d).lastFinalizedBlock = some lb := hl
    rw [hfinal h eb hb hfin] at hb
    rw [hlf] at hl
    rw [Option.some.inj (Eq.trans (Eq.symm hl) hb)]
  · exact .inl hcc
  · intro h eb hb _ hrec hne
    exact absurd hrec (hd.older h eb hb hne).1
  · intro h v hv
    have hnone : d.votes h = none := hd.votes h
    simp [Chain.findVotesByHash, hnone] at hv
  · simp [castVotes]
  · exact fun hne => absurd hlast hne
  · simp
  · simp

structure WorldInv (hocc : Set.InjOn N.cfg.hash occ) (L : List (Address × Hash))
    (w : Network.World ι) : Prop where
  legal : (N.tree hocc).Legal L
  up : ∀ i s, w i = ⟨some s.mem, s.disk, s.outs⟩ →
    Good (N.node i) (NodeInv hocc L i) (Below N) s
  kept : ∀ i, Kept (N.node i) (NodeInv hocc L i) (w i).disk (w i).outs

theorem worldInv_start (hstart : N.Start occ w) : WorldInv hocc [] w := by
  refine ⟨.nil, ?_, ?_⟩
  · intro i s hs
    obtain ⟨d, hw, hd, hinit⟩ := hstart i
    have hs' : s = ⟨Engine.new N.cfg d, d, []⟩ := Machine.conf_inj (hs.symm.trans hw)
    rw [hs']
    obtain ⟨hI, hJ⟩ : NodeInv hocc [] i _ ∧ Below N _ := nodeInv_start hd hinit
    exact ⟨⟨hd.wellFormed [], hI⟩, hJ⟩
  · intro i
    obtain ⟨d, hw, hd, hinit⟩ := hstart i
    rw [hw]
    exact ⟨_, hd.wellFormed [], (nodeInv_start hd hinit).1⟩

theorem WorldInv.update [DecidableEq ι] (h : WorldInv hocc L w) {m : Machine Engine Store Output}
    (hlegal : (N.tree hocc).Legal M) (hgrows : L ⊆ M)
    (hown : ∀ u b, (u, b) ∈ M → u ≠ N.addr i → (u, b) ∈ L)
    (hup : ∀ s, m = ⟨some s.mem, s.disk, s.outs⟩ →
      Good (N.node i) (NodeInv hocc M i) (Below N) s)
    (hkept : Kept (N.node i) (NodeInv hocc M i) m.disk m.outs) :
    WorldInv hocc M (update w i m) := by
  have hother : ∀ j, j ≠ i → ∀ b, (N.addr j, b) ∈ M → (N.addr j, b) ∈ L := by
    intro j hj b hb
    exact hown _ b hb fun heq => hj (N.addr_injective heq)
  refine ⟨hlegal, ?_, ?_⟩
  · intro j s hs
    by_cases hj : j = i
    · subst hj
      rw [update_self] at hs
      exact hup s hs
    · rw [update_of_ne hj] at hs
      have hg := h.up j s hs
      exact ⟨⟨hg.wf, hg.inv.mono hgrows (hother j hj)⟩, hg.boundary⟩
  · intro j
    by_cases hj : j = i
    · subst hj
      rw [update_self]
      exact hkept
    · rw [update_of_ne hj]
      obtain ⟨e, hw, hI⟩ := h.kept j
      exact ⟨e, hw, hI.mono hgrows (hother j hj)⟩

theorem WorldInv.inputs (h : WorldInv hocc L w) {act : Engine.Action}
    (hadm : N.Admissible occ w i s a act) :
    act.delivered (N.node i) s.disk ⊆ (N.inputs occ L).votes ∧
      act.added (N.node i) a s ⊆ (N.inputs occ L).blocks := by
  refine ⟨?_, hadm.occurs⟩
  rintro v hv hok ⟨j, hj⟩
  obtain ⟨u, hu, hsign⟩ := hadm.unforged v hv hok j hj.symm
  obtain ⟨e, -, hI⟩ := h.kept j
  rw [← hj, ← Vote.block_eq_of_signBytes hsign]
  exact (hI.cast u hu).2

section Step

variable [DecidableEq ι]

theorem WorldInv.step (h : WorldInv hocc L w) (hs : N.Step occ w w') : ∃ M, WorldInv hocc M w' := by
  -- the specification of a step of the node `i`
  have hspec : ∀ i s a act, w i = ⟨some s.mem, s.disk, s.outs⟩ → N.Admissible occ w i s a act →
      (Engine.step (N.node i) a act).wp (Kept (N.node i) fun s => ∃ M, NodeLog hocc L M i s)
        (fun _ => Good (N.node i) (fun s => ∃ M, NodeLog hocc L M i s) (Below N)) s := by
    intro i s a act hw hadm
    have hg := h.up i s hw
    have hlog : NodeLog hocc L L i s :=
      ⟨h.legal, List.Subset.refl L, fun u b hb _ => hb, hg.inv⟩
    obtain ⟨hv, hb⟩ := h.inputs hadm
    exact wp_step (closed_nodeLog hadm.fixed) ⟨⟨hg.wf, L, hlog⟩, hg.boundary⟩ act hv hb
  cases hs with
  | run i s s' a act hw hadm hr =>
    obtain ⟨⟨hwf, M, hM⟩, hJ⟩ := Proc.wp_run (hspec i s a act hw hadm) hr
    refine ⟨M, h.update hM.legal hM.grows hM.own ?_ ⟨s'.mem, hwf, hM.inv⟩⟩
    intro t ht
    rw [← Machine.conf_inj ht]
    exact ⟨⟨hwf, hM.inv⟩, hJ⟩
  | stop i s c a act hw hadm hc =>
    have hkept : Kept (N.node i) (fun s => ∃ M, NodeLog hocc L M i s) c.disk c.outs := by
      rcases List.mem_cons.1 hc with rfl | hc
      · have hg := h.up i c hw
        exact ⟨c.mem, hg.wf, L, h.legal, List.Subset.refl L, fun u b hb _ => hb, hg.inv⟩
      · exact Proc.wp_points (hspec i s a act hw hadm) c hc
    obtain ⟨e, hwf, M, hM⟩ := hkept
    refine ⟨M, h.update hM.legal hM.grows hM.own ?_ ⟨e, hwf, hM.inv⟩⟩
    intro t ht
    cases ht

theorem exists_worldInv (hstart : N.Start occ w) (hrun : Relation.ReflTransGen (N.Step occ) w w') :
    ∃ L, WorldInv hocc L w' := by
  induction hrun with
  | refl => exact ⟨[], worldInv_start hstart⟩
  | tail _ hs ih =>
    obtain ⟨L, h⟩ := ih
    exact h.step hs

/-- Finality agreement: of two blocks that honest nodes have finalized, one is an ancestor
of the other, over every order, loss and duplication of what is delivered. -/
theorem finalized_ancestor (hocc : Set.InjOn N.cfg.hash occ) (hstart : N.Start occ w)
    (hrun : Relation.ReflTransGen (N.Step occ) w w') {i j : ι} {x y : Hash}
    {xb yb : ExtendedBlock} (hx : (w' i).disk.block x = some xb) (hxf : xb.status.IsFinal)
    (hy : (w' j).disk.block y = some yb) (hyf : yb.status.IsFinal) :
    Ancestor (w' j).disk x y ∨ Ancestor (w' i).disk y x := by
  obtain ⟨L, h⟩ : ∃ L, WorldInv hocc L w' := exists_worldInv hstart hrun
  obtain ⟨e, hwi, hIi⟩ := h.kept i
  obtain ⟨f, hwj, hIj⟩ := h.kept j
  obtain ⟨hxL, hxrec⟩ := hIi.final x xb hx hxf
  obtain ⟨hyL, hyrec⟩ := hIj.final y yb hy hyf
  have hvalid : ∀ st : BlockStatus, st.IsFinal → st.isValid := by
    rintro st (rfl | rfl) <;> rfl
  have hxroot : (N.tree hocc).height N.cfg.root ≤ (N.tree hocc).height x := by
    rw [height_root hwi hIi, height_stored hwi hIi hx]
    exact hxrec
  have hyroot : (N.tree hocc).height N.cfg.root ≤ (N.tree hocc).height y := by
    rw [height_root hwj hIj, height_stored hwj hIj hy]
    exact hyrec
  rcases hxL.total h.legal hyL with hxy | hyx
  · exact .inl (ancestor_of_anc hwj hIj hxroot hxy hy (hvalid _ hyf) hyrec)
  · exact .inr (ancestor_of_anc hwi hIi hyroot hyx hx (hvalid _ hxf) hxrec)

end Step

/-! ### Two honest nodes and a validator that votes on both sides of a fork -/

def pairValidators : ValidatorSet := ⟨0, [⟨1, 4⟩, ⟨2, 3⟩, ⟨3, 3⟩]⟩

def pairNetwork : Network Bool where
  cfg := sampleNode.cfg
  verify := sampleNode.verify
  trieRoot := sampleNode.trieRoot
  sign := fun _ => sampleNode.sign
  addr := fun i => if i then 1 else 2
  validators := pairValidators
  addr_injective := by decide
  nonNeg := by decide
  byzantine := by
    have hmembers : pairValidators.members = {1, 2, 3} := rfl
    have hstake : pairValidators.stakeOf 3#160 = 3 := rfl
    have htotal : pairValidators.totalStake = 10 := rfl
    simp [Quorum.weight, hmembers, Set.indicator, hstake, htotal]

def pairAnswers : Answers :=
  { sampleAnswers 12 with
    getValidatorSet := fun _ => some pairNetwork.validators
    getNextValidatorSet := fun _ => some pairNetwork.validators }

def pairVote (id : Address) (h : BlockHeader) : Vote :=
  ⟨sampleNode.cfg.hash h, h.height, 0, h.epoch, id, some ⟨[1]⟩⟩

-- The validators 1 and 3 hold seven tenths of the stake, so the votes of the node 2 are not needed.
def pairChild (h : BlockHeader) (time : ℕ) : Block :=
  { sampleRoot with
    header := { sampleRoot.header with
      epoch := h.epoch + 1, height := h.height + 1, parent := sampleNode.cfg.hash h
      hcc := ⟨some ((VoteSet.empty.addVote (pairVote 1 h)).addVote (pairVote 3 h)),
        sampleNode.cfg.hash h⟩
      timestamp := some time, proposer := 1, signature := some ⟨[1]⟩ } }

def pairBlock : Block := pairChild sampleRoot.header 10

def pairTip : Block := pairChild pairBlock.header 11

def pairFork : Block := pairChild sampleRoot.header 9

def pairHeaders : List BlockHeader :=
  [sampleRoot.header, pairBlock.header, pairTip.header, pairFork.header]

def pairState (i : Bool) : List (Bool × Engine.Action) → EngineConf
  | [] => ⟨Engine.new pairNetwork.cfg (rootStore (pairNetwork.node i) sampleRoot),
      rootStore (pairNetwork.node i) sampleRoot, []⟩
  | (j, act) :: steps =>
    if i = j then
      ((Engine.step (pairNetwork.node i) pairAnswers act).run (pairState i steps)).2
    else pairState i steps

def pairWorld (steps : List (Bool × Engine.Action)) : Network.World Bool := fun i =>
  ⟨some (pairState i steps).mem, (pairState i steps).disk, (pairState i steps).outs⟩

def pairCast (steps : List (Bool × Engine.Action)) (v : Vote) : Bool :=
  ∀ j, v.id = pairNetwork.addr j → v ∈ castVotes (pairState j steps).outs

/-- The votes a step delivers have been cast where their voter is honest, and the blocks it
adds occur. -/
def pairAllows (steps : List (Bool × Engine.Action)) (i : Bool) : Engine.Action → Bool
  | .addBlock b => b.header ∈ pairHeaders
  | .block b =>
    ((pairState i steps).disk.block (pairNetwork.cfg.hash b.header)).map header = some b.header ∧
      ∀ votes ∈ b.header.hcc.votes, ∀ v ∈ votes.entries, pairCast steps v
  | .vote v => pairCast steps v
  | .epochTimer => true
  | _ => false

def pairRuns : List (Bool × Engine.Action) → Bool
  | [] => true
  | (i, act) :: steps => pairRuns steps ∧ pairAllows steps i act ∧
      ((Engine.step (pairNetwork.node i) pairAnswers act).run (pairState i steps)).1 = some ()

section PairRun

variable {steps : List (Bool × Engine.Action)} {i : Bool} {act : Engine.Action}

theorem admissible_of_pairAllows (h : pairAllows steps i act) :
    pairNetwork.Admissible {hd | hd ∈ pairHeaders} (pairWorld steps) i (pairState i steps)
      pairAnswers act := by
  have hfixed : ∀ h vs, pairAnswers.getValidatorSet h = some vs → vs = pairNetwork.validators :=
    fun h vs hvs => (Option.some.inj hvs).symm
  have hcast : ∀ v, pairCast steps v → ∀ j, v.id = pairNetwork.addr j →
      ∃ u ∈ castVotes (pairWorld steps j).outs, u.signBytes = v.signBytes :=
    fun v hv j hj => ⟨v, of_decide_eq_true hv j hj, rfl⟩
  cases act with
  | addBlock b =>
    refine ⟨hfixed, fun v hv => hv.elim, ?_⟩
    intro c hc
    rw [Set.mem_singleton_iff.1 hc]
    exact of_decide_eq_true h
  | block b =>
    obtain ⟨hstored, hvotes⟩ := of_decide_eq_true h
    refine ⟨hfixed, ?_, fun c hc => hc.elim⟩
    rintro v ⟨eb, votes, heb, hcc, hmem⟩ -
    rw [show (pairState i steps).disk.block (pairNetwork.cfg.hash b.header) = some eb from heb,
      Option.map_some, Option.some.injEq] at hstored
    rw [hstored] at hcc
    exact hcast v (hvotes votes hcc v hmem)
  | vote v =>
    refine ⟨hfixed, ?_, fun c hc => hc.elim⟩
    intro u hu _
    rw [Set.mem_singleton_iff.1 hu]
    exact hcast v h
  | epochTimer => exact ⟨hfixed, fun v hv => hv.elim, fun c hc => hc.elim⟩
  | _ => cases h

theorem pairWorld_reachable (h : pairRuns steps) :
    Relation.ReflTransGen (pairNetwork.Step {hd | hd ∈ pairHeaders}) (pairWorld [])
      (pairWorld steps) := by
  induction steps with
  | nil => exact .refl
  | cons st steps ih =>
    obtain ⟨i, act⟩ := st
    obtain ⟨hsteps, hallows, hr⟩ := of_decide_eq_true h
    have hi : pairState i ((i, act) :: steps) =
        ((Engine.step (pairNetwork.node i) pairAnswers act).run (pairState i steps)).2 := if_pos rfl
    have hstep := Network.Step.run i _ (pairState i ((i, act) :: steps)) pairAnswers act rfl
      (admissible_of_pairAllows hallows) (Prod.ext hr hi.symm)
    have hworld : pairWorld ((i, act) :: steps) = update (pairWorld steps) i
        (pairWorld ((i, act) :: steps) i) := by
      funext j
      rcases eq_or_ne j i with rfl | hji
      · rw [update_self]
      · rw [update_of_ne hji, pairWorld, pairState, if_neg hji]
        rfl
    rw [hworld]
    exact tail (ih hsteps) hstep

end PairRun

/-- The validator 3 votes for the block at one node and also for the fork at the other.  Latest
first. -/
def pairSteps : List (Bool × Engine.Action) :=
  let votes (i : Bool) (b : Block) : List (Bool × Engine.Action) :=
    [(i, .vote (pairVote 3 b.header)), (i, .vote (pairVote 1 b.header))]
  let adds (i : Bool) (b : Block) : List (Bool × Engine.Action) := [(i, .block b), (i, .addBlock b)]
  votes false pairTip ++ adds false pairTip ++ votes false pairBlock ++ adds false pairBlock ++
    [(false, .vote (pairVote 3 pairFork.header))] ++
    votes true pairTip ++ [(true, .epochTimer)] ++ adds true pairTip ++
    votes true pairBlock ++ [(true, .epochTimer)] ++ adds true pairBlock ++
    votes true sampleRoot ++ [(true, .epochTimer)]

theorem finalized_ancestor_pair :
    let d := fun i => (pairState i pairSteps).disk
    let h := sampleNode.cfg.hash pairBlock.header
    (∀ i, ((d i).block h).map status = some .directlyFinalized) ∧
      (Ancestor (d false) 5 h ∨ Ancestor (d true) h 5) := by
  intro d h
  have hrun := pairWorld_reachable (show pairRuns pairSteps by decide +kernel)
  have hinj : Set.InjOn pairNetwork.cfg.hash {hd | hd ∈ pairHeaders} := by
    show ∀ x ∈ pairHeaders, ∀ y ∈ pairHeaders, _ → x = y
    decide +kernel
  have hstart : pairNetwork.Start {hd | hd ∈ pairHeaders} (pairWorld []) := by
    intro i
    have hroot : pairNetwork.cfg.hash sampleRoot.header = pairNetwork.cfg.root := by decide
    refine ⟨rootStore (pairNetwork.node i) sampleRoot, rfl, fresh_rootStore hroot, ?_⟩
    intro h eb hb
    rw [(rootStore_block hb).2]
    refine ⟨.head _, ?_⟩
    show ∀ q ∈ pairHeaders, _ → _
    decide
  have hfinal : ∀ i, ((d i).block h).map status = some .directlyFinalized := by decide
  have hroot : ((d true).block 5).map status = some .directlyFinalized := by decide
  obtain ⟨xb, hxb, hxf⟩ := Option.map_eq_some_iff.1 hroot
  obtain ⟨yb, hyb, hyf⟩ := Option.map_eq_some_iff.1 (hfinal false)
  exact ⟨hfinal, finalized_ancestor hinj hstart hrun (i := true) (j := false) hxb (.inl hxf) hyb
    (.inl hyf)⟩

end ThetaSubchain
