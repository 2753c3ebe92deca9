/-
What becomes of a stored block, over all messages, crashes and restarts of a node.

A block keeps its content and passes its statuses in one direction.
-/
import ThetaSubchain.Consensus.AncestorClosure

namespace ThetaSubchain

open Durable EngineConf Option

/-- The status diagram of core/block.go, as far as the engine uses it. -/
inductive BlockStatus.Next : BlockStatus → BlockStatus → Prop where
  | refused : Next .pending .invalid
  | accepted : Next .pending .valid
  | committed : Next .valid .committed
  | finalized {st st' : BlockStatus} (hvalid : st.isValid) (hfinal : st'.isFinalized) : Next st st'

/-- The blocks of the store are in the later one, with statuses that follow the diagram. -/
def Store.Lives (d d' : Store) : Prop :=
  ∀ h eb, d.block h = some eb → ∃ eb', d'.block h = some eb' ∧ eb'.block = eb.block ∧
    Relation.ReflTransGen BlockStatus.Next eb.status eb'.status

variable {nd : Node} {digest : Rlp.Item → Hash} {a : Answers} {d d' d'' : Store}
  {m m' : Machine Engine Store Output}

theorem Store.Lives.refl (d : Store) : d.Lives d := fun _ eb hb => ⟨eb, hb, rfl, .refl⟩

theorem Store.Lives.trans (h : d.Lives d') (h' : d'.Lives d'') : d.Lives d'' := by
  intro x eb hb
  obtain ⟨eb', hb', hblock, hstatus⟩ := h x eb hb
  obtain ⟨eb'', hb'', hblock', hstatus'⟩ := h' x eb' hb'
  exact ⟨eb'', hb'', hblock'.trans hblock, hstatus.trans hstatus'⟩

theorem BlockChange.next {eb eb' : ExtendedBlock} (h : BlockChange a eb eb') :
    Relation.ReflTransGen BlockStatus.Next eb.status eb'.status := by
  cases h with
  | link => exact .refl
  | update => exact .refl
  | invalid hpending => exact .single (hpending ▸ .refused)
  | valid hpending => exact .single (hpending ▸ .accepted)
  | commit hvalid => exact .single (hvalid ▸ .committed)
  | finalize st hvalid hst => exact .single (.finalized hvalid hst)

theorem StoreStep.lives (hs : StoreStep a d d') : d.Lives d' := by
  intro h eb hb
  obtain ⟨eb', hb', rfl | hchange⟩ := hs.forward hb
  · exact ⟨eb', hb', rfl, .refl⟩
  · exact ⟨eb', hb', hchange.block_eq, hchange.next⟩

theorem closed_lives (a : Answers) (d : Store) :
    Closed nd a ⟨Set.univ, Set.univ⟩ (fun s => d.Lives s.disk) (fun _ => True)
      (fun d' _ => d.Lives d') where
  effect _ h he := ⟨h.trans he.storeStep.lives, trivial⟩
  mid _ h he := h.trans he.storeStep.lives
  keep _ h := h

/-- The steps of a node on messages that bring no certificate with two votes of one voter, with
crashes at any point. -/
abbrev DistinctStep (nd : Node) (digest : Rlp.Item → Hash) :
    Machine Engine Store Output → Machine Engine Store Output → Prop :=
  Step (Engine.new nd.cfg) (StepsOf nd (headerHash digest) BringsDistinct) fun _ _ => True

theorem lives_step (hup : ∀ e, m.mem = some e → ∀ ord,
      WellFormed (nd.under (headerHash digest) ord) ⟨e, m.disk, m.outs⟩)
    (h : DistinctStep nd digest m m') : m.disk.Lives m'.disk := by
  have hwp : ∀ (s : EngineConf) (a : Answers) act,
      WellFormed (nd.under (headerHash digest) a.order) s →
      (Engine.step (nd.under (headerHash digest) a.order) a act).wp (fun d _ => s.disk.Lives d)
        (fun _ => Good (nd.under (headerHash digest) a.order) (fun t => s.disk.Lives t.disk)
          fun _ => True) s :=
    fun s a act hw => wp_step (closed_lives a s.disk) ⟨⟨hw, .refl _⟩, trivial⟩ act
      (Set.subset_univ _) (Set.subset_univ _)
  cases h with
  | run hm hr =>
    obtain ⟨a, act, -, rfl⟩ := hm
    exact (Proc.wp_run (hwp _ a act (hup _ rfl _)) hr).inv
  | crash hm hc =>
    obtain ⟨a, act, -, rfl⟩ := hm
    rcases List.mem_cons.1 hc with rfl | hc
    · exact .refl _
    · exact Proc.wp_points (hwp _ a act (hup _ rfl _)) _ hc
  | restart => exact .refl _

theorem wellFormed_run (hd : ∃ ord, Fresh (nd.under (headerHash digest) ord) d)
    (hvoters : d.DistinctVoters)
    (hrun : Relation.ReflTransGen (DistinctStep nd digest) ⟨none, d, []⟩ m) :
    ∀ e, m.mem = some e → ∀ ord,
      WellFormed (nd.under (headerHash digest) ord) ⟨e, m.disk, m.outs⟩ := by
  have hclosed : ∀ a : Answers, Closed (nd.under (headerHash digest) a.order) a
      ⟨Set.univ, {b | b.header.DistinctVoters}⟩ (fun _ => True) (fun _ => True) fun _ _ => True :=
    fun _ => ⟨fun _ _ _ => ⟨trivial, trivial⟩, fun _ _ _ => trivial, fun _ _ => trivial⟩
  obtain ⟨hup, -⟩ := distinctRun_boundary hd hvoters (fun _ a _ _ => hclosed a)
    (fun _ _ _ hact => ⟨hact, Set.subset_univ _⟩) trivial trivial
    (fun _ _ _ _ _ => ⟨trivial, trivial⟩) hrun
  intro e he ord
  obtain ⟨ord', hg⟩ := hup e he
  exact hg.wf.under fun h eb hb => headerHash_eq (hg.inv.2 h eb hb) ord' ord

/-- From any point of a run to any later one, no stored block is lost or changed, and its status
follows the diagram. -/
theorem blocks_follow_diagram (hd : ∃ ord, Fresh (nd.under (headerHash digest) ord) d)
    (hvoters : d.DistinctVoters)
    (hrun : Relation.ReflTransGen (DistinctStep nd digest) ⟨none, d, []⟩ m)
    (hlater : Relation.ReflTransGen (DistinctStep nd digest) m m') : m.disk.Lives m'.disk := by
  induction hlater with
  | refl => exact .refl _
  | tail hmid hstep ih =>
    exact ih.trans (lives_step (wellFormed_run hd hvoters (hrun.trans hmid)) hstep)

theorem blocks_follow_diagram_odd :
    ∃ t, oddRun (oddStart (rootStore oddNode sampleRoot) []) firstBlocks = some t ∧
      (rootStore oddNode sampleRoot).Lives t.disk := by
  obtain ⟨t, ht⟩ := isSome_iff_exists.mp (show
    (oddRun (oddStart (rootStore oddNode sampleRoot) []) firstBlocks).isSome by decide)
  have hdistinct : ∀ p ∈ firstBlocks, ∀ b ∈ p.2.brought, b.header.DistinctVoters := by
    decide
  have hrun : OrderedRun oddNode (headerHash firstVoteDigest) BringsDistinct (fun _ _ => True)
      (rootStore oddNode sampleRoot) ⟨some t.mem, t.disk, t.outs⟩ :=
    OrderedRun.oddRun (s := oddStart _ []) OrderedRun.start (fun p hp _ => hdistinct p hp) ht
  exact ⟨t, ht, blocks_follow_diagram fresh_odd distinctVoters_odd .refl hrun⟩

end ThetaSubchain
