/-
A node that starts, crashes and starts again.

A node starts on a store that holds its root, and possibly older blocks that were loaded with a
snapshot.  Every step reads the maps in an order of its own, and hashes the blocks that it reads
from the store in that order.
-/
import ThetaSubchain.Consensus.Handlers

namespace ThetaSubchain

open Durable EngineConf

variable {nd : Node} {hash : MapOrder → BlockHeader → Hash}

structure Fresh (nd : Node) (d : Store) : Prop where
  key : ∀ h eb, d.block h = some eb → nd.cfg.hash eb.header = h
  root : ∃ rb, d.block nd.cfg.root = some rb ∧ rb.status = .directlyFinalized
  /-- A snapshot import stores older blocks as trusted or as pending. -/
  older : ∀ h eb, d.block h = some eb → h ≠ nd.cfg.root →
    ¬ Recent nd d eb ∧ (eb.status = .trusted ∨ eb.status = .pending)
  children : ∀ p pb c, d.block p = some pb → c ∈ pb.children →
    ∃ cb, d.block c = some cb ∧ cb.header.parent = p
  votes : ∀ h, d.votes h = none
  stub : d.stub = none

theorem Fresh.wellFormed {d : Store} (hd : Fresh nd d) (outs : List Output) :
    WellFormed nd ⟨Engine.new nd.cfg d, d, outs⟩ := by
  obtain ⟨rb, hr, hst⟩ := hd.root
  have hload : (State.load nd.cfg d).highestCCBlock = nd.cfg.root ∧
      (State.load nd.cfg d).lastFinalizedBlock = nd.cfg.root ∧
      (State.load nd.cfg d).lastVote = .zero := by
    simp [State.load, hd.stub]
  have hvalid : rb.status.isValid := by rw [hst]; rfl
  have hrec : Recent nd d rb := by simp [Recent, rootHeight, hr]
  have honly : ∀ h eb, d.block h = some eb → Recent nd d eb → h = nd.cfg.root ∧ eb = rb := by
    intro h eb hb hrec
    have hroot : h = nd.cfg.root := by
      by_contra hne
      exact (hd.older h eb hb hne).1 hrec
    exact ⟨hroot, Option.some.inj (hb.symm.trans (hroot ▸ hr))⟩
  constructor
  · rfl
  · exact hd.key
  · exact ⟨rb, hr, by rw [hst]; rfl⟩
  · intro h eb hb hrec
    rw [(honly h eb hb hrec).2, hst]
    simp
  · intro h eb hb hrec _ hne
    exact absurd (honly h eb hb hrec).1 hne
  · intro h v hv
    have hnone : d.votes h = none := hd.votes h
    simp [Chain.findVotesByHash, hnone] at hv
  · exact ⟨rb, hload.1 ▸ hr, hvalid, hrec⟩
  · exact ⟨rb, hload.2.1 ▸ hr, hvalid, hrec⟩
  · intro hne
    exact absurd (congrArg Vote.height hload.2.2) hne
  · intro h eb H hb _ hH
    have hHr : H = rb := Option.some.inj (hH.symm.trans (hload.1 ▸ hr))
    by_cases hroot : h = nd.cfg.root
    · subst hroot
      rw [hHr, Option.some.inj (hb.symm.trans hr)]
      exact UInt64.le_refl _
    · have hold := (hd.older h eb hb hroot).1
      unfold Recent at hold hrec
      rw [hHr, UInt64.le_iff_toNat_le]
      omega

def rootStore (nd : Node) (root : Block) : Store :=
  { Store.empty with
    block := Function.update Store.empty.block nd.cfg.root
      (some ⟨root, [], .directlyFinalized, false⟩)
    blocksByHeight := Function.update Store.empty.blocksByHeight root.header.height
      (some [nd.cfg.root]) }

theorem rootStore_block {root : Block} {h : Hash} {eb : ExtendedBlock}
    (hb : (rootStore nd root).block h = some eb) :
    h = nd.cfg.root ∧ eb = ⟨root, [], .directlyFinalized, false⟩ := by
  simp only [rootStore, Function.update_apply] at hb
  split at hb
  next hroot => exact ⟨hroot, (Option.some.inj hb).symm⟩
  next => cases hb

theorem fresh_rootStore {root : Block} (hroot : nd.cfg.hash root.header = nd.cfg.root) :
    Fresh nd (rootStore nd root) := by
  constructor
  · intro h eb hb
    rw [(rootStore_block hb).1, (rootStore_block hb).2]
    exact hroot
  · exact ⟨_, Function.update_self _ _ _, rfl⟩
  · intro h eb hb hne
    exact absurd (rootStore_block hb).1 hne
  · intro p pb c hp hc
    rw [(rootStore_block hp).2] at hc
    cases hc
  · intro h
    rfl
  · rfl

def Kept (nd : Node) (I : EngineConf → Prop) (d : Store) (outs : List Output) : Prop :=
  ∃ e, WellFormed nd ⟨e, d, outs⟩ ∧ I ⟨e, d, outs⟩

/-- The node in a step that reads the maps in the order `ord`. -/
def Node.under (nd : Node) (hash : MapOrder → BlockHeader → Hash) (ord : MapOrder) : Node :=
  { nd with cfg := nd.cfg.under hash ord }

theorem fresh_under {root : Block} {ord : MapOrder} (hroot : hash ord root.header = nd.cfg.root) :
    Fresh (nd.under hash ord) (rootStore nd root) :=
  fresh_rootStore hroot

def StepsOf (nd : Node) (hash : MapOrder → BlockHeader → Hash)
    (ok : EngineConf → Answers → Engine.Action → Prop) (s : EngineConf) (p : EngineProc Unit) :
    Prop :=
  ∃ a act, ok s a act ∧ p = Engine.step (nd.under hash a.order) a act

/-- The states of a node that starts on the store `d`, makes steps that satisfy `ok`,
and may crash at any point at which `crashOk` holds. -/
def OrderedRun (nd : Node) (hash : MapOrder → BlockHeader → Hash)
    (ok : EngineConf → Answers → Engine.Action → Prop) (crashOk : Store → List Output → Prop)
    (d : Store) (m : Machine Engine Store Output) : Prop :=
  Reachable (Engine.new nd.cfg) (StepsOf nd hash ok) crashOk ⟨none, d, []⟩ m

/-- The runs in which the hash of a header does not depend on the order of the maps. -/
def NodeRun (nd : Node) (ok : EngineConf → Answers → Engine.Action → Prop)
    (crashOk : Store → List Output → Prop) (d : Store) (m : Machine Engine Store Output) : Prop :=
  OrderedRun nd (fun _ => nd.cfg.hash) ok crashOk d m

section NodeRun

variable {ok : EngineConf → Answers → Engine.Action → Prop}
  {crashOk : Store → List Output → Prop} {d : Store}

theorem OrderedRun.start : OrderedRun nd hash ok crashOk d ⟨some (Engine.new nd.cfg d), d, []⟩ :=
  Relation.ReflTransGen.single .restart

theorem OrderedRun.step {s : EngineConf}
    (h : OrderedRun nd hash ok crashOk d ⟨some s.mem, s.disk, s.outs⟩)
    (a : Answers) (act : Engine.Action) (hact : ok s a act)
    (hr : ((Engine.step (nd.under hash a.order) a act).run s).1 = some ()) :
    OrderedRun nd hash ok crashOk d
      ⟨some ((Engine.step (nd.under hash a.order) a act).run s).2.mem,
        ((Engine.step (nd.under hash a.order) a act).run s).2.disk,
        ((Engine.step (nd.under hash a.order) a act).run s).2.outs⟩ :=
  h.tail (.run ⟨a, act, hact, rfl⟩ (Prod.ext hr rfl))

theorem NodeRun.start : NodeRun nd ok crashOk d ⟨some (Engine.new nd.cfg d), d, []⟩ :=
  OrderedRun.start

theorem NodeRun.step {s : EngineConf} (h : NodeRun nd ok crashOk d ⟨some s.mem, s.disk, s.outs⟩)
    (a : Answers) (act : Engine.Action) (hact : ok s a act)
    (hr : ((Engine.step nd a act).run s).1 = some ()) :
    NodeRun nd ok crashOk d ⟨some ((Engine.step nd a act).run s).2.mem,
      ((Engine.step nd a act).run s).2.disk, ((Engine.step nd a act).run s).2.outs⟩ :=
  OrderedRun.step h a act hact hr

theorem OrderedRun.crash_restart {s : EngineConf}
    (h : OrderedRun nd hash ok crashOk d ⟨some s.mem, s.disk, s.outs⟩) (a : Answers)
    (act : Engine.Action) (hact : ok s a act)
    (hcrash : crashOk ((Engine.step (nd.under hash a.order) a act).run s).2.disk
      ((Engine.step (nd.under hash a.order) a act).run s).2.outs) :
    OrderedRun nd hash ok crashOk d
      ⟨some (Engine.new nd.cfg ((Engine.step (nd.under hash a.order) a act).run s).2.disk),
        ((Engine.step (nd.under hash a.order) a act).run s).2.disk,
        ((Engine.step (nd.under hash a.order) a act).run s).2.outs⟩ := by
  obtain ⟨c, hc, hd, ho⟩ := Proc.exists_point_run (Engine.step (nd.under hash a.order) a act) s
  rw [← hd, ← ho] at hcrash ⊢
  exact (h.tail (.crash ⟨a, act, hact, rfl⟩ hc hcrash)).tail .restart

theorem NodeRun.crash_restart {s : EngineConf}
    (h : NodeRun nd ok crashOk d ⟨some s.mem, s.disk, s.outs⟩) (a : Answers)
    (act : Engine.Action) (hact : ok s a act)
    (hcrash : crashOk ((Engine.step nd a act).run s).2.disk ((Engine.step nd a act).run s).2.outs) :
    NodeRun nd ok crashOk d ⟨some (Engine.new nd.cfg ((Engine.step nd a act).run s).2.disk),
      ((Engine.step nd a act).run s).2.disk, ((Engine.step nd a act).run s).2.outs⟩ :=
  OrderedRun.crash_restart h a act hact hcrash

end NodeRun

theorem WellFormed.under {ord : MapOrder} {s : EngineConf}
    (hw : WellFormed (nd.under hash ord) s) {ord' : MapOrder}
    (hsame : ∀ h eb, s.disk.block h = some eb → hash ord' eb.header = hash ord eb.header) :
    WellFormed (nd.under hash ord') s :=
  { hw with key := fun h eb hb => (hsame h eb hb).trans (hw.key h eb hb) }

section Rules

variable {I J : EngineConf → Prop} {inp : Inputs}
  {ok : EngineConf → Answers → Engine.Action → Prop} {crashOk : Store → List Output → Prop}
  {d : Store} {m : Machine Engine Store Output}

/-- The rule for runs with crashes and a boundary condition, in which a step hashes the stored
blocks as the steps before it did: an invariant that is closed under the effects and, with the
boundary condition, survives a restart holds whenever the node is up, and what is left of it
always. -/
theorem orderedRun_boundary {P : Answers → Store → List Output → Prop}
    (hd : ∃ ord, Fresh (nd.under hash ord) d)
    (hsame : ∀ s, I s → ∀ h eb, s.disk.block h = some eb →
      ∀ ord ord', hash ord' eb.header = hash ord eb.header)
    (hclosed : ∀ s a act, ok s a act → Closed (nd.under hash a.order) a inp I J (P a))
    (hok : ∀ s a act, ok s a act → act.delivered (nd.under hash a.order) s.disk ⊆ inp.votes ∧
      act.added (nd.under hash a.order) a s ⊆ inp.blocks)
    (hinit : I ⟨Engine.new nd.cfg d, d, []⟩) (hstart : crashOk d [])
    (hboot : ∀ s ord, WellFormed (nd.under hash ord) s → I s → crashOk s.disk s.outs →
      I ⟨Engine.new nd.cfg s.disk, s.disk, s.outs⟩ ∧ J ⟨Engine.new nd.cfg s.disk, s.disk, s.outs⟩)
    (hrun : OrderedRun nd hash ok crashOk d m) :
    (∀ e, m.mem = some e → ∃ ord, Good (nd.under hash ord) I J ⟨e, m.disk, m.outs⟩) ∧
      (∃ ord, Kept (nd.under hash ord) I m.disk m.outs) ∧
      (m.mem = none → crashOk m.disk m.outs) := by
  obtain ⟨ord, hd⟩ := hd
  refine reachable_invariant (fun s => ∃ ord, Good (nd.under hash ord) I J s)
    (fun d outs => ∃ ord, Kept (nd.under hash ord) I d outs) ?_ ?_ ?_ ?_ hrun
  · exact ⟨rfl, ⟨ord, _, hd.wellFormed [], hinit⟩, hstart⟩
  · rintro s p ⟨a, act, hact, rfl⟩ ⟨ord, hg⟩
    obtain ⟨hv, hb⟩ := hok s a act hact
    -- the step starts from the invariant of its own order
    have hw := hg.wf.under fun h eb hb => hsame s hg.inv h eb hb ord a.order
    have hc : Closed (nd.under hash a.order) a inp I J
        fun d outs => ∃ ord, Kept (nd.under hash ord) I d outs :=
      { hclosed s a act hact with keep := fun hw hI => ⟨a.order, _, hw, hI⟩ }
    exact Proc.wp_mono (fun _ _ h => ⟨a.order, h⟩)
      (wp_step hc ⟨⟨hw, hg.inv⟩, hg.boundary⟩ act hv hb)
  · rintro ⟨e, d, outs⟩ ⟨ord, hg⟩
    exact ⟨ord, e, hg.wf, hg.inv⟩
  · rintro d outs ⟨ord, e, hw, hI⟩ hc
    obtain ⟨hI', hJ'⟩ := hboot _ ord hw hI hc
    exact ⟨ord, ⟨hw.restart, hI'⟩, hJ'⟩

/-- The rule for one hash. -/
theorem nodeRun_boundary (hd : Fresh nd d)
    (hclosed : ∀ s a act, ok s a act → Closed nd a inp I J (Kept nd I))
    (hok : ∀ s a act, ok s a act →
      act.delivered nd s.disk ⊆ inp.votes ∧ act.added nd a s ⊆ inp.blocks)
    (hinit : I ⟨Engine.new nd.cfg d, d, []⟩) (hstart : crashOk d [])
    (hboot : ∀ s, WellFormed nd s → I s → crashOk s.disk s.outs →
      I ⟨Engine.new nd.cfg s.disk, s.disk, s.outs⟩ ∧ J ⟨Engine.new nd.cfg s.disk, s.disk, s.outs⟩)
    (hrun : NodeRun nd ok crashOk d m) :
    (∀ e, m.mem = some e → Good nd I J ⟨e, m.disk, m.outs⟩) ∧ Kept nd I m.disk m.outs ∧
      (m.mem = none → crashOk m.disk m.outs) := by
  have hd' : Fresh (nd.under (fun _ => nd.cfg.hash) .id) d := hd
  obtain ⟨hup, ⟨_, hkept⟩, hdown⟩ := orderedRun_boundary ⟨.id, hd'⟩ (fun _ _ _ _ _ _ _ => rfl)
    hclosed hok hinit hstart (fun s _ => hboot s) hrun
  exact ⟨fun e he => (hup e he).elim fun _ h => h, hkept, hdown⟩

/-- The rule without a boundary condition. -/
theorem nodeRun_invariant (hd : Fresh nd d)
    (hclosed : ∀ s a act, ok s a act → Closed nd a inp I (fun _ => True) (Kept nd I))
    (hok : ∀ s a act, ok s a act →
      act.delivered nd s.disk ⊆ inp.votes ∧ act.added nd a s ⊆ inp.blocks)
    (hinit : I ⟨Engine.new nd.cfg d, d, []⟩) (hstart : crashOk d [])
    (hboot : ∀ s, WellFormed nd s → I s → crashOk s.disk s.outs →
      I ⟨Engine.new nd.cfg s.disk, s.disk, s.outs⟩)
    (hrun : NodeRun nd ok crashOk d m) : Kept nd I m.disk m.outs :=
  (nodeRun_boundary hd hclosed hok hinit hstart
    (fun s hw hI hc => ⟨hboot s hw hI hc, trivial⟩) hrun).2.1

def Engine.Action.brought : Engine.Action → Option Block
  | .addBlock b => some b
  | _ => none

/-- No certificate of a block that the step brings has two votes of one voter. -/
def BringsDistinct (_ : EngineConf) (_ : Answers) (act : Engine.Action) : Prop :=
  ∀ b ∈ act.brought, b.header.DistinctVoters

theorem BringsDistinct.added {s : EngineConf} {a : Answers} {act : Engine.Action}
    (h : BringsDistinct s a act) : ∀ b ∈ act.added nd a s, b.header.DistinctVoters := by
  intro b hb
  cases act with
  | addBlock c => exact h b (congrArg some (Eq.symm hb))
  | propose =>
    obtain ⟨sameDynasty, p, s', hr, hp⟩ := hb
    have hwp : (Engine.createProposal nd a sameDynasty).wp (fun _ _ => True) _ s :=
      wp_createProposal sameDynasty
    obtain ⟨c, hc, -, hvoters⟩ := (Proc.wp_run hwp hr).2 p rfl
    exact Option.some.inj (hc.symm.trans hp) ▸ hvoters
  | _ => cases hb

theorem Store.DistinctVoters.withBlock {s : EngineConf} {h : Hash} {eb : ExtendedBlock}
    (hd : s.disk.DistinctVoters) (hb : eb.header.DistinctVoters) :
    (s.withBlock h eb).disk.DistinctVoters := by
  intro x xb hx
  rw [withBlock_block] at hx
  split at hx
  · cases hx
    exact hb
  · exact hd x xb hx

theorem Store.DistinctVoters.effect {a : Answers} {s s' : EngineConf} (hd : s.disk.DistinctVoters)
    (he : Effect nd a inp J s s')
    (hinp : ∀ b ∈ inp.blocks, b.header.DistinctVoters) : s'.disk.DistinctVoters := by
  cases he with
  | linkChild b pb hJ hb hnew hp => exact hd.withBlock (hd _ pb hp)
  | newBlock b children hJ hb hnew hchildren => exact hd.withBlock (hinp b hb)
  | markInvalid h eb hJ hb hpending => exact hd.withBlock (hd h eb hb)
  | markUpdate h eb hJ hb hpending happly => exact hd.withBlock (hd h eb hb)
  | markValid h eb pb hJ hb hpending hp hvalid hrecent hheight hcov happly =>
    exact hd.withBlock (hd h eb hb)
  | commit eb hJ hb hvalid => exact hd.withBlock (hd _ eb hb)
  | _ => exact hd

theorem Closed.distinct {a : Answers} {votes : Set Vote} {P : Store → List Output → Prop}
    (hc : Closed nd a ⟨votes, {b | b.header.DistinctVoters}⟩ I J P) :
    Closed nd a ⟨votes, {b | b.header.DistinctVoters}⟩ (fun s => I s ∧ s.disk.DistinctVoters) J
      P where
  effect hw h he := by
    obtain ⟨hI, hJ⟩ := hc.effect hw h.1 he
    exact ⟨⟨hI, h.2.effect he fun _ hb => hb⟩, hJ⟩
  mid hw h he := by
    refine ⟨hc.mid hw h.1 he, ?_⟩
    cases he with
    | markFinalized c x eb lb st hc hl hpath hb => exact h.2.withBlock (h.2 x eb hb)
    | _ => exact h.2
  keep hw h := hc.keep hw h.1

/-- The rule for runs in which no certificate has two votes of one voter. -/
theorem distinctRun_boundary {digest : Rlp.Item → Hash} {votes : Set Vote}
    {P : Answers → Store → List Output → Prop}
    (hd : ∃ ord, Fresh (nd.under (headerHash digest) ord) d) (hvoters : d.DistinctVoters)
    (hclosed : ∀ s a act, ok s a act → Closed (nd.under (headerHash digest) a.order) a
      ⟨votes, {b | b.header.DistinctVoters}⟩ I J (P a))
    (hok : ∀ s a act, ok s a act → BringsDistinct s a act ∧
      act.delivered (nd.under (headerHash digest) a.order) s.disk ⊆ votes)
    (hinit : I ⟨Engine.new nd.cfg d, d, []⟩) (hstart : crashOk d [])
    (hboot : ∀ s ord, WellFormed (nd.under (headerHash digest) ord) s → I s →
      crashOk s.disk s.outs →
      I ⟨Engine.new nd.cfg s.disk, s.disk, s.outs⟩ ∧ J ⟨Engine.new nd.cfg s.disk, s.disk, s.outs⟩)
    (hrun : OrderedRun nd (headerHash digest) ok crashOk d m) :
    (∀ e, m.mem = some e → ∃ ord, Good (nd.under (headerHash digest) ord)
      (fun s => I s ∧ s.disk.DistinctVoters) J ⟨e, m.disk, m.outs⟩) ∧
      (∃ ord, Kept (nd.under (headerHash digest) ord) (fun s => I s ∧ s.disk.DistinctVoters)
        m.disk m.outs) ∧ (m.mem = none → crashOk m.disk m.outs) :=
  orderedRun_boundary hd (fun _ hI h eb hb ord ord' => headerHash_eq (hI.2 h eb hb) ord ord')
    (fun s a act hact => (hclosed s a act hact).distinct)
    (fun s a act hact => ⟨(hok s a act hact).2, (hok s a act hact).1.added⟩) ⟨hinit, hvoters⟩ hstart
    (fun s ord hw hI hc => ⟨⟨(hboot s ord hw hI.1 hc).1, hI.2⟩, (hboot s ord hw hI.1 hc).2⟩) hrun

end Rules

end ThetaSubchain
