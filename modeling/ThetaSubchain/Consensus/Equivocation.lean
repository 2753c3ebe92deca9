/-
What one validator sends across crashes: its votes and its proposals.

The last vote is committed before the vote is sent; the last proposal is not.
-/
import ThetaSubchain.Consensus.Restart

namespace ThetaSubchain

open Durable EngineConf List

variable {nd : Node} {a : Answers} {inp : Inputs} {J : EngineConf → Prop} {s s' : EngineConf}

variable (outs : List Output)

/-- The votes the node has created and sent, oldest first.  The votes of others that it
relays are not among them. -/
def castVotes : List Vote :=
  outs.filterMap fun
    | .vote v => some v
    | _ => none

def castProposals : List Block :=
  outs.filterMap fun
    | .proposal p => p.block
    | _ => none

@[simp] theorem castVotes_vote (v : Vote) :
    castVotes (outs ++ [.vote v]) = castVotes outs ++ [v] := by
  simp [castVotes]

@[simp] theorem castVotes_relay (v : Vote) : castVotes (outs ++ [.relay v]) = castVotes outs := by
  simp [castVotes]

@[simp] theorem castVotes_proposal (p : Proposal) :
    castVotes (outs ++ [.proposal p]) = castVotes outs := by
  simp [castVotes]

@[simp] theorem castProposals_vote (v : Vote) :
    castProposals (outs ++ [.vote v]) = castProposals outs := by
  simp [castProposals]

@[simp] theorem castProposals_relay (v : Vote) :
    castProposals (outs ++ [.relay v]) = castProposals outs := by
  simp [castProposals]

theorem castProposals_proposal {p : Proposal} {b : Block} (hb : p.block = some b) :
    castProposals (outs ++ [.proposal p]) = castProposals outs ++ [b] := by
  simp [castProposals, hb]

/-- The votes sent so far agree with the last vote.  The zero value of the last vote
has height zero, and only the root has that height. -/
structure VotesOrdered (root : Hash) (s : EngineConf) : Prop where
  sorted : (castVotes s.outs).Pairwise fun v w => v.height ≤ w.height
  agree : ∀ v ∈ castVotes s.outs, ∀ w ∈ castVotes s.outs, v.height = w.height → v.block = w.block
  below : ∀ v ∈ castVotes s.outs, v.height ≤ s.mem.state.lastVote.height
  zero : ∀ v ∈ castVotes s.outs, v.height = 0 → v.block = root
  last : ∀ v ∈ castVotes s.outs, v.height ≠ 0 → v.height = s.mem.state.lastVote.height →
    v.block = s.mem.state.lastVote.block

theorem VotesOrdered.of_eq (h : VotesOrdered nd.cfg.root s)
    (houts : castVotes s'.outs = castVotes s.outs)
    (hlast : s'.mem.state.lastVote = s.mem.state.lastVote) : VotesOrdered nd.cfg.root s' := by
  constructor
  · rw [houts]; exact h.sorted
  · rw [houts]; exact h.agree
  · rw [houts, hlast]; exact h.below
  · rw [houts]; exact h.zero
  · rw [houts, hlast]; exact h.last

variable {v : Vote}

theorem VotesOrdered.newVote (h : VotesOrdered nd.cfg.root s)
    (hlast : s.mem.state.lastVote.height = 0 ∨ s.mem.state.lastVote.height < v.height) :
    VotesOrdered nd.cfg.root (s.withState nd fun st => { st with lastVote := v }) := by
  have hle : ∀ w ∈ castVotes s.outs, w.height = 0 ∨ w.height < v.height := by
    intro w hw
    have hbelow := h.below w hw
    rcases hlast with h0 | hlt
    · rw [h0] at hbelow
      exact .inl (UInt64.le_zero_iff.1 hbelow)
    · exact .inr (UInt64.lt_of_le_of_lt hbelow hlt)
  refine ⟨h.sorted, h.agree, ?_, h.zero, ?_⟩
  · intro w hw
    rcases hle w hw with h0 | hlt
    · rw [h0]; exact UInt64.zero_le
    · exact UInt64.le_of_lt hlt
  · intro w hw hne heq
    rcases hle w hw with h0 | hlt
    · exact absurd h0 hne
    · exact absurd heq (UInt64.ne_of_lt hlt)

theorem VotesOrdered.castVote (h : VotesOrdered nd.cfg.root s)
    (hblock : v.block = s.mem.state.lastVote.block)
    (hheight : v.height = s.mem.state.lastVote.height)
    (hzero : v.height = 0 → v.block = nd.cfg.root) :
    VotesOrdered nd.cfg.root (s.emit (.vote v)) := by
  -- a vote sent before at the same height names the same block
  have hsame : ∀ w ∈ castVotes s.outs, w.height = v.height → w.block = v.block := by
    intro w hw heq
    by_cases h0 : v.height = 0
    · rw [hzero h0, h.zero w hw (heq.trans h0)]
    · rw [hblock, h.last w hw (heq ▸ h0) (heq.trans hheight)]
  have hmem : ∀ w ∈ castVotes (s.emit (.vote v)).outs, w ∈ castVotes s.outs ∨ w = v := by
    intro w hw
    simpa [emit] using hw
  constructor
  · simp only [emit, castVotes_vote, pairwise_append, mem_singleton]
    refine ⟨h.sorted, pairwise_singleton _ _, ?_⟩
    rintro w hw _ rfl
    rw [hheight]
    exact h.below w hw
  · intro x hx y hy hxy
    rcases hmem x hx with hx' | hxv
    · rcases hmem y hy with hy' | hyv
      · exact h.agree x hx' y hy' hxy
      · rw [hyv]
        exact hsame x hx' (hyv ▸ hxy)
    · rcases hmem y hy with hy' | hyv
      · rw [hxv]
        exact (hsame y hy' (hxv ▸ hxy.symm)).symm
      · rw [hxv, hyv]
  · intro x hx
    rcases hmem x hx with hx | rfl
    · exact h.below x hx
    · exact hheight ▸ UInt64.le_refl _
  · intro x hx
    rcases hmem x hx with hx | rfl
    · exact h.zero x hx
    · exact hzero
  · intro x hx
    rcases hmem x hx with hx | rfl
    · exact h.last x hx
    · exact fun _ _ => hblock

theorem VotesOrdered.mid (h : VotesOrdered nd.cfg.root s) (he : MidEffect nd a J s s') :
    VotesOrdered nd.cfg.root s' := by
  cases he with
  | flags e he => exact h.of_eq rfl (by rw [he])
  | setLastFinalized c p pb hJ hc hp hvalid hrecent => exact h.of_eq rfl rfl
  | markFinalized c x eb lb st hc hl hpath hb hvalid hrecent hle hst => exact h.of_eq rfl rfl

theorem VotesOrdered.effect (h : VotesOrdered nd.cfg.root s) (he : Effect nd a inp J s s') :
    VotesOrdered nd.cfg.root s' := by
  cases he with
  | flags e hJ he => exact h.of_eq rfl (by rw [he])
  | relay v hJ => exact h.of_eq (castVotes_relay _ _) rfl
  | castProposal b hJ hb hepoch => exact h.of_eq (castVotes_proposal _ _) rfl
  | newVote v tip H hJ hid htip hheight hH hhigh hpath hlast => exact h.newVote hlast
  | castVote v hJ hid hvoted hblock hheight hzero => exact h.castVote hblock hheight hzero
  | _ => exact h.of_eq rfl rfl

theorem closed_votesOrdered (nd : Node) (a : Answers) (inp : Inputs) :
    Closed nd a inp (VotesOrdered nd.cfg.root) (fun _ => True) (fun _ _ => True) where
  effect _ h he := ⟨h.effect he, trivial⟩
  mid _ h he := h.mid he
  keep _ _ := trivial

/-- Over every run of one validator, with crashes at any point, in which no certificate has two
votes of one voter, two votes it sends for one height name one block, and the heights of the votes
it sends never decrease. -/
theorem castVotes_consistent {digest : Rlp.Item → Hash} {d : Store}
    {m : Machine Engine Store Output} (hd : ∃ ord, Fresh (nd.under (headerHash digest) ord) d)
    (hvoters : d.DistinctVoters)
    (hrun : OrderedRun nd (headerHash digest) BringsDistinct (fun _ _ => True) d m) :
    (∀ v ∈ castVotes m.outs, ∀ w ∈ castVotes m.outs, v.height = w.height → v.block = w.block) ∧
      (castVotes m.outs).Pairwise fun v w => v.height ≤ w.height := by
  have hinit : VotesOrdered nd.cfg.root ⟨Engine.new nd.cfg d, d, []⟩ := by
    constructor <;> simp [castVotes]
  have hclosed : ∀ a : Answers, Closed (nd.under (headerHash digest) a.order) a
      ⟨Set.univ, {b | b.header.DistinctVoters}⟩ (VotesOrdered nd.cfg.root) (fun _ => True)
      fun _ _ => True :=
    fun a => closed_votesOrdered (nd.under (headerHash digest) a.order) a _
  obtain ⟨-, ⟨_, _, -, h, -⟩, -⟩ := distinctRun_boundary hd hvoters (fun _ a _ _ => hclosed a)
    (fun s a act hact => ⟨hact, Set.subset_univ _⟩) hinit trivial
    (fun s ord hw h _ => ⟨h.of_eq rfl hw.synced.lastVote, trivial⟩) hrun
  exact ⟨h.agree, h.sorted⟩

/-! ### A validator that votes, crashes and votes again -/

def sampleRoot : Block where
  header := {
    chainID := [116], epoch := 1, height := 0, parent := 0, hcc := ⟨none, 0⟩, txHash := 0
    receiptHash := 0, bloom := 0, stateHash := 0, timestamp := some 5, proposer := 0
    signature := none }
  txs := []

def sampleNode : Node where
  cfg := {
    hash := fun h => BitVec.ofNat 256 (h.height.toNat * 2 ^ 64 + h.timestamp.getD 0)
    chainID := [116], root := 5, fuel := 10 }
  verify := fun _ _ _ => true
  sign := fun _ => ⟨[1]⟩
  id := 1
  trieRoot := fun _ => 0

def sampleAnswers (now : Nat) : Answers where
  order := MapOrder.id
  resetState := fun _ => .ok
  applyBlockTxs := fun _ => (.ok, none)
  proposeBlockTxs := fun _ _ => (0, [], .ok)
  getValidatorSet := fun _ => some ⟨0, [⟨1, 10⟩]⟩
  getNextValidatorSet := fun _ => some ⟨0, [⟨1, 10⟩]⟩
  getNextProposer := fun _ _ => some ⟨1, 10⟩
  mainchainHeight := some 0
  now := now

def sampleStart : EngineConf :=
  ⟨Engine.new sampleNode.cfg (rootStore sampleNode sampleRoot), rootStore sampleNode sampleRoot, []⟩

def sampleStep (s : EngineConf) (now : Nat) (act : Engine.Action) : EngineConf :=
  ((Engine.step sampleNode (sampleAnswers now) act).run s).2

def restarted (s : EngineConf) : EngineConf := ⟨Engine.new sampleNode.cfg s.disk, s.disk, s.outs⟩

section SampleRun

variable {ok : EngineConf → Answers → Engine.Action → Prop}
  {crashOk : Store → List Output → Prop} {s : EngineConf}

def SampleRun (ok : EngineConf → Answers → Engine.Action → Prop)
    (crashOk : Store → List Output → Prop) (s : EngineConf) : Prop :=
  NodeRun sampleNode ok crashOk (rootStore sampleNode sampleRoot) ⟨some s.mem, s.disk, s.outs⟩

theorem SampleRun.start : SampleRun ok crashOk sampleStart := NodeRun.start

theorem SampleRun.step (h : SampleRun ok crashOk s) (now : Nat) (act : Engine.Action)
    (hact : ok s (sampleAnswers now) act)
    (hr : ((Engine.step sampleNode (sampleAnswers now) act).run s).1 = some ()) :
    SampleRun ok crashOk (sampleStep s now act) :=
  NodeRun.step h _ _ hact hr

theorem SampleRun.crash (h : SampleRun ok crashOk s) (now : Nat) (act : Engine.Action)
    (hact : ok s (sampleAnswers now) act)
    (hcrash : crashOk (sampleStep s now act).disk (sampleStep s now act).outs) :
    SampleRun ok crashOk (restarted (sampleStep s now act)) :=
  NodeRun.crash_restart h _ _ hact hcrash

end SampleRun

/-- A node that hashes by the first vote of the certificate. -/
def oddNode : Node :=
  { sampleNode with
    cfg := { sampleNode.cfg with hash := headerHash firstVoteDigest .id, root := 11 } }

def voteFor (b : Block) : Vote :=
  ⟨oddNode.cfg.hash b.header, b.header.height, 0, b.header.epoch, 1, some ⟨[1]⟩⟩

def childOf (parent certified : Block) : Block :=
  { sampleRoot with
    header := { sampleRoot.header with
      epoch := parent.header.epoch + 1, height := parent.header.height + 1
      parent := oddNode.cfg.hash parent.header
      hcc := ⟨some (VoteSet.empty.addVote (voteFor certified)), oddNode.cfg.hash certified.header⟩
      timestamp := some (10 + parent.header.height.toNat), proposer := 1
      signature := some ⟨[1]⟩ } }

def block₁ : Block := childOf sampleRoot sampleRoot
def block₂ : Block := childOf block₁ sampleRoot
def block₃ : Block := childOf block₂ block₂
def block₄ : Block := childOf block₃ block₃

def deliver (b : Block) : List (MapOrder × Engine.Action) :=
  [(.id, .addBlock b), (.id, .block b), (.id, .vote (voteFor b))]

def oddAnswers (ord : MapOrder) : Answers := { sampleAnswers 12 with order := ord }

def oddRun (s : EngineConf) (acts : List (MapOrder × Engine.Action)) : Option EngineConf :=
  acts.foldlM (fun s (ord, act) =>
    let (result, t) := (Engine.step (oddNode.under (headerHash firstVoteDigest) ord)
      (oddAnswers ord) act).run s
    result.map fun _ => t) s

def oddStart (d : Store) (outs : List Output) : EngineConf := ⟨Engine.new oddNode.cfg d, d, outs⟩

def firstBlocks : List (MapOrder × Engine.Action) :=
  (.id, .vote (voteFor sampleRoot)) :: deliver block₁ ++ deliver block₂ ++
    [(.id, .addBlock block₃), (.id, .block block₃)]

section OddRun

variable {ok : EngineConf → Answers → Engine.Action → Prop}
  {crashOk : Store → List Output → Prop} {d : Store}

theorem OrderedRun.oddRun {acts : List (MapOrder × Engine.Action)} {s t : EngineConf}
    (h : OrderedRun oddNode (headerHash firstVoteDigest) ok crashOk d ⟨some s.mem, s.disk, s.outs⟩)
    (hok : ∀ p ∈ acts, ∀ s, ok s (oddAnswers p.1) p.2) (hrun : oddRun s acts = some t) :
    OrderedRun oddNode (headerHash firstVoteDigest) ok crashOk d ⟨some t.mem, t.disk, t.outs⟩ := by
  induction acts generalizing s with
  | nil =>
    cases hrun
    exact h
  | cons act acts ih =>
    obtain ⟨u, hu, hrest⟩ := Option.bind_eq_some_iff.mp hrun
    obtain ⟨r, hr, rfl⟩ := Option.map_eq_some_iff.mp hu
    exact ih (h.step (oddAnswers act.1) act.2 (hok act mem_cons_self s) hr)
      (fun p hp => hok p (mem_cons_of_mem _ hp)) hrest

end OddRun

theorem fresh_odd : ∃ ord, Fresh (oddNode.under (headerHash firstVoteDigest) ord)
    (rootStore oddNode sampleRoot) :=
  ⟨.id, fresh_under (by decide)⟩

theorem distinctVoters_odd : (rootStore oddNode sampleRoot).DistinctVoters := by
  intro h eb hb
  rw [(rootStore_block hb).2]
  rintro _ ⟨⟩

def votingRun : List (MapOrder × Engine.Action) :=
  [(.id, .addBlock block₁), (.id, .block block₁), (.id, .epochTimer)]

/-- A node votes for the root and, after a crash, for a block, and repeats the vote in a step that
reads the maps in another order. -/
theorem castVotes_consistent_odd :
    let s := ((Engine.step oddNode (sampleAnswers 12) .epochTimer).run
      (oddStart (rootStore oddNode sampleRoot) [])).2
    ∃ t, oddRun (oddStart s.disk s.outs) (votingRun ++ [(.reverse, .epochTimer)]) = some t ∧
      (castVotes t.outs).map Vote.height = [0, 1, 1] ∧
      (∀ v ∈ castVotes t.outs, ∀ w ∈ castVotes t.outs, v.height = w.height → v.block = w.block) ∧
      (castVotes t.outs).Pairwise fun v w => v.height ≤ w.height := by
  intro s
  have heval : ((oddRun (oddStart s.disk s.outs) (votingRun ++ [(.reverse, .epochTimer)])).map
      fun t => (castVotes t.outs).map Vote.height) = some [0, 1, 1] := by
    decide
  obtain ⟨t, ht, hheights⟩ := Option.map_eq_some_iff.mp heval
  have hdistinct : ∀ p ∈ votingRun ++ [(.reverse, .epochTimer)], ∀ b ∈ p.2.brought,
      b.header.DistinctVoters := by
    decide
  have hcrash : OrderedRun oddNode (headerHash firstVoteDigest) BringsDistinct (fun _ _ => True)
      (rootStore oddNode sampleRoot) ⟨some (Engine.new oddNode.cfg s.disk), s.disk, s.outs⟩ :=
    OrderedRun.start.crash_restart (oddAnswers .id) .epochTimer (fun _ hb => nomatch hb) trivial
  have hrun := hcrash.oddRun (s := oddStart s.disk s.outs) (fun p hp _ => hdistinct p hp) ht
  exact ⟨t, ht, hheights, castVotes_consistent fresh_odd distinctVoters_odd hrun⟩

def revotedBlock₁ : Block :=
  { block₁ with
    header := { block₁.header with
      hcc := ⟨some (VoteSet.empty.addVotes
        [voteFor sampleRoot, { voteFor sampleRoot with epoch := 0 }]), 11⟩ } }

/-- A block whose certificate has two votes of one voter is voted for under its hash in the first
order.  The vote is repeated while a child names another certificate, and the block that is read
from the store for it is hashed in another order. -/
theorem castVotes_conflict_after_rehash :
    ∃ t : EngineConf, OrderedRun oddNode (headerHash firstVoteDigest) (fun _ _ _ => True)
        (fun _ _ => True) (rootStore oddNode sampleRoot) ⟨some t.mem, t.disk, t.outs⟩ ∧
      ∃ v ∈ castVotes t.outs, ∃ w ∈ castVotes t.outs, v.height = w.height ∧ v.block ≠ w.block := by
  have heval : ((oddRun (oddStart (rootStore oddNode sampleRoot) [])
      [(.id, .addBlock revotedBlock₁), (.id, .block revotedBlock₁), (.id, .epochTimer),
        (.id, .vote (voteFor revotedBlock₁)), (.id, .addBlock (childOf revotedBlock₁ sampleRoot)),
        (.id, .block (childOf revotedBlock₁ sampleRoot)), (.reverse, .epochTimer)]).map fun t =>
      decide (∃ v ∈ castVotes t.outs, ∃ w ∈ castVotes t.outs,
        v.height = w.height ∧ v.block ≠ w.block)) = some true := by
    decide
  obtain ⟨t, ht, hconflict⟩ := Option.map_eq_some_iff.mp heval
  exact ⟨t, OrderedRun.oddRun (s := oddStart _ []) OrderedRun.start (fun _ _ _ => trivial) ht,
    of_decide_eq_true hconflict⟩

/-- No vote that a step delivers has the largest epoch, so the epoch does not wrap. -/
def EpochBounded (nd : Node) (s : EngineConf) (_ : Answers) (act : Engine.Action) : Prop :=
  ∀ v ∈ act.delivered nd s.disk, v.epoch.toNat + 1 < 2 ^ 64

def ProposalRecorded (nd : Node) (d : Store) (outs : List Output) : Prop :=
  ∀ b ∈ castProposals outs, b.header.epoch = (State.load nd.cfg d).epoch →
    (State.load nd.cfg d).lastProposal.block = some b

structure ProposalsOrdered (s : EngineConf) : Prop where
  agree : ∀ b ∈ castProposals s.outs, ∀ c ∈ castProposals s.outs,
    b.header.epoch = c.header.epoch → b = c
  below : ∀ b ∈ castProposals s.outs, b.header.epoch ≤ s.mem.state.epoch
  last : ∀ b ∈ castProposals s.outs, b.header.epoch = s.mem.state.epoch →
    s.mem.state.lastProposal.block = some b

variable (h : ProposalsOrdered s)
include h

theorem ProposalsOrdered.of_eq (houts : castProposals s'.outs = castProposals s.outs)
    (hepoch : s'.mem.state.epoch = s.mem.state.epoch)
    (hlast : s'.mem.state.lastProposal = s.mem.state.lastProposal) : ProposalsOrdered s' := by
  constructor
  · rw [houts]; exact h.agree
  · rw [houts, hepoch]; exact h.below
  · rw [houts, hepoch, hlast]; exact h.last

theorem ProposalsOrdered.setEpoch (hv : v.epoch.toNat + 1 < 2 ^ 64)
    (hle : s.mem.state.epoch ≤ v.epoch) :
    ProposalsOrdered (s.withState nd fun st => { st with epoch := v.epoch + 1 }) := by
  have hlt : ∀ b ∈ castProposals s.outs, b.header.epoch < v.epoch + 1 := by
    intro b hb
    have hbelow := UInt64.le_iff_toNat_le.1 (h.below b hb)
    have hle := UInt64.le_iff_toNat_le.1 hle
    have hadd : (v.epoch + 1).toNat = v.epoch.toNat + 1 := by
      rw [UInt64.toNat_add]
      exact Nat.mod_eq_of_lt hv
    rw [UInt64.lt_iff_toNat_lt, hadd]
    omega
  refine ⟨h.agree, fun b hb => UInt64.le_of_lt (hlt b hb), fun b hb heq => ?_⟩
  exact absurd heq (UInt64.ne_of_lt (hlt b hb))

theorem ProposalsOrdered.newProposal {p : Proposal}
    (hlast : ∀ c, s.mem.state.lastProposal.block = some c →
      c.header.epoch ≠ s.mem.state.epoch) :
    ProposalsOrdered { s with mem:= { s.mem with state := { s.mem.state with lastProposal := p } } } := by
  refine ⟨h.agree, h.below, fun b hb heq => ?_⟩
  exact absurd heq (hlast b (h.last b hb heq))

theorem ProposalsOrdered.castProposal {b : Block} (hb : s.mem.state.lastProposal.block = some b)
    (hepoch : b.header.epoch = s.mem.state.epoch) :
    ProposalsOrdered (s.emit (.proposal s.mem.state.lastProposal)) := by
  have hsame : ∀ c ∈ castProposals s.outs, c.header.epoch = b.header.epoch → c = b := by
    intro c hc heq
    exact Option.some.inj ((h.last c hc (heq.trans hepoch)).symm.trans hb)
  have houts : castProposals (s.emit (.proposal s.mem.state.lastProposal)).outs =
      castProposals s.outs ++ [b] := castProposals_proposal _ hb
  constructor
  · rw [houts]
    intro x hx y hy hxy
    rcases mem_append.1 hx with hx | hx <;> rcases mem_append.1 hy with hy | hy
    · exact h.agree x hx y hy hxy
    · rw [mem_singleton.1 hy] at hxy ⊢
      exact hsame x hx hxy
    · rw [mem_singleton.1 hx] at hxy ⊢
      exact (hsame y hy hxy.symm).symm
    · rw [mem_singleton.1 hx, mem_singleton.1 hy]
  · rw [houts]
    intro x hx
    rcases mem_append.1 hx with hx | hx
    · exact h.below x hx
    · rw [mem_singleton.1 hx, hepoch]
      exact UInt64.le_refl _
  · rw [houts]
    intro x hx heq
    rcases mem_append.1 hx with hx | hx
    · exact h.last x hx heq
    · rw [mem_singleton.1 hx]
      exact hb

theorem ProposalsOrdered.mid (he : MidEffect nd a J s s') : ProposalsOrdered s' := by
  cases he with
  | flags e he => exact h.of_eq rfl (by rw [he]) (by rw [he])
  | setLastFinalized c p pb hJ hc hp hvalid hrecent => exact h.of_eq rfl rfl rfl
  | markFinalized c x eb lb st hc hl hpath hb hvalid hrecent hle hst => exact h.of_eq rfl rfl rfl

theorem ProposalsOrdered.effect
    (hinp : ∀ v ∈ inp.votes, v.epoch.toNat + 1 < 2 ^ 64) (he : Effect nd a inp J s s') :
    ProposalsOrdered s' := by
  cases he with
  | flags e hJ he => exact h.of_eq rfl (by rw [he]) (by rw [he])
  | relay v hJ => exact h.of_eq (castProposals_relay _ _) rfl rfl
  | castVote v hJ hid hvoted hblock hheight hzero => exact h.of_eq (castProposals_vote _ _) rfl rfl
  | setEpoch v hJ hv hepoch => exact h.setEpoch (hinp v hv) hepoch
  | newProposal p b hJ hp hepoch hlast => exact h.newProposal hlast
  | castProposal b hJ hb hepoch => exact h.castProposal hb hepoch
  | _ => exact h.of_eq rfl rfl rfl

omit h

theorem closed_proposalsOrdered (nd : Node) (a : Answers) :
    Closed nd a ⟨{v | v.epoch.toNat + 1 < 2 ^ 64}, Set.univ⟩ ProposalsOrdered (fun _ => True)
      (Kept nd ProposalsOrdered) where
  effect _ h he := by
    refine ⟨h.effect ?_ he, trivial⟩
    intro v hv
    exact hv
  mid _ h he := h.mid he
  keep hw h := ⟨_, hw, h⟩

/-- Over every run of one validator in which it crashes only when each proposal sent for
the recorded epoch is the recorded last proposal, and in which the epoch does not wrap,
all proposals it sends for one epoch carry one block. -/
theorem castProposals_consistent {d : Store} {m : Machine Engine Store Output} (hd : Fresh nd d)
    (hrun : NodeRun nd (EpochBounded nd) (ProposalRecorded nd) d m) :
    ∀ b ∈ castProposals m.outs, ∀ c ∈ castProposals m.outs,
      b.header.epoch = c.header.epoch → b = c := by
  have hinit : ProposalsOrdered ⟨Engine.new nd.cfg d, d, []⟩ := by
    constructor <;> simp [castProposals]
  have hboot : ∀ s, WellFormed nd s → ProposalsOrdered s → ProposalRecorded nd s.disk s.outs →
      ProposalsOrdered ⟨Engine.new nd.cfg s.disk, s.disk, s.outs⟩ := by
    intro s hw h hrec
    refine ⟨h.agree, fun b hb => ?_, hrec⟩
    show b.header.epoch ≤ (State.load nd.cfg s.disk).epoch
    rw [hw.synced.epoch]
    exact h.below b hb
  obtain ⟨e, -, h⟩ := nodeRun_invariant hd (fun _ a _ _ => closed_proposalsOrdered nd a)
    (fun s a act hact => ⟨hact, Set.subset_univ _⟩) hinit (by simp [ProposalRecorded, castProposals])
    hboot hrun
  exact h.agree

def sampleVote : Vote := ⟨5, 0, 0, 1, 1, some ⟨[1]⟩⟩

def sampleEpoch : EngineConf := sampleStep sampleStart 10 (.vote sampleVote)

theorem castProposals_consistent_sample :
    let s := restarted (sampleStep (sampleStep sampleEpoch 10 .propose) 10 .epochTimer)
    let t := sampleStep s 20 .propose
    (castProposals t.outs).length = 2 ∧
      ∀ b ∈ castProposals t.outs, ∀ c ∈ castProposals t.outs,
        b.header.epoch = c.header.epoch → b = c := by
  intro s t
  have hrun : SampleRun (EpochBounded sampleNode) (ProposalRecorded sampleNode) sampleEpoch := by
    refine SampleRun.start.step 10 (.vote sampleVote) ?_ (by decide)
    rintro v rfl
    decide
  have hpropose := hrun.step 10 .propose (fun v hv => hv.elim) (by decide)
  -- the vote after the proposal commits the last proposal, so the node may crash
  have hcrash := hpropose.crash 10 .epochTimer (fun v hv => hv.elim) (by
    show ∀ b ∈ castProposals _, _ = _ → _ = some b
    decide +kernel)
  have hagain := hcrash.step 20 .propose (fun v hv => hv.elim) (by decide)
  exact ⟨by decide, castProposals_consistent (fresh_rootStore (by decide)) hagain⟩

/-- A node that crashes right after it has sent a proposal sends a second one for the
same epoch, with another block. -/
theorem castProposals_conflict_after_crash :
    let s := restarted (sampleStep sampleEpoch 10 .propose)
    let t := sampleStep s 20 .propose
    Fresh sampleNode (rootStore sampleNode sampleRoot) ∧
      NodeRun sampleNode (fun _ _ _ => True) (fun _ _ => True) (rootStore sampleNode sampleRoot)
        ⟨some t.mem, t.disk, t.outs⟩ ∧
      ∃ b ∈ castProposals t.outs, ∃ c ∈ castProposals t.outs,
        b.header.epoch = c.header.epoch ∧ b ≠ c := by
  intro s t
  have hrun : SampleRun (fun _ _ _ => True) (fun _ _ => True) sampleEpoch :=
    SampleRun.start.step 10 (.vote sampleVote) trivial (by decide)
  have hcrash : SampleRun (fun _ _ _ => True) (fun _ _ => True) s :=
    hrun.crash 10 .propose trivial trivial
  have hagain : SampleRun (fun _ _ _ => True) (fun _ _ => True) t :=
    hcrash.step 20 .propose trivial (by decide)
  exact ⟨fresh_rootStore (by decide), hagain, by decide +kernel⟩

end ThetaSubchain
