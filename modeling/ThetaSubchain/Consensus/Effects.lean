/-
What one write, one output or one change of memory of the engine can be.

`Effect` lists every elementary change with what the engine has established when it makes it.
Finalizing a block passes through intermediate states; its changes are listed apart, as `MidEffect`.
-/
import ThetaSubchain.Consensus.Engine

namespace ThetaSubchain

open Durable

abbrev EngineConf := Conf Engine Store Output

structure Inputs where
  votes : Set Vote
  blocks : Set Block

variable (nd : Node) (a : Answers) (d : Store)

def voters (h : Hash) : Set Address := {i | ∃ v ∈ Chain.findVotesByHash d h, v.id = i}

def Majority (h : Hash) : Prop :=
  ∃ vs, a.getValidatorSet h = some vs ∧
    Quorum.IsQuorum vs.members vs.stakeOf vs.totalStake (voters d h)

/-- The parent of a block that names it as its HCC is finalized, or it is below the
highest CC block, or it is at the same height and has a majority. -/
def CoveredBy (highestCC p : Hash) : Prop :=
  ∃ H pb, d.block highestCC = some H ∧ d.block p = some pb ∧
    (pb.status.isFinalized ∨ pb.header.height < H.header.height ∨
      (pb.header.height = H.header.height ∧ Majority a d p))

def rootHeight : Nat :=
  match d.block nd.cfg.root with
  | some rb => rb.header.height.toNat
  | none => 0

/-- A block that is not below the root.  The blocks below it, if there are any, were
loaded with a snapshot. -/
def Recent (eb : ExtendedBlock) : Prop :=
  rootHeight nd d ≤ eb.header.height.toNat

def Answers.NonNegStakes : Prop :=
  ∀ h vs, a.getValidatorSet h = some vs → vs.NonNeg

/-- A valid block with a majority that confirms its parent, above the highest CC block. -/
def Confirms (s : EngineConf) (c p : Hash) : Prop :=
  ∃ cb H, s.disk.block c = some cb ∧ cb.status = .valid ∧ cb.header.parent = p ∧
    cb.header.hcc.blockHash = p ∧ s.disk.block s.mem.state.highestCCBlock = some H ∧
    H.header.height < cb.header.height ∧ Majority a s.disk c

def ChildLink (p c : Hash) : Prop :=
  ∃ pb cb, d.block p = some pb ∧ c ∈ pb.children ∧ d.block c = some cb ∧ cb.status.isValid

def ParentLink (p c : Hash) : Prop :=
  ∃ pb cb, d.block p = some pb ∧ d.block c = some cb ∧ cb.header.parent = p ∧
    cb.header.height.toNat = pb.header.height.toNat + 1

namespace EngineConf

def withState (nd : Node) (s : EngineConf) (f : State → State) : EngineConf :=
  { s with
    mem := { s.mem with state := f s.mem.state }
    disk := { s.disk with stub := some ((f s.mem.state).getSummary nd.cfg.root) } }

def withBlock (s : EngineConf) (h : Hash) (eb : ExtendedBlock) : EngineConf :=
  { s with disk := Chain.Store.setBlock s.disk h eb }

def withEpochVote (a : Answers) (s : EngineConf) (v : Vote) : EngineConf :=
  { s with
    disk := { s.disk with
      epochVotes := some (((s.disk.epochVotes.getD .empty).addVote v).uniqueVoter a.order) } }

def withIndexedVote (s : EngineConf) (v : Vote) : EngineConf :=
  { s with
    disk := { s.disk with
      votes := Function.update s.disk.votes v.block
        (some ((Chain.findVotesByHash s.disk v.block).addVote v)) } }

def emit (s : EngineConf) (o : Output) : EngineConf := { s with outs := s.outs ++ [o] }

end EngineConf

open EngineConf

inductive MidEffect (nd : Node) (a : Answers) (J : EngineConf → Prop) (s : EngineConf) :
    EngineConf → Prop where
  | flags (e : Engine) (h : e.state = s.mem.state) : MidEffect nd a J s { s with mem := e }
  | setLastFinalized (c p : Hash) (pb : ExtendedBlock) (hJ : J s) (hc : Confirms a s c p)
      (hp : s.disk.block p = some pb) (hvalid : pb.status.isValid)
      (hrecent : Recent nd s.disk pb) :
      MidEffect nd a J s (s.withState nd fun st => { st with lastFinalizedBlock := p })
  | markFinalized (c h : Hash) (eb lb : ExtendedBlock) (st : BlockStatus)
      (hc : Confirms a s c s.mem.state.lastFinalizedBlock)
      (hl : s.disk.block s.mem.state.lastFinalizedBlock = some lb)
      (hpath : Relation.ReflTransGen (ParentLink s.disk) h s.mem.state.lastFinalizedBlock)
      (hb : s.disk.block h = some eb) (hvalid : eb.status.isValid)
      (hrecent : Recent nd s.disk eb) (hle : eb.header.height ≤ lb.header.height)
      (hst : st = .directlyFinalized ∨ st = .indirectlyFinalized) :
      MidEffect nd a J s (s.withBlock h { eb with status := st })

/-- The second block is reached from the first along parents, down to the root. -/
inductive DownTo (root : Hash) (d : Store) : Hash → Hash → Prop where
  | self (h : Hash) : DownTo root d h h
  | parent {h q : Hash} {eb : ExtendedBlock} (hb : d.block h = some eb) (hroot : h ≠ root)
      (hq : DownTo root d eb.header.parent q) : DownTo root d h q

def FinalizedAt (d : Store) (h : Hash) : Prop :=
  ∃ eb, d.block h = some eb ∧ eb.status.isFinalized

def SameHeaders (d d' : Store) : Prop :=
  ∀ h, (d'.block h).map ExtendedBlock.header = (d.block h).map ExtendedBlock.header

/-- From a block down, the blocks are finalized that are not below one that was finalized in
the store `d`. -/
def MarkedFrom (nd : Node) (d d' : Store) (h : Hash) : Prop :=
  ∀ q, DownTo nd.cfg.root d h q →
    FinalizedAt d' q ∨ ∃ f, FinalizedAt d f ∧ DownTo nd.cfg.root d h f ∧ DownTo nd.cfg.root d f q

/-- No header has the empty hash, which ends the loops over parents. -/
def Node.NonZeroHash (nd : Node) : Prop := ∀ header, (nd.cfg.hash header).isEmpty = false

/-- The finalization of the last finalized block, which started at a boundary, is over. -/
def FinalizationOver (nd : Node) (J : EngineConf → Prop) (s : EngineConf) : Prop :=
  ∃ s₀, J s₀ ∧ SameHeaders s₀.disk s.disk ∧ (∀ q, FinalizedAt s₀.disk q → FinalizedAt s.disk q) ∧
    (nd.NonZeroHash → MarkedFrom nd s₀.disk s.disk s.mem.state.lastFinalizedBlock)

inductive Effect (nd : Node) (a : Answers) (inp : Inputs) (J : EngineConf → Prop)
    (s : EngineConf) : EngineConf → Prop where
  | flags (e : Engine) (hJ : J s) (h : e.state = s.mem.state) :
      Effect nd a inp J s { s with mem := e }
  | linkChild (b : Block) (pb : ExtendedBlock) (hJ : J s) (hb : b ∈ inp.blocks)
      (hnew : s.disk.block (nd.cfg.hash b.header) = none)
      (hp : s.disk.block b.header.parent = some pb) :
      Effect nd a inp J s (s.withBlock b.header.parent
        { pb with children := pb.children ++ [nd.cfg.hash b.header] })
  | newBlock (b : Block) (children : List Hash) (hJ : J s) (hb : b ∈ inp.blocks)
      (hnew : s.disk.block (nd.cfg.hash b.header) = none)
      (hchildren : ∀ c ∈ children, ∃ cb, s.disk.block c = some cb ∧
        cb.header.parent = nd.cfg.hash b.header) :
      Effect nd a inp J s
        (s.withBlock (nd.cfg.hash b.header) ⟨b, children, .pending, false⟩)
  | heightIndex (f : UInt64 → Option (List Hash)) (hJ : J s) (hb : inp.blocks.Nonempty) :
      Effect nd a inp J s { s with disk := { s.disk with blocksByHeight := f } }
  | epochVote (v : Vote) (hJ : J s) (hv : v ∈ inp.votes)
      (hok : (v.validate nd.verify).isError = false) :
      Effect nd a inp J s (s.withEpochVote a v)
  | indexVote (v : Vote) (hJ : J s) (hv : v ∈ inp.votes)
      (hok : (v.validate nd.verify).isError = false) :
      Effect nd a inp J s (s.withIndexedVote v)
  | setEpoch (v : Vote) (hJ : J s) (hv : v ∈ inp.votes) (hepoch : s.mem.state.epoch ≤ v.epoch) :
      Effect nd a inp J s (s.withState nd fun st => { st with epoch := v.epoch + 1 })
  | relay (v : Vote) (hJ : J s) : Effect nd a inp J s (s.emit (.relay v))
  | markInvalid (h : Hash) (eb : ExtendedBlock) (hJ : J s) (hb : s.disk.block h = some eb)
      (hpending : eb.status = .pending) :
      Effect nd a inp J s (s.withBlock h { eb with status := .invalid })
  | markUpdate (h : Hash) (eb : ExtendedBlock) (hJ : J s) (hb : s.disk.block h = some eb)
      (hpending : eb.status = .pending) (happly : a.applyBlockTxs eb.block = (.ok, some true)) :
      Effect nd a inp J s (s.withBlock h { eb with hasValidatorUpdate := true })
  /-- The parent is valid and one lower, and it is covered if it is the HCC.  The block was
  applied, and a validator update has been marked. -/
  | markValid (h : Hash) (eb pb : ExtendedBlock) (hJ : J s) (hb : s.disk.block h = some eb)
      (hpending : eb.status = .pending) (hp : s.disk.block eb.header.parent = some pb)
      (hvalid : pb.status.isValid) (hrecent : Recent nd s.disk pb)
      (hheight : eb.header.height.toNat = pb.header.height.toNat + 1)
      (hcov : a.NonNegStakes → eb.header.hcc.blockHash = eb.header.parent →
        CoveredBy a s.disk s.mem.state.highestCCBlock eb.header.parent)
      (happly : ∃ update, a.applyBlockTxs eb.block = (.ok, update) ∧
        (update = some true → eb.hasValidatorUpdate = true)) :
      Effect nd a inp J s (s.withBlock h { eb with status := .valid })
  /-- A new vote is for the highest CC block or for one above it, and it is above the
  last vote. -/
  | newVote (v : Vote) (tip H : ExtendedBlock) (hJ : J s) (hid : v.id = nd.id)
      (htip : s.disk.block v.block = some tip) (hheight : tip.header.height = v.height)
      (hH : s.disk.block s.mem.state.highestCCBlock = some H)
      (hhigh : tip = H ∨ H.header.height < tip.header.height)
      (hpath : Relation.ReflTransGen (ChildLink s.disk) s.mem.state.highestCCBlock v.block)
      (hlast : s.mem.state.lastVote.height = 0 ∨ s.mem.state.lastVote.height < v.height) :
      Effect nd a inp J s (s.withState nd fun st => { st with lastVote := v })
  /-- A vote that is sent is the last vote, up to its epoch.  Only the root can be at
  height zero. -/
  | castVote (v : Vote) (hJ : J s) (hid : v.id = nd.id) (hvoted : s.mem.state.lastVote ≠ .zero)
      (hblock : v.block = s.mem.state.lastVote.block)
      (hheight : v.height = s.mem.state.lastVote.height)
      (hzero : v.height = 0 → v.block = nd.cfg.root) :
      Effect nd a inp J s (s.emit (.vote v))
  /-- Either no block is being finalized, or the parent of the block has been. -/
  | setHighestCC (h : Hash) (eb H : ExtendedBlock)
      (hJ : J s ∨ s.mem.state.lastFinalizedBlock = eb.header.parent)
      (hb : s.disk.block h = some eb) (hvalid : eb.status = .valid)
      (hH : s.disk.block s.mem.state.highestCCBlock = some H)
      (hlt : H.header.height < eb.header.height) (hmaj : Majority a s.disk h)
      (hover : J s ∨ FinalizationOver nd J s) :
      Effect nd a inp J s (s.withState nd fun st => { st with highestCCBlock := h })
  | commit (eb : ExtendedBlock) (hJ : J s)
      (hb : s.disk.block s.mem.state.highestCCBlock = some eb) (hvalid : eb.status = .valid) :
      Effect nd a inp J s
        (s.withBlock s.mem.state.highestCCBlock { eb with status := .committed })
  /-- A new proposal is for the current epoch and is remembered in memory only. -/
  | newProposal (p : Proposal) (b : Block) (hJ : J s) (hp : p.block = some b)
      (hepoch : b.header.epoch = s.mem.state.epoch)
      (hlast : ∀ c, s.mem.state.lastProposal.block = some c →
        c.header.epoch ≠ s.mem.state.epoch) :
      Effect nd a inp J s
        { s with mem := { s.mem with state := { s.mem.state with lastProposal := p } } }
  | castProposal (b : Block) (hJ : J s) (hb : s.mem.state.lastProposal.block = some b)
      (hepoch : b.header.epoch = s.mem.state.epoch) :
      Effect nd a inp J s (s.emit (.proposal s.mem.state.lastProposal))

end ThetaSubchain
