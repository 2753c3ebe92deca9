/-
Which messages of a peer kill the node: a data request for no block, and a header, if a child of a
block on the way to the tip is not stored.
-/
import ThetaSubchain.Lib.Returning
import ThetaSubchain.Netsync.Sync

namespace ThetaSubchain

open Durable Option
open Durable.Proc hiding pure

namespace Chain

variable {μ ο : Type}

theorem always_saveBlock (cfg : ChainConfig) (eb : ExtendedBlock) :
    (saveBlock cfg eb : Proc μ Store ο Unit).Always :=
  always_modifyDisk _

theorem always_addBlockByHeightIndex (height : UInt64) (h : Hash) :
    (addBlockByHeightIndex height h : Proc μ Store ο Unit).Always := by
  refine always_disk.bind fun d => ?_
  dsimp only
  split
  · exact always_pure ()
  · exact always_modifyDisk _

theorem always_addBlock (cfg : ChainConfig) (block : Block) (isSnapshotRoot : Bool) :
    (addBlock cfg block isSnapshotRoot : Proc μ Store ο _).Always := by
  unfold addBlock
  dsimp only
  split
  · exact always_pure _
  refine always_disk.bind fun d => ?_
  split
  · exact always_pure _
  have hrest : (do
      let children := (findBlocksByHeight (← .disk) (block.header.height + 1)).filter
        fun c => c.header.parent = cfg.hash block.header
      let extendedBlock : ExtendedBlock :=
        ⟨block, children.map fun c => cfg.hash c.header, .pending, false⟩
      saveBlock cfg extendedBlock
      addBlockByHeightIndex block.header.height (cfg.hash block.header)
      pure (.ok extendedBlock) : Proc μ Store ο (Except String ExtendedBlock)).Always := by
    refine always_disk.bind fun d => (always_saveBlock cfg _).bind fun _ => ?_
    exact (always_addBlockByHeightIndex _ _).bind fun _ => always_pure _
  split
  · refine always_disk.bind fun d => ?_
    split
    · exact (always_saveBlock cfg _).bind fun _ => hrest
    · exact hrest
  · exact hrest

end Chain

namespace Sync

variable {cfg : SyncConfig} {a : SyncAnswers} {s : Conf SyncManager Store SyncOutput}

variable (peerID : PeerID) (channelID : ChannelID)

theorem always_handleInvResponse
    (entries : List Bytes) : (handleInvResponse cfg a peerID channelID entries).Always := by
  cases channelID with
  | block =>
    refine always_disk.bind fun d => (always_modifyMem _).bind fun _ => ?_
    split
    · exact always_pure ()
    · exact always_modifyMem _
  | _ => exact always_pure ()

theorem always_sendSingleBlock (hashStr : Bytes) :
    (sendSingleBlock cfg a peerID hashStr).Always := by
  refine always_disk.bind fun d => ?_
  split
  · exact always_pure ()
  · exact always_output _

theorem always_addBlock (block : Block) : (addBlock cfg block).Always := by
  refine (Chain.always_addBlock cfg.chain block false).bind fun result => ?_
  cases result with
  | error e => exact always_pure ()
  | ok eb => exact always_modifyMem _

theorem always_handleBlock (block : Block) : (handleBlock cfg a block).Always := by
  refine always_disk.bind fun d => ?_
  split
  · exact always_pure ()
  split
  · exact always_pure ()
  refine (always_addBlock block).bind fun _ => always_mem.bind fun sm => ?_
  split
  · exact (always_output _).bind fun _ => always_output _
  · exact always_pure ()

theorem always_handleVote (vote : Vote) : (handleVote cfg a vote).Always := by
  refine always_disk.bind fun d => ?_
  split
  · exact always_pure ()
  refine (always_output _).bind fun _ => always_mem.bind fun sm => ?_
  split
  · exact always_pure ()
  · exact (always_modifyMem _).bind fun _ => always_output _

theorem returns_getLastFinalizedBlock {β : Type} {f : ExtendedBlock → SyncProc β} :
    (getLastFinalizedBlock a >>= f).Returns s ↔
      ∃ lfb, Chain.findBlock s.disk a.lastFinalizedBlock = some lfb ∧ (f lfb).Returns s := by
  show (disk >>= fun d => orDie (Chain.findBlock d a.lastFinalizedBlock) >>= f).Returns s ↔ _
  rw [returns_disk, returns_orDie]

theorem returns_handleInvRequest_iff (starts : List Bytes) (endHash : Bytes) :
    (handleInvRequest cfg a peerID channelID starts endHash).Returns s ↔
      ¬ (channelID = .block ∧ ¬ (locateStart cfg s.disk starts).isEmpty ∧
        Chain.findBlock s.disk a.lastFinalizedBlock = none) := by
  cases channelID with
  | block =>
    refine returns_disk.trans ?_
    by_cases hstart : (locateStart cfg s.disk starts).isEmpty
    · rw [if_pos hstart]
      exact iff_of_true (always_pure () s) fun h => h.2.1 hstart
    rw [if_neg hstart, returns_getLastFinalizedBlock]
    constructor
    · rintro ⟨lfb, hlfb, -⟩ ⟨-, -, hnone⟩
      rw [hnone] at hlfb
      cases hlfb
    · intro h
      have hlfb : Chain.findBlock s.disk a.lastFinalizedBlock ≠ none :=
        fun hnone => h ⟨rfl, hstart, hnone⟩
      obtain ⟨lfb, hlfb⟩ := ne_none_iff_exists'.mp hlfb
      refine ⟨lfb, hlfb, Always.bind always_disk (fun d => ?_) s⟩
      exact (always_output _).bind fun _ => always_disk.bind fun d' => always_output _
  | _ => exact iff_of_true (always_pure () s) nofun

theorem returns_handleDataRequest_iff (entries : List Bytes) :
    (handleDataRequest cfg a peerID channelID entries).Returns s ↔
      ¬ (channelID = .block ∧ entries = []) := by
  cases channelID with
  | block =>
    match entries with
    | [] => exact iff_of_false nofun fun h => h ⟨rfl, rfl⟩
    | [hashStr] => exact iff_of_true (always_sendSingleBlock peerID hashStr s) nofun
    | e₁ :: e₂ :: rest =>
      refine iff_of_true (returns_disk.mpr ?_) nofun
      cases hblocks : (e₁ :: e₂ :: rest).mapM fun hashStr =>
          Chain.findBlock s.disk (cfg.hexToHash hashStr) with
      | none => exact always_pure () s
      | some blocks =>
        -- the first hash was found, so there is a first block
        rw [List.mapM_cons, bind_eq_bind, bind_eq_some_iff] at hblocks
        obtain ⟨b, -, hblocks⟩ := hblocks
        rw [bind_eq_bind, bind_eq_some_iff] at hblocks
        obtain ⟨bs, -, hblocks⟩ := hblocks
        cases hblocks
        exact returns_orDie.mpr ⟨b, rfl, always_output _ s⟩
  | _ => exact iff_of_true (always_pure () s) nofun

theorem always_handleProposal {p : Proposal} {block : Block} (hp : p.block = some block) :
    (handleProposal cfg a p).Always := by
  have hblock : ∀ _ : Unit, (orDie p.block >>= handleBlock cfg a : SyncProc Unit).Always :=
    fun _ s => returns_orDie.mpr ⟨block, hp, always_handleBlock block s⟩
  unfold handleProposal
  cases p.votes with
  | none => exact (always_pure ()).bind hblock
  | some votes => exact (always_forEach always_handleVote).bind hblock

theorem exists_block_of_decode {payload : Bytes} {p : Proposal}
    (h : decodePayload Proposal.ofItem payload = some p) : ∃ block, p.block = some block := by
  obtain ⟨x, -, h⟩ := bind_eq_some_iff.1 h
  unfold Proposal.ofItem at h
  split at h
  · obtain ⟨block, -, h⟩ := bind_eq_some_iff.1 h
    obtain ⟨_, -, h⟩ := bind_eq_some_iff.1 h
    obtain ⟨_, -, h⟩ := bind_eq_some_iff.1 h
    exact ⟨block, congrArg Proposal.block (some.inj h).symm⟩
  · cases h

def TipFound (cfg : SyncConfig) (a : SyncAnswers) (d : Store) : Prop :=
  (Chain.findBlock d a.lastFinalizedBlock).isSome ∧ (tip cfg a d).isSome

theorem disk_handleHeader (header : BlockHeader) (s : Conf SyncManager Store SyncOutput) :
    ((handleHeader cfg a peerID header).run s).2.disk = s.disk := by
  have h : (handleHeader cfg a peerID header).wp (fun d _ => d = s.disk) (fun _ _ => True) s := by
    unfold handleHeader getLastFinalizedBlock getTip
    simp only [wp_bind, wp_disk]
    split
    · trivial
    simp only [wp_bind, wp_disk, wp_orDie]
    intro lfb _ tip _
    split <;> trivial
  exact wp_run_disk rfl h

theorem returns_handleHeader_iff (header : BlockHeader) (s : Conf SyncManager Store SyncOutput) :
    (handleHeader cfg a peerID header).Returns s ↔
      (alreadyInChain s.disk (cfg.chain.hash header) = false → TipFound cfg a s.disk) := by
  refine returns_disk.trans ?_
  cases hin : alreadyInChain s.disk (cfg.chain.hash header) with
  | true => exact iff_of_true (always_pure () s) nofun
  | false =>
    refine returns_getLastFinalizedBlock.trans ?_
    constructor
    · rintro ⟨lfb, hlfb, h⟩ -
      obtain ⟨tip, htip, -⟩ := returns_orDie.mp (returns_disk.mp h)
      exact ⟨isSome_iff_exists.mpr ⟨lfb, hlfb⟩, isSome_iff_exists.mpr ⟨tip, htip⟩⟩
    · intro h
      obtain ⟨lfb, hlfb⟩ := isSome_iff_exists.mp (h rfl).1
      obtain ⟨tip, htip⟩ := isSome_iff_exists.mp (h rfl).2
      refine ⟨lfb, hlfb, returns_disk.mpr (returns_orDie.mpr ⟨tip, htip, ?_⟩)⟩
      split
      · exact always_disk.bind (fun d => always_modifyMem _) s
      · exact always_pure () s

/-- The message kills a node with this store: it names a block that is not there. -/
def Fatal (cfg : SyncConfig) (a : SyncAnswers) (d : Store) (peerID : PeerID) :
    PeerMessage → Prop
  | .inventoryRequest channelID starts _ =>
    channelID = .block ∧ ¬ (locateStart cfg d starts).isEmpty ∧
      Chain.findBlock d a.lastFinalizedBlock = none
  | .inventoryResponse _ _ => False
  | .dataRequest channelID entries => channelID = .block ∧ entries = []
  | .dataResponse .header payload =>
    inboundAllowed cfg peerID ∧
      ∃ headers, decodePayload (arrayOfItem BlockHeader.ofItem) payload = some headers ∧
        ∃ h ∈ headers, alreadyInChain d (cfg.chain.hash h) = false ∧ ¬ TipFound cfg a d
  | .dataResponse _ _ => False

theorem returns_handleDataResponse_iff {peerID : PeerID} (hallowed : inboundAllowed cfg peerID)
    (channelID : ChannelID) (payload : Bytes) :
    (handleDataResponse cfg a peerID channelID payload).Returns s ↔
      ¬ Fatal cfg a s.disk peerID (.dataResponse channelID payload) := by
  cases channelID with
  | block =>
    refine iff_of_true ?_ nofun
    unfold handleDataResponse
    dsimp only
    split
    · exact always_handleBlock _ s
    split
    · exact always_forEach always_handleBlock s
    · exact always_pure () s
  | vote =>
    refine iff_of_true ?_ nofun
    unfold handleDataResponse
    dsimp only
    split
    · exact always_handleVote _ s
    · exact always_pure () s
  | other id => exact iff_of_true (always_pure () s) nofun
  | proposal =>
    refine iff_of_true ?_ nofun
    unfold handleDataResponse
    dsimp only
    split
    next p hp =>
      obtain ⟨block, hblock⟩ := exists_block_of_decode hp
      exact always_handleProposal hblock s
    · exact always_pure () s
  | header =>
    unfold handleDataResponse Fatal
    dsimp only
    cases hhs : decodePayload (arrayOfItem BlockHeader.ofItem) payload with
    | none => exact iff_of_true (always_pure () s) fun ⟨_, p, h, _⟩ => nomatch h
    | some headers =>
      rw [returns_forEach_iff
        (fun h d => alreadyInChain d (cfg.chain.hash h) = false → TipFound cfg a d)
        (disk_handleHeader peerID) (returns_handleHeader_iff peerID)]
      constructor
      · rintro hall ⟨-, headers', hhs', h, hmem, hnew, htip⟩
        cases hhs'
        exact htip (hall h hmem hnew)
      · intro h header hmem hnew
        by_contra htip
        exact h ⟨hallowed, headers, rfl, header, hmem, hnew, htip⟩

/-- A message is processed to its end exactly if it is not one of the fatal ones. -/
theorem processMessage_returns_iff (cfg : SyncConfig) (a : SyncAnswers)
    (s : Conf SyncManager Store SyncOutput) (peerID : PeerID) (msg : PeerMessage) :
    (processMessage cfg a peerID msg).Returns s ↔ ¬ Fatal cfg a s.disk peerID msg := by
  cases msg with
  | inventoryRequest channelID starts endHash =>
    exact returns_handleInvRequest_iff peerID channelID starts endHash
  | inventoryResponse channelID entries =>
    refine iff_of_true ?_ nofun
    simp only [processMessage]
    split
    · exact always_handleInvResponse peerID channelID entries s
    · exact always_pure () s
  | dataRequest channelID entries => exact returns_handleDataRequest_iff peerID channelID entries
  | dataResponse channelID payload =>
    simp only [processMessage]
    by_cases hallowed : inboundAllowed cfg peerID
    · rw [if_pos hallowed]
      exact returns_handleDataResponse_iff hallowed channelID payload
    · rw [if_neg hallowed]
      refine iff_of_true (always_pure () s) ?_
      cases channelID with
      | header => exact fun h => hallowed h.1
      | _ => exact nofun

def openSync : SyncConfig where
  chain := ⟨fun _ => 0, [], 0, 0⟩
  verify := fun _ _ _ => false
  trieRoot := fun _ => 0
  keccak := fun _ => 0
  channelID
    | 2 => .header
    | 3 => .block
    | 4 => .proposal
    | 5 => .vote
    | id => .other id
  hexToHash := fun _ => 0
  hex := fun _ => []
  maxInventorySize := 50
  libp2p := false
  whitelist := []
  toLower := id

def emptyRequest : Bytes := [0x02, 0xc2, 0x03, 0xc0]

/-- The message is accepted by `decodeMessage`, and it kills the node whatever its store holds. -/
theorem empty_request_is_fatal :
    decodeMessage openSync emptyRequest = some (.dataRequest .block []) ∧
      ∀ a s peerID, ¬ (processMessage openSync a peerID (.dataRequest .block [])).Returns s := by
  refine ⟨by decide, fun a s peerID h => ?_⟩
  have hrun : (handleDataRequest openSync a peerID .block []).Returns s := h
  exact (returns_handleDataRequest_iff peerID .block []).mp hrun ⟨rfl, rfl⟩

end Sync

end ThetaSubchain
