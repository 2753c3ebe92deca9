/-
The sync manager: what a node does with the messages of its peers (netsync/sync.go,
netsync/encode.go).

A block that is looked up in the chain store and not there is fatal.  The table of hardcoded block
hashes is empty.
-/
import ThetaSubchain.Consensus.Engine
import ThetaSubchain.Core.BlockCodec
import ThetaSubchain.Netsync.Request

namespace ThetaSubchain

open Durable
open Rlp (Item)

/-! ## Messages -/

inductive ChannelID where
  | header
  | block
  | proposal
  | vote
  | other (id : UInt8)
deriving DecidableEq, Repr

inductive PeerMessage where
  | inventoryRequest (channelID : ChannelID) (starts : List Bytes) (endHash : Bytes)
  | inventoryResponse (channelID : ChannelID) (entries : List Bytes)
  | dataRequest (channelID : ChannelID) (entries : List Bytes)
  | dataResponse (channelID : ChannelID) (payload : Bytes)
deriving DecidableEq, Repr

/-- What the sync manager sends to peers, to all of them if none is named, and what it passes
to the engine. -/
inductive SyncOutput where
  | sendData (peers : List PeerID) (channelID : ChannelID) (payload : Bytes)
  | sendInventory (peers : List PeerID) (channelID : ChannelID) (entries : List Bytes)
  | passVote (vote : Vote)
deriving DecidableEq

structure SyncConfig where
  chain : ChainConfig
  verify : Verifier
  trieRoot : TrieContent → Hash
  keccak : Bytes → Hash
  channelID : UInt8 → ChannelID
  hexToHash : Bytes → Hash
  hex : Hash → Bytes
  maxInventorySize : Nat
  libp2p : Bool
  whitelist : List PeerID
  toLower : Bytes → Bytes

structure SyncAnswers where
  order : MapOrder
  now : Int
  peerOrder : List (PeerID × Int) → List (PeerID × Int)
  highestCCBlock : Hash
  lastFinalizedBlock : Hash

structure SyncManager where
  requestMgr : RequestManager
  voteCache : List Hash

abbrev SyncProc := Proc SyncManager Store SyncOutput

def voteCacheLimit : Nat := 512

/-! ## Decoding -/

/-- A proposal that is read has a block: what is written for a nil pointer is not a block. -/
def Proposal.ofItem : Item → Option Proposal
  | .list [block, proposerID, votes] => do
    return ⟨some (← Block.ofItem block), ← Address.ofItem proposerID, ← voteSetOfItem votes⟩
  | _ => none

def arrayOfItem {α : Type} (f : Item → Option α) : Item → Option (List α)
  | .list [xs] => listOfItem f xs
  | _ => none

def decodePayload {α : Type} (f : Item → Option α) (payload : Bytes) : Option α :=
  (Rlp.decode payload).bind f

namespace Sync

variable (cfg : SyncConfig) (a : SyncAnswers)

def channelOfItem (x : Item) : Option ChannelID := (byteOfItem x).map cfg.channelID

def requestOfItem : Item → Option PeerMessage
  | .list [channelID, starts, endHash] => do
    return .inventoryRequest (← channelOfItem cfg channelID) (← listOfItem bytesOfItem starts)
      (← bytesOfItem endHash)
  | _ => none

def entriesOfItem (message : ChannelID → List Bytes → PeerMessage) : Item → Option PeerMessage
  | .list [channelID, entries] => do
    return message (← channelOfItem cfg channelID) (← listOfItem bytesOfItem entries)
  | _ => none

def responseOfItem : Item → Option PeerMessage
  | .list [channelID, payload] => do
    return .dataResponse (← channelOfItem cfg channelID) (← bytesOfItem payload)
  | _ => none

def messageIDInvRequest : UInt8 := 0
def messageIDInvResponse : UInt8 := 1
def messageIDDataRequest : UInt8 := 2
def messageIDDataResponse : UInt8 := 3

def decodeMessage (raw : Bytes) : Option PeerMessage :=
  match raw with
  | b :: c :: rest => do
    let msgID ← decodePayload byteOfItem [b]
    if msgID = messageIDInvRequest then decodePayload (requestOfItem cfg) (c :: rest)
    else if msgID = messageIDInvResponse then
      decodePayload (entriesOfItem cfg .inventoryResponse) (c :: rest)
    else if msgID = messageIDDataRequest then
      decodePayload (entriesOfItem cfg .dataRequest) (c :: rest)
    else if msgID = messageIDDataResponse then decodePayload (responseOfItem cfg) (c :: rest)
    else none
  | _ => none

/-! ## The engine -/

def getLastFinalizedBlock : SyncProc ExtendedBlock := do
  .orDie (Chain.findBlock (← .disk) a.lastFinalizedBlock)

variable (d : Store) (peerID : PeerID) (channelID : ChannelID)

def tip : Option ExtendedBlock := do
  let hcc ← Chain.findBlock d a.highestCCBlock
  Engine.tipLoop d true cfg.chain.fuel [hcc] hcc

def getTip : SyncProc ExtendedBlock := do
  .orDie (tip cfg a (← .disk))

/-! ## Inventory requests -/

def locateStart (starts : List Bytes) : Hash :=
  (((starts.map cfg.hexToHash).find? fun curr =>
    match Chain.findBlock d curr with
    | some b => b.status ≠ .pending && b.status ≠ .invalid
    | none => false)).getD 0

def finalizedChild (d : Store) : List Hash → Option (List Hash)
  | [] => some []
  | child :: children =>
    match Chain.findBlock d child with
    | none => none
    | some block =>
      if block.status.isFinalized then some [cfg.chain.hash block.header]
      else finalizedChild d children

/-- The loop of `collectBlocks` and `collectHeaders`, for at most `n` blocks from the queue on.
The flag is false if it returns early because a block is not stored. -/
def collect (d : Store) (lfbHeight : UInt64) (endHash : Hash) :
    Nat → List Hash → List (Hash × ExtendedBlock) × Bool
  | 0, _ => ([], true)
  | _ + 1, [] => ([], true)
  | n + 1, curr :: q =>
    match Chain.findBlock d curr with
    | none => ([], false)
    | some block =>
      if curr = endHash then ([(curr, block)], true)
      else if block.header.height < lfbHeight then
        match finalizedChild cfg d block.children with
        | none => ([(curr, block)], false)
        | some next =>
          let (rest, complete) := collect d lfbHeight endHash n (q ++ next)
          ((curr, block) :: rest, complete)
      else
        let (rest, complete) := collect d lfbHeight endHash n (q ++ block.children)
        ((curr, block) :: rest, complete)

/-- What is collected, with the last finalized block in the end unless the loop returned early. -/
def collected {α : Type} (f : Hash → ExtendedBlock → α) (d : Store) (lfb : ExtendedBlock)
    (start endHash : Hash) : List α :=
  let (blocks, complete) :=
    collect cfg d lfb.header.height endHash (cfg.maxInventorySize - 1) [start]
  let ret := blocks.map fun p => f p.1 p.2
  if complete then
    let ret := if cfg.maxInventorySize < ret.length then ret.take (cfg.maxInventorySize - 1) else ret
    ret ++ [f (cfg.chain.hash lfb.header) lfb]
  else ret

def collectBlocks (lfb : ExtendedBlock) (start endHash : Hash) : List Bytes :=
  collected cfg (fun curr _ => cfg.hex curr) d lfb start endHash

def collectHeaders (lfb : ExtendedBlock) (start endHash : Hash) : List BlockHeader :=
  collected cfg (fun _ block => block.header) d lfb start endHash

def encodeHeaders (headers : List BlockHeader) : Bytes :=
  Rlp.encode (.list [.list (headers.map (·.toItem a.order))])

def encodeBlocks (blocks : List Block) : Bytes :=
  Rlp.encode (.list [.list (blocks.map (·.toItem a.order))])

def handleInvRequest (starts : List Bytes) (endHash : Bytes) : SyncProc Unit :=
  match channelID with
  | .block => do
    let start := locateStart cfg (← .disk) starts
    if start.isEmpty then pure ()
    else
      let lfb ← getLastFinalizedBlock a
      let headers := collectHeaders cfg (← .disk) lfb start (cfg.hexToHash endHash)
      .output (.sendData [peerID] .header (encodeHeaders a headers))
      .output (.sendInventory [peerID] .block
        (collectBlocks cfg (← .disk) lfb start (cfg.hexToHash endHash)))
  | _ => pure ()

def handleInvResponse (entries : List Bytes) : SyncProc Unit :=
  match channelID with
  | .block => do
    let fromGossip := entries.length == 1
    let d ← .disk
    .modifyMem fun sm =>
      { sm with
        requestMgr := (entries.take cfg.maxInventorySize).foldl (fun rm hashStr =>
          rm.addHash a.now d (cfg.hexToHash hashStr) [peerID] fromGossip) sm.requestMgr }
    if fromGossip then pure ()
    else .modifyMem fun sm =>
      { sm with requestMgr := sm.requestMgr.addActivePeer a.peerOrder peerID }
  | _ => pure ()

/-! ## Data requests -/

def sendSingleBlock (hashStr : Bytes) : SyncProc Unit := do
  match Chain.findBlock (← .disk) (cfg.hexToHash hashStr) with
  | none => pure ()
  | some block =>
    .output (.sendData [peerID] .block (Rlp.encode (block.block.toItem a.order)))

/-- The hash of the first block is logged, also if there is none. -/
def handleDataRequest (entries : List Bytes) : SyncProc Unit :=
  match channelID, entries with
  | .block, [hashStr] => sendSingleBlock cfg a peerID hashStr
  | .block, entries => do
    let d ← .disk
    match entries.mapM fun hashStr => Chain.findBlock d (cfg.hexToHash hashStr) with
    | none => pure ()
    | some blocks =>
      let _ ← .orDie blocks.head?
      .output (.sendData [peerID] .block (encodeBlocks a (blocks.map ExtendedBlock.block)))
  | _, _ => pure ()

/-! ## Data responses -/

def alreadyInChain (hash : Hash) : Bool :=
  match Chain.findBlock d hash with
  | some eb => !eb.status.isPending
  | none => false

/-- The request manager takes the block: it is added to the chain and no longer pending. -/
def addBlock (block : Block) : SyncProc Unit := do
  match ← Chain.addBlock cfg.chain block false with
  | .error _ => pure ()
  | .ok _ =>
    .modifyMem fun sm =>
      { sm with requestMgr := sm.requestMgr.removeHash (cfg.chain.hash block.header) }

def handleBlock (block : Block) : SyncProc Unit := do
  let hash := cfg.chain.hash block.header
  if alreadyInChain (← .disk) hash then pure ()
  else if (block.validate cfg.verify cfg.trieRoot a.order cfg.chain.chainID).isError then pure ()
  else
    addBlock cfg block
    if (← .mem).requestMgr.isGossipBlock hash && !cfg.libp2p then
      .output (.sendInventory [] .block [cfg.hex hash])
      .output (.sendData [] .header (encodeHeaders a [block.header]))
    else pure ()

/-- A vote that was processed already is dropped, and so is one for a disposed block. -/
def voteIsStale (vote : Vote) : Bool :=
  (((Chain.findVotesByHash d vote.block).votes a.order).any fun v =>
      v.block == vote.block && v.epoch == vote.epoch && v.height == vote.height && v.id == vote.id) ||
    (match Chain.findBlock d vote.block with
      | some b => b.status == .disposed
      | none => false)

def handleVote (vote : Vote) : SyncProc Unit := do
  if voteIsStale a (← .disk) vote then pure ()
  else
    .output (.passVote vote)
    let payload := Rlp.encode vote.toItem
    let hash := cfg.keccak payload
    if cfg.libp2p || hash ∈ (← .mem).voteCache then pure ()
    else
      .modifyMem fun sm => { sm with voteCache := (hash :: sm.voteCache).take voteCacheLimit }
      .output (.sendData [] .vote payload)

def handleProposal (p : Proposal) : SyncProc Unit := do
  match p.votes with
  | some votes => Proc.forEach (votes.votes a.order) (handleVote cfg a)
  | none => pure ()
  let block ← .orDie p.block
  handleBlock cfg a block

def handleHeader (header : BlockHeader) : SyncProc Unit := do
  if alreadyInChain (← .disk) (cfg.chain.hash header) then pure ()
  else
    let lfb ← getLastFinalizedBlock a
    let tip ← getTip cfg a
    if lfb.header.height < header.height ∧
        header.height ≤ tip.header.height + UInt64.ofNat cfg.maxInventorySize + 1 then
      let d ← .disk
      .modifyMem fun sm =>
        { sm with requestMgr := sm.requestMgr.addHeader cfg.chain a.now d header [peerID] }
    else pure ()

def handleDataResponse (payload : Bytes) : SyncProc Unit :=
  match channelID with
  | .block =>
    match decodePayload Block.ofItem payload with
    | some block => handleBlock cfg a block
    | none =>
      match decodePayload (arrayOfItem Block.ofItem) payload with
      | some blocks => Proc.forEach blocks (handleBlock cfg a)
      | none => pure ()
  | .vote =>
    match decodePayload Vote.ofItem payload with
    | some vote => handleVote cfg a vote
    | none => pure ()
  | .proposal =>
    match decodePayload Proposal.ofItem payload with
    | some proposal => handleProposal cfg a proposal
    | none => pure ()
  | .header =>
    match decodePayload (arrayOfItem BlockHeader.ofItem) payload with
    | some headers => Proc.forEach headers (handleHeader cfg a peerID)
    | none => pure ()
  | .other _ => pure ()

def inboundAllowed : Bool :=
  cfg.whitelist.isEmpty || cfg.whitelist.any fun p => cfg.toLower p == cfg.toLower peerID

def processMessage : PeerMessage → SyncProc Unit
  | .inventoryRequest channelID starts endHash =>
    handleInvRequest cfg a peerID channelID starts endHash
  | .inventoryResponse channelID entries =>
    if inboundAllowed cfg peerID then handleInvResponse cfg a peerID channelID entries else pure ()
  | .dataRequest channelID entries => handleDataRequest cfg a peerID channelID entries
  | .dataResponse channelID payload =>
    if inboundAllowed cfg peerID then handleDataResponse cfg a peerID channelID payload else pure ()

end Sync

end ThetaSubchain
