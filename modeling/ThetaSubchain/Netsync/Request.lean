/-
The request manager: blocks that are announced and not yet there (netsync/request.go).

A pending block is shared by the list, the map and the heap of the headers, so pending blocks lie
in cells and the three hold the numbers of the cells.  The field `block` is never set and left out.
-/
import ThetaSubchain.Blockchain.Chain

namespace ThetaSubchain

open Durable

abbrev PeerID := Bytes

inductive RequestState where
  | toSendDataReq
  | waitingDataResp
  | toSendBodyReq
  | waitingBodyResp
deriving DecidableEq, Repr

structure PendingBlock where
  hash : Hash
  header : Option BlockHeader
  peers : List PeerID
  lastUpdate : Int
  createdAt : Int
  status : RequestState
  fromGossip : Bool

def PendingBlock.new (now : Int) (x : Hash) (peerIds : List PeerID) (fromGossip : Bool) :
    PendingBlock :=
  ⟨x, none, peerIds, now, now, .toSendDataReq, fromGossip⟩

def PendingBlock.addPeers (pb : PendingBlock) (peerIDs : List PeerID) : PendingBlock :=
  { pb with
    peers := peerIDs.foldl (fun peers id => if id ∈ peers then peers else peers ++ [id]) pb.peers }

structure RequestManager where
  cells : Nat → PendingBlock
  nextCell : Nat
  pendingBlocks : List Nat
  pendingBlocksByHash : Hash → Option Nat
  pendingBlocksWithHeader : List Nat
  activePeers : List (PeerID × Int)

namespace RequestManager

variable (rm : RequestManager)

def update (cell : Nat) (f : PendingBlock → PendingBlock) : RequestManager :=
  { rm with cells := Function.update rm.cells cell (f (rm.cells cell)) }

def headerLess (heap : List Nat) (i j : Nat) : Bool :=
  match heap[i]?.bind fun c => (rm.cells c).header, heap[j]?.bind fun c => (rm.cells c).header with
  | some a, some b => decide (a.height < b.height)
  | _, _ => decide (i < j)

def swap (heap : List Nat) (i j : Nat) : List Nat :=
  match heap[i]?, heap[j]? with
  | some a, some b => (heap.set i b).set j a
  | _, _ => heap

def up : Nat → List Nat → Nat → List Nat
  | 0, heap, _ => heap
  | n + 1, heap, j =>
    let i := (j - 1) / 2
    if i = j || !rm.headerLess heap j i then heap
    else up n (swap heap i j) i

def pushHeader (cell : Nat) : RequestManager :=
  let heap := rm.pendingBlocksWithHeader ++ [cell]
  { rm with pendingBlocksWithHeader := rm.up heap.length heap (heap.length - 1) }

def addHash (now : Int) (d : Store) (x : Hash) (peerIDs : List PeerID) (fromGossip : Bool) :
    RequestManager :=
  if (Chain.findBlock d x).isSome then rm
  else
    match rm.pendingBlocksByHash x with
    | some cell => rm.update cell (·.addPeers peerIDs)
    | none =>
      { rm with
        cells := Function.update rm.cells rm.nextCell
          ((PendingBlock.new now x peerIDs fromGossip).addPeers peerIDs)
        nextCell := rm.nextCell + 1
        pendingBlocks := rm.pendingBlocks ++ [rm.nextCell]
        pendingBlocksByHash := Function.update rm.pendingBlocksByHash x (some rm.nextCell) }

def noteHeader (header : BlockHeader) (cell : Nat) : RequestManager :=
  if (rm.cells cell).header.isSome then rm
  else
    (rm.update cell fun pb =>
      { pb with header := some header, status := .toSendBodyReq }).pushHeader cell

def addHeader (cfg : ChainConfig) (now : Int) (d : Store) (header : BlockHeader)
    (peerIDs : List PeerID) : RequestManager :=
  let hash := cfg.hash header
  if (Chain.findBlock d hash).isSome then rm
  else
    let rm :=
      if (rm.pendingBlocksByHash hash).isNone then rm.addHash now d hash peerIDs true else rm
    match rm.pendingBlocksByHash hash with
    | none => rm
    | some cell => (rm.noteHeader header cell).update cell (·.addPeers peerIDs)

def isGossipBlock (hash : Hash) : Bool :=
  match rm.pendingBlocksByHash hash with
  | none => true
  | some cell => (rm.cells cell).fromGossip

def removeHash (hash : Hash) : RequestManager :=
  match rm.pendingBlocksByHash hash with
  | none => rm
  | some cell =>
    { rm with
      pendingBlocks := rm.pendingBlocks.erase cell
      pendingBlocksByHash := Function.update rm.pendingBlocksByHash hash none }

def maxPeerActiveScore : Int := 16

def maxNumPeersToSendRequests : Nat := 4

def leastActive (peers : List (PeerID × Int)) : PeerID × Int :=
  peers.foldl (fun least p => if p.2 ≤ least.2 then p else least) ([], maxPeerActiveScore)

def addActivePeer (order : List (PeerID × Int) → List (PeerID × Int)) (activePeerID : PeerID) :
    RequestManager :=
  if rm.activePeers.any fun p => p.1 = activePeerID then
    { rm with
      activePeers := rm.activePeers.map fun p =>
        if p.1 = activePeerID ∧ p.2 < maxPeerActiveScore then (p.1, maxPeerActiveScore) else p }
  else
    let kept :=
      if maxNumPeersToSendRequests ≤ rm.activePeers.length then
        rm.activePeers.filter fun p => p.1 ≠ (leastActive (order rm.activePeers)).1
      else rm.activePeers
    { rm with activePeers := kept ++ [(activePeerID, maxPeerActiveScore)] }

end RequestManager

end ThetaSubchain
