/-
The mempool and its bookkeeper (mempool/mempool.go, mempool/tx_bookkeeper.go).

Groups are shared between the queue and the map from addresses, so they are kept in a table and the
two hold their numbers.  A panic is `none`.  Every reading of the clock has its own value.
-/
import ThetaSubchain.Core.Types
import ThetaSubchain.Lib.IndexedHeap

namespace ThetaSubchain

/-! ## The bookkeeper -/

inductive TxStatus where
  | pending
  | abandoned
deriving DecidableEq, Repr

structure TxRecord where
  hash : Hash
  createdAt : Int
deriving DecidableEq, Repr

def maxTxLife : Int := 60 * 10 ^ 9

def TxRecord.isOutdated (r : TxRecord) (now : Int) : Bool := decide (maxTxLife < now - r.createdAt)

def defaultMaxNumTxs : Nat := 200000

structure TransactionBookkeeper where
  txMap : Hash → Option TxStatus
  txList : List TxRecord
  maxNumTxs : Nat

namespace TransactionBookkeeper

def create (maxNumTxs : Nat) : TransactionBookkeeper := ⟨fun _ => none, [], maxNumTxs⟩

def reset (tb : TransactionBookkeeper) : TransactionBookkeeper :=
  { tb with txMap := fun _ => none, txList := [] }

def dropOutdated (now : Int) :
    List TxRecord → (Hash → Option TxStatus) → List TxRecord × (Hash → Option TxStatus)
  | [], txMap => ([], txMap)
  | r :: rs, txMap =>
    if r.isOutdated now then dropOutdated now rs (Function.update txMap r.hash none)
    else (r :: rs, txMap)

def removeOutdatedTxsUnsafe (now : Int) (tb : TransactionBookkeeper) : TransactionBookkeeper :=
  let (txList, txMap) := dropOutdated now tb.txList tb.txMap
  { tb with txMap := txMap, txList := txList }

def hasSeen (now : Int) (hash : Hash) (tb : TransactionBookkeeper) : Bool × TransactionBookkeeper :=
  let tb := tb.removeOutdatedTxsUnsafe now
  ((tb.txMap hash).isSome, tb)

def getStatus (now : Int) (hash : Hash) (tb : TransactionBookkeeper) :
    (TxStatus × Bool) × TransactionBookkeeper :=
  let tb := tb.removeOutdatedTxsUnsafe now
  match tb.txMap hash with
  | none => ((.abandoned, false), tb)
  | some status => ((status, true), tb)

theorem getStatus_eq (now : Int) (hash : Hash) (tb : TransactionBookkeeper) :
    ∃ status, tb.getStatus now hash = ((status, (tb.hasSeen now hash).1), (tb.hasSeen now hash).2) := by
  unfold getStatus hasSeen
  dsimp only
  split
  · next hnone => exact ⟨_, by rw [hnone]; rfl⟩
  · next status hsome => exact ⟨status, by rw [hsome]; rfl⟩

def record (now createdAt : Int) (hash : Hash) (tb : TransactionBookkeeper) :
    Bool × TransactionBookkeeper :=
  let tb := tb.removeOutdatedTxsUnsafe now
  if (tb.txMap hash).isSome then (false, tb)
  else
    -- remove the oldest transactions
    let tb :=
      if tb.maxNumTxs ≤ tb.txList.length then
        match tb.txList with
        | [] => tb
        | popped :: rest =>
          { tb with txMap := Function.update tb.txMap popped.hash none, txList := rest }
      else tb
    (true, { tb with txMap := Function.update tb.txMap hash (some .pending)
                     txList := tb.txList ++ [⟨hash, createdAt⟩] })

def markAbandoned (hash : Hash) (tb : TransactionBookkeeper) : TransactionBookkeeper :=
  match tb.txMap hash with
  | none => tb
  | some _ => { tb with txMap := Function.update tb.txMap hash (some .abandoned) }

end TransactionBookkeeper

/-! ## The pool -/

structure TxInfo where
  effectiveGasPrice : Int
  address : Address
  sequence : UInt64
deriving DecidableEq, Repr

structure MempoolTransaction where
  rawTransaction : Bytes
  txInfo : TxInfo
deriving DecidableEq, Repr

def MempoolTransaction.priority (mt : MempoolTransaction) : Int := -(mt.txInfo.sequence.toNat : Int)

structure MempoolTransactionGroup where
  address : Address
  txs : List MempoolTransaction

def MempoolTransactionGroup.priority (mtg : MempoolTransactionGroup) : Int :=
  match mtg.txs with
  | [] => -1
  | mt :: _ => mt.txInfo.effectiveGasPrice

structure Mempool where
  groups : Nat → MempoolTransactionGroup
  nextGroup : Nat
  candidateTxs : List Nat
  txBookkeeper : TransactionBookkeeper
  addressToTxGroup : Address → Option Nat
  size : Int

structure MempoolConfig where
  heap : IndexedHeap
  keccak256Hash : Bytes → Hash

namespace Mempool

def create : Mempool where
  groups := fun _ => ⟨0, []⟩
  nextGroup := 0
  candidateTxs := []
  txBookkeeper := .create defaultMaxNumTxs
  addressToTxGroup := fun _ => none
  size := 0

variable (cfg : MempoolConfig) (mp : Mempool)

variable (g : Nat) (mt : MempoolTransaction) (clock : Nat → Int)

def groupPriority : Int := (mp.groups g).priority

def setTxs (txs : List MempoolTransaction) : Mempool :=
  { mp with groups := Function.update mp.groups g { mp.groups g with txs := txs } }

def pushGroup : Mempool :=
  { mp with candidateTxs := cfg.heap.push mp.groupPriority g mp.candidateTxs }

def removeGroup : Option Mempool :=
  if g ∈ mp.candidateTxs then
    some { mp with candidateTxs :=
      cfg.heap.remove mp.groupPriority (mp.candidateTxs.idxOf g) mp.candidateTxs }
  else none

def addTx : Mempool :=
  mp.setTxs g (cfg.heap.push MempoolTransaction.priority mt (mp.groups g).txs)

def createMempoolTransactionGroup : MempoolTransactionGroup :=
  ⟨mt.txInfo.address, cfg.heap.push MempoolTransaction.priority mt []⟩

def insertTx : Option Mempool := do
  let mp ← match mp.addressToTxGroup mt.txInfo.address with
    | some g => do
      -- Need to re-insert txGroup into queue since its priority could change.
      let mp ← (mp.addTx cfg g mt).removeGroup cfg g
      pure (mp.pushGroup cfg g)
    | none =>
      let g := mp.nextGroup
      let mp := { mp with
        groups := Function.update mp.groups g (createMempoolTransactionGroup cfg mt)
        nextGroup := g + 1
        addressToTxGroup := Function.update mp.addressToTxGroup mt.txInfo.address (some g) }
      pure (mp.pushGroup cfg g)
  pure { mp with size := mp.size + 1 }

def insertTransaction (hasSynced : Bool) (screenTx : Bytes → Except String TxInfo) (rawTx : Bytes) :
    Option (Except String Unit × Mempool) :=
  let hash := cfg.keccak256Hash rawTx
  let (seen, tb) := mp.txBookkeeper.hasSeen (clock 0) hash
  let mp := { mp with txBookkeeper := tb }
  if seen then some (.error "Transaction already seen", mp)
  else if hasSynced then
    match screenTx rawTx with
    | .error message => some (.error message, mp)
    | .ok txInfo =>
      let tb := (mp.txBookkeeper.record (clock 1) (clock 2) hash).2
      ({ mp with txBookkeeper := tb }.insertTx cfg ⟨rawTx, txInfo⟩).map fun mp => (.ok (), mp)
  else some (.error "Skip tx during fastsync", mp)

def takeTop (left : List MempoolTransaction) : Mempool :=
  let popped := { mp with candidateTxs := cfg.heap.pop mp.groupPriority mp.candidateTxs }
  let popped := popped.setTxs g left
  if left.isEmpty then
    { popped with
      addressToTxGroup := Function.update mp.addressToTxGroup (mp.groups g).address none }
  else popped.pushGroup cfg g

def reapLoop (clock : Nat → Int) :
    Nat → Nat → List Bytes → Mempool → Option (List Bytes × Mempool)
  | 0, _, txs, mp => some (txs, mp)
  | n + 1, i, txs, mp =>
    match mp.candidateTxs with
    | [] => some (txs, mp)
    | g :: _ =>
      match (mp.groups g).txs with
      | [] => none
      | mt :: _ =>
        let left := cfg.heap.pop MempoolTransaction.priority (mp.groups g).txs
        -- Check for outdated txs
        let ((_, found), tb) :=
          mp.txBookkeeper.getStatus (clock i) (cfg.keccak256Hash mt.rawTransaction)
        let txs := if found then txs ++ [mt.rawTransaction] else txs
        reapLoop clock n (i + 1) txs { mp.takeTop cfg g left with txBookkeeper := tb }

def reapBound (maxNumTxs : Int) : Int :=
  if maxNumTxs = 0 then 0
  else if maxNumTxs < 0 then mp.size
  else min mp.size maxNumTxs

def reapUnsafe (maxNumTxs : Int) : Option (List Bytes × Mempool) :=
  (reapLoop cfg clock (mp.reapBound maxNumTxs).toNat 0 [] mp).map fun (txs, mp) =>
    (txs, { mp with size := mp.size - txs.length })

def removeTxsOfGroup (committed : Bytes → Bool) (txs : List MempoolTransaction) :
    List MempoolTransaction × Nat :=
  let elemsTobeRemoved := txs.filter fun mt => committed mt.rawTransaction
  (cfg.heap.removeEach MempoolTransaction.priority elemsTobeRemoved txs, elemsTobeRemoved.length)

def removeFromGroup (committed : Bytes → Bool) (s : Mempool × List Nat) (g : Nat) :
    Mempool × List Nat :=
  let (mp, elemsTobeRemoved) := s
  let group := mp.groups g
  let (left, numRemoved) := removeTxsOfGroup cfg committed group.txs
  let mp := { mp.setTxs g left with size := mp.size - numRemoved }
  if left.isEmpty then
    ({ mp with addressToTxGroup := Function.update mp.addressToTxGroup group.address none },
      elemsTobeRemoved ++ [g])
  else (mp, elemsTobeRemoved)

def removeTxs (committedRawTxs : List Bytes) : Mempool :=
  let (mp, elemsTobeRemoved) := mp.candidateTxs.foldl
    (removeFromGroup cfg fun raw => committedRawTxs.contains raw) (mp, [])
  { mp with candidateTxs :=
    cfg.heap.removeEach mp.groupPriority elemsTobeRemoved mp.candidateTxs }

def queued : List MempoolTransaction := mp.candidateTxs.flatMap fun g => (mp.groups g).txs

def screenQueued (screened : Nat → Bool)
    (s : TransactionBookkeeper × List Bytes) (mt : MempoolTransaction × Nat) :
    TransactionBookkeeper × List Bytes :=
  let (tb, invalidTxs) := s
  let hash := cfg.keccak256Hash mt.1.rawTransaction
  let ((_, found), tb) := tb.getStatus (clock mt.2) hash
  if !found then (tb, invalidTxs ++ [mt.1.rawTransaction])
  else if !screened mt.2 then (tb.markAbandoned hash, invalidTxs ++ [mt.1.rawTransaction])
  else (tb, invalidTxs)

def updateUnsafe (screened : Nat → Bool) (committedRawTxs : List Bytes) : Mempool :=
  let mp := mp.removeTxs cfg committedRawTxs
  let (tb, invalidTxs) :=
    mp.queued.zipIdx.foldl (screenQueued cfg clock screened) (mp.txBookkeeper, [])
  { mp with txBookkeeper := tb }.removeTxs cfg invalidTxs

def flush : Mempool :=
  { mp with txBookkeeper := mp.txBookkeeper.reset, candidateTxs := [], size := 0 }

end Mempool

end ThetaSubchain
