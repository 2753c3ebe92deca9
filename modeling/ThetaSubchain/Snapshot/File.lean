/-
Snapshot files, the database they are loaded into, and state views over it (core/snapshot.go,
ledger/state/storeview.go).

The database is the raw key-value store, and nothing keeps a record from being written under any
key.  The trie library and the encodings of what is stored are parameters.
-/
import ThetaSubchain.Consensus.ValidatorSelection
import ThetaSubchain.Core.BlockCodec
import ThetaSubchain.Lib.Decimal
import ThetaSubchain.Lib.NodeStore

namespace ThetaSubchain

open Rlp (Item)
open Ending (NilPointer deref)

structure SnapshotTrieRecord where
  k : Bytes
  v : Bytes
deriving DecidableEq

abbrev ValidatorSetProof := List (Bytes × Bytes)

structure SnapshotFirstBlock where
  header : BlockHeader
  proof : ValidatorSetProof
deriving DecidableEq

structure SnapshotSecondBlock where
  header : BlockHeader
deriving DecidableEq

structure SnapshotThirdBlock where
  header : BlockHeader
  voteSet : VoteSet
deriving DecidableEq

structure SnapshotBlockTrio where
  first : SnapshotFirstBlock
  second : SnapshotSecondBlock
  third : SnapshotThirdBlock
deriving DecidableEq

structure SnapshotMetadata where
  proofTrios : List SnapshotBlockTrio
  tailTrio : SnapshotBlockTrio
deriving DecidableEq

structure LastCheckpoint where
  checkpointHeader : BlockHeader
  intermediateHeaders : List BlockHeader
deriving DecidableEq

/-- A file without a header record has version 1 and no checkpoint record. -/
structure SnapshotFile where
  version : Nat
  lastCheckpoint : LastCheckpoint
  metadata : SnapshotMetadata
  records : List SnapshotTrieRecord
deriving DecidableEq

inductive Refusal where
  | error (message : String)
  | panicked (message : String)
deriving DecidableEq, Repr

def Refusal.wrap (message : String) : Refusal → Refusal
  | .error _ => .error message
  | .panicked m => .panicked m

def genesisBlockHeight : UInt64 := 0

def mainnetChainID : Bytes := "mainnet".toUTF8.toList

def mainnetGenesisBlockHash : Hash :=
  0xd8836c6cf3c3ccea0b015b4ed0f9efb0ffe6254db793a515843c9d0f68cbab65

abbrev Database := Bytes → Option Bytes

@[irreducible] def Hash.bytes (h : Hash) : Bytes := Rlp.fixedBytes 32 h.toNat

theorem Hash.bytes_injective : Function.Injective Hash.bytes := by
  intro a b h
  rw [Hash.bytes, Hash.bytes] at h
  exact Hash.toItem_injective (congrArg Item.str h)

structure SnapshotConfig where
  hash : BlockHeader → Hash
  verify : Verifier
  ord : MapOrder
  genesisHash : Hash
  trie : NodeStore.Format Hash Bytes UInt8 Bytes
  emptyRoot : Hash
  verifyProof : Hash → Bytes → ValidatorSetProof → Option Bytes
  trieRoot : TrieContent → Hash
  trieNodes : TrieContent → List Bytes
  accountRoot : Bytes → Option Hash
  encodeBlock : ExtendedBlock → Bytes
  decodeBlock : Bytes → Option ExtendedBlock
  encodeTrio : SnapshotBlockTrio → Bytes
  decodeTrio : Bytes → Option SnapshotBlockTrio
  checkpointInterval : Nat

namespace Database

def empty : Database := fun _ => none

variable (db : Database)

def put (k v : Bytes) : Database := Function.update db k (some v)

def nodes : NodeStore.Store Hash Bytes := fun h => db h.bytes

theorem nodes_put_self (h : Hash) (e : Bytes) : (db.put h.bytes e).nodes h = some e := by
  rw [nodes, put, Function.update_self]

theorem nodes_put_of_ne {h h' : Hash} (hne : h' ≠ h) (e : Bytes) :
    (db.put h.bytes e).nodes h' = db.nodes h' := by
  have hbytes : h'.bytes ≠ h.bytes := fun hb => hne (Hash.bytes_injective hb)
  rw [nodes, put, Function.update_of_ne hbytes, nodes]

variable (cfg : SnapshotConfig)

variable (db : Database)

def getBlock (h : Hash) : Option ExtendedBlock := (db h.bytes).bind cfg.decodeBlock

def putBlock (eb : ExtendedBlock) : Database :=
  db.put (cfg.hash eb.header).bytes (cfg.encodeBlock eb)

def putNewBlock (eb : ExtendedBlock) : Database :=
  if (db.getBlock cfg (cfg.hash eb.header)).isSome then db else db.putBlock cfg eb

def trioKey (height : UInt64) : Bytes := "prooftrio_".toUTF8.toList ++ Decimal.ofNat height.toNat

def getTrio (height : UInt64) : Option SnapshotBlockTrio :=
  (db (trioKey height)).bind cfg.decodeTrio

def putTrio (trio : SnapshotBlockTrio) : Database :=
  db.put (trioKey trio.first.header.height) (cfg.encodeTrio trio)

end Database

def Validator.ofItem : Item → Option Validator
  | .list [address, stake] => do return ⟨← Address.ofItem address, ← bigIntOfItem stake⟩
  | _ => none

def Validator.toItem (v : Validator) : Item := .list [v.address.toItem, .uint v.stake.toNat]

def ValidatorSet.toItem (vs : ValidatorSet) : Item :=
  .list [.uint vs.dynasty.toNat, .list (vs.validators.map Validator.toItem)]

def ValidatorSet.ofItem : Item → Option ValidatorSet
  | .list [dynasty, validators] => do
    return ⟨← bigIntOfItem dynasty, ← listOfItem Validator.ofItem validators⟩
  | _ => none

def decodeValidatorSet (data : Bytes) : Option ValidatorSet :=
  (Rlp.decode data).bind ValidatorSet.ofItem

def decodeHeightList (data : Bytes) : Option (List UInt64) :=
  match Rlp.decode data with
  | some (.list [heights]) => listOfItem uint64OfItem heights
  | _ => none

def currentValidatorSetKey : Bytes := "ls/vs".toUTF8.toList

def validatorSetUpdateTxHeightListKey : Bytes := "ls/sthl".toUTF8.toList

def accountKeyStart : Bytes := "ls/a".toUTF8.toList

def keybytesToHex (key : Bytes) : List UInt8 := key.flatMap (fun b => [b / 16, b % 16]) ++ [16]

structure StateView where
  height : UInt64
  root : Hash
  get : Bytes → Option Bytes

/-- `NewStoreView`; a root whose node is not in the database gives no view.  The root of
the view is the one it is opened with. -/
def newStoreView (cfg : SnapshotConfig) (db : Database) (height : UInt64) (root : Hash) :
    Option StateView :=
  if root.isEmpty || root == cfg.emptyRoot then some ⟨height, cfg.emptyRoot, fun _ => none⟩
  else match db.nodes root with
    | none => none
    | some _ => some ⟨height, root, fun k => cfg.trie.read db.nodes root (keybytesToHex k)⟩

namespace StateView

/-- A value that cannot be decoded is a panic. -/
def getDecoded {α : Type} (decode : Bytes → Option α) (message : String) (sv : StateView)
    (key : Bytes) : Except Refusal (Option α) :=
  match sv.get key with
  | none => .ok none
  | some [] => .ok none
  | some data =>
    match decode data with
    | some x => .ok (some x)
    | none => .error (.panicked message)

def getValidatorSet (sv : StateView) : Except Refusal (Option ValidatorSet) :=
  sv.getDecoded decodeValidatorSet "Error reading validator set %X, error: %v"
    currentValidatorSetKey

def getValidatorSetUpdateTxHeightList (sv : StateView) : Except Refusal (Option (List UInt64)) :=
  sv.getDecoded decodeHeightList "Error reading height list %X, error: %v"
    validatorSetUpdateTxHeightListKey

end StateView

namespace Snapshot

instance : NilPointer Refusal :=
  ⟨.panicked "invalid memory address or nil pointer dereference"⟩

def getValidatorSetFromSV (sv : StateView) : Except Refusal ValidatorSet := do
  let vs ← deref (← sv.getValidatorSet)
  return ValidatorSelection.filterValidators vs

end Snapshot

end ThetaSubchain
