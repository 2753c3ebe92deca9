/-
The hash of a block that was read from the store (core/block.go, core/vote.go).

A header keeps its hash in memory only.  A header that was decoded encodes the votes of its
certificate again: they are sorted by voter, and the votes of one voter stand in the order in which
the map was read.
-/
import ThetaSubchain.Blockchain.Chain
import ThetaSubchain.Core.BlockCodec

namespace ThetaSubchain

open Rlp (Item)

/-- The hash that is computed while the maps are read in the order `ord`, where `digest` is the
hash of the encoding of an item. -/
def headerHash (digest : Item → Hash) (ord : MapOrder) (h : BlockHeader) : Hash :=
  digest (h.toItem ord)

/-- Every function of items is a function of their encodings. -/
theorem exists_keccak (digest : Item → Hash) : ∃ keccak : Bytes → Hash,
    ∀ (h : BlockHeader) (ord : MapOrder), (h.encode ord).length < 2 ^ 64 →
      headerHash digest ord h = h.calculateHash keccak ord := by
  refine ⟨fun bytes => (Rlp.decode bytes).elim 0 digest, fun h ord hlen => ?_⟩
  rw [BlockHeader.calculateHash, BlockHeader.encode, Rlp.decode_encode hlen]
  rfl

variable {digest : Item → Hash}

theorem headerHash_eq {h : BlockHeader} (hd : h.DistinctVoters) (ord ord' : MapOrder) :
    headerHash digest ord' h = headerHash digest ord h :=
  congrArg digest ((BlockHeader.Same.refl h).toItem_eq hd ord ord')

/-- The chain in a call that reads the maps in the order `ord`. -/
def ChainConfig.under (cfg : ChainConfig) (hash : MapOrder → BlockHeader → Hash)
    (ord : MapOrder) : ChainConfig :=
  { cfg with hash := hash ord }

@[simp] theorem ChainConfig.under_hash (cfg : ChainConfig) (hash : MapOrder → BlockHeader → Hash)
    (ord : MapOrder) : (cfg.under hash ord).hash = hash ord := rfl

/-- No certificate of a stored block has two votes of one voter. -/
def Store.DistinctVoters (d : Store) : Prop :=
  ∀ h eb, d.block h = some eb → eb.header.DistinctVoters

def itemAt (i : Nat) : Item → Item
  | .list xs => xs.getD i (.str [])
  | .str b => .str b

def itemNat : Item → Nat
  | .list _ => 0
  | .str b => Rlp.toNat b

/-- An odd digest of the height, the timestamp and the epoch of the first vote. -/
def firstVoteDigest (header : Item) : Hash :=
  BitVec.ofNat 256 (2 * (itemNat (itemAt 2 header) * 2 ^ 64 + itemNat (itemAt 9 header) +
    itemNat (itemAt 3 (itemAt 0 (itemAt 0 (itemAt 4 header)))) * 2 ^ 128) + 1)

theorem firstVoteDigest_nonzero (header : Item) : (firstVoteDigest header).isEmpty = false := by
  refine beq_eq_false_iff_ne.mpr fun hzero => ?_
  have hnat := congrArg BitVec.toNat hzero
  rw [firstVoteDigest, BitVec.toNat_ofNat] at hnat
  change _ = 0 at hnat
  omega

end ThetaSubchain
