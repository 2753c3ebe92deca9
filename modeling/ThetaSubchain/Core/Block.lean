/-
Blocks, headers, block status and the transaction root (core/block.go).
-/
import ThetaSubchain.Core.Validator

namespace ThetaSubchain

open Rlp (Item)

structure CommitCertificate where
  /-- The pointer may be nil. -/
  votes : Option VoteSet
  blockHash : Hash
deriving DecidableEq

def CommitCertificate.isValid (verify : Verifier) (ord : MapOrder) (cc : CommitCertificate)
    (validators : ValidatorSet) : Bool :=
  match cc.votes with
  | none => false
  | some votes =>
    if votes.isEmpty then false
    else
      let filtered := votes.uniqueVoter ord
      if filtered.size ≠ votes.size then false
      else if filtered.size > validators.size then false
      else if (filtered.votes ord).any fun v =>
          v.block ≠ cc.blockHash || (v.validate verify).isError then false
      else validators.hasMajority ord filtered

theorem CommitCertificate.isValid_spec {verify : Verifier} {ord : MapOrder}
    {cc : CommitCertificate} {validators : ValidatorSet}
    (h : cc.isValid verify ord validators = true) :
    ∃ votes, cc.votes = some votes ∧ cc.blockHash.isEmpty = false ∧
      Quorum.IsQuorum validators.members validators.stakeOf validators.totalStake
        {i | ∃ v ∈ votes, v.id = i ∧ v.block = cc.blockHash ∧
          (v.validate verify).isError = false} := by
  unfold CommitCertificate.isValid at h
  cases hvotes : cc.votes with
  | none => simp [hvotes] at h
  | some votes =>
    simp only [hvotes] at h
    split at h
    · cases h
    split at h
    · cases h
    split at h
    · cases h
    split at h
    · cases h
    next hne _ _ hall =>
    obtain ⟨hmem, -, hrep⟩ := VoteSet.uniqueVoter_spec ord votes
    have hok : ∀ u, u ∈ votes.uniqueVoter ord →
        u.block = cc.blockHash ∧ (u.validate verify).isError = false := by
      intro u hu
      have := fun hbad => hall (List.any_eq_true.2 ⟨u, VoteSet.mem_votes.2 hu, hbad⟩)
      simpa using this
    refine ⟨votes, rfl, ?_, ?_⟩
    · obtain ⟨v, hv⟩ : ∃ v, v ∈ votes.entries := by
        refine List.exists_mem_of_ne_nil _ fun hnil => hne ?_
        simp [VoteSet.isEmpty, VoteSet.size, hnil]
      obtain ⟨u, hu, -⟩ := hrep v hv
      rw [← (hok u hu).1]
      exact Vote.validate_block (hok u hu).2
    · rw [ValidatorSet.hasMajority_uniqueVoter_iff] at h
      have hset : {i | ∃ v ∈ votes, v.id = i} = {i | ∃ v ∈ votes, v.id = i ∧
          v.block = cc.blockHash ∧ (v.validate verify).isError = false} := by
        ext i
        constructor
        · rintro ⟨v, hv, hi⟩
          obtain ⟨u, hu, huv⟩ := hrep v hv
          exact ⟨u, hmem u hu, huv.trans hi, hok u hu⟩
        · rintro ⟨v, hv, hi, -⟩
          exact ⟨v, hv, hi⟩
      exact hset ▸ h

/-- The essential information of a block.  A Go string is a sequence of bytes.  The
RLP form of a timestamp has no negative value; a nil pointer is `none`. -/
structure BlockHeader where
  chainID : Bytes
  epoch : UInt64
  height : UInt64
  parent : Hash
  hcc : CommitCertificate
  txHash : Hash
  receiptHash : Hash
  bloom : BitVec 2048
  stateHash : Hash
  timestamp : Option Nat
  proposer : Address
  signature : Option Signature
deriving DecidableEq

structure Block where
  header : BlockHeader
  txs : List Bytes
deriving DecidableEq

/-- Block status transitions: a pending block becomes valid or invalid, a valid one
committed, and a committed one or one of its ancestors finalized. -/
inductive BlockStatus where
  | pending
  | valid
  | invalid
  | committed
  | directlyFinalized
  | indirectlyFinalized
  | trusted
  | disposed
deriving DecidableEq, Repr

namespace BlockStatus

variable (s : BlockStatus)

def isPending : Bool := s == pending

def isCommitted : Bool := s == committed

def isFinalized : Bool :=
  s == directlyFinalized || s == indirectlyFinalized || s == trusted

def isDirectlyFinalized : Bool := s == directlyFinalized

def isIndirectlyFinalized : Bool := s == indirectlyFinalized

def isTrusted : Bool := s == trusted

def isInvalid : Bool := s == invalid || s == disposed

def isValid : Bool := s != pending && s != invalid && s != disposed

end BlockStatus

structure ExtendedBlock where
  block : Block
  children : List Hash
  status : BlockStatus
  hasValidatorUpdate : Bool
deriving DecidableEq

abbrev ExtendedBlock.header (eb : ExtendedBlock) : BlockHeader := eb.block.header

structure Proposal where
  block : Option Block
  proposerID : Address
  votes : Option VoteSet
deriving DecidableEq

def Proposal.zero : Proposal := ⟨none, 0, none⟩

variable (keccak : Bytes → Hash) (ord : MapOrder) (h : BlockHeader)

def voteSetItem : Option VoteSet → Item
  | none => .list []
  | some s => .list ((s.votes ord).map Vote.toItem)

def CommitCertificate.toItem (cc : CommitCertificate) : Item :=
  .list [voteSetItem ord cc.votes, cc.blockHash.toItem]

def BlockHeader.toItem : Item :=
  .list [.str h.chainID, .uint h.epoch.toNat, .uint h.height.toNat,
    h.parent.toItem, h.hcc.toItem ord, h.txHash.toItem, h.receiptHash.toItem,
    .fixed 256 h.bloom.toNat, h.stateHash.toItem, .uint (h.timestamp.getD 0),
    h.proposer.toItem, signatureItem h.signature]

theorem BlockHeader.toItem_of_bloom {h : BlockHeader} (hbloom : h.bloom = 0#2048) (ord : MapOrder) :
    h.toItem ord = .list [.str h.chainID, .uint h.epoch.toNat, .uint h.height.toNat,
      h.parent.toItem, h.hcc.toItem ord, h.txHash.toItem, h.receiptHash.toItem,
      .str (List.replicate 256 0), h.stateHash.toItem, .uint (h.timestamp.getD 0),
      h.proposer.toItem, signatureItem h.signature] := by
  rw [BlockHeader.toItem, hbloom, Item.fixed, BitVec.toNat_zero, Rlp.fixedBytes_zero]

def BlockHeader.encode : Bytes := Rlp.encode (h.toItem ord)

def BlockHeader.calculateHash :
    Hash := keccak (h.encode ord)

def BlockHeader.signBytes : Bytes :=
  { h with signature := none }.encode ord

def BlockHeader.validate (verify : Verifier) (ord : MapOrder) (chainID : Bytes)
    (h : BlockHeader) : Result :=
  if chainID ≠ h.chainID then .error "ChainID mismatch"
  else if h.parent.isEmpty then .error "Parent is empty"
  else if h.hcc.blockHash.isEmpty then .error "HCC is empty"
  else if h.timestamp.isNone then .error "Timestamp is missing"
  else if h.proposer.isEmpty then .error "Proposer is not specified"
  else match h.signature with
    | none => .error "Block is not signed"
    | some sig =>
      if sig.isEmpty then .error "Block is not signed"
      else if !verify sig (h.signBytes ord) h.proposer then .error "Signature verification failed"
      else .ok

end ThetaSubchain
