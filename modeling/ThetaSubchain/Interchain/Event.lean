/-
Inter-chain message events and their encoding (core/inter_chain_message_event.go).

A `*big.Int` is an optional integer, where `none` is the nil pointer.  RLP writes a nil
integer as zero, so an event that is read back has no nil integers.
-/
import ThetaSubchain.Core.Types
import ThetaSubchain.Lib.Decimal

namespace ThetaSubchain

open Rlp (Item)

abbrev BigInt := Option Int

namespace BigInt

def string : BigInt → Bytes
  | none => [60, 110, 105, 108, 62]
  | some n => Decimal.ofInt n

def digitValue (b : UInt8) : Nat :=
  if 48 ≤ b ∧ b ≤ 57 then b.toNat - 48
  else if 97 ≤ b ∧ b ≤ 122 then b.toNat - 87
  else if 65 ≤ b ∧ b ≤ 90 then b.toNat - 55
  else 36

def scan (base : Nat) : Bytes → Option Nat
  | [] => none
  | ds =>
    ds.foldlM (fun n b => if digitValue b < base then some (n * base + digitValue b) else none) 0

def setString (base : Nat) : Bytes → BigInt
  | 45 :: ds => (scan base ds).map fun n => -(n : Int)
  | 43 :: ds => (scan base ds).map Int.ofNat
  | ds => (scan base ds).map Int.ofNat

def encodeRLP : BigInt → Except String Item
  | none => .ok (.uint 0)
  | some (.ofNat n) => .ok (.uint n)
  | some (.negSucc _) => .error "rlp: cannot encode negative *big.Int"

def decodeRLP : Item → Except String BigInt
  | .str b =>
    match Rlp.decodeUint b with
    | some n => .ok (some n)
    | none => .error "rlp: non-canonical integer (leading zero bytes)"
  | .list _ => .error "rlp: expected input string or byte"

def readBack (n : BigInt) : BigInt := some (n.getD 0)

theorem decodeRLP_encodeRLP {n : BigInt} {item : Item} (h : n.encodeRLP = .ok item) :
    decodeRLP item = .ok n.readBack := by
  match n, h with
  | none, h =>
    cases h
    simp [decodeRLP, Item.uint, readBack]
  | some (.ofNat n), h =>
    cases h
    simp [decodeRLP, Item.uint, readBack]

theorem slash_notMem_string (n : BigInt) : (47 : UInt8) ∉ n.string := by
  cases n with
  | none => decide
  | some n =>
    intro h
    rcases Decimal.mem_ofInt h with h | h <;> revert h <;> decide

theorem string_injective : Function.Injective string := by
  -- the first byte of the nil string is neither a digit nor a minus sign
  have hnil : ∀ n : Int, string none ≠ string (some n) := by
    intro n h
    have hmem : (60 : UInt8) ∈ Decimal.ofInt n := by
      rw [← show string none = Decimal.ofInt n from h]
      exact .head _
    rcases Decimal.mem_ofInt hmem with h | h <;> revert h <;> decide
  intro m n h
  match m, n, h with
  | none, none, _ => rfl
  | none, some n, h => exact absurd h (hnil n)
  | some m, none, h => exact absurd h.symm (hnil m)
  | some m, some n, h => exact congrArg some (Decimal.ofInt_injective h)

end BigInt

inductive ChainSide where
  | mainchain
  | subchain
deriving DecidableEq

abbrev InterChainMessageEventType := UInt64

namespace InterChainMessageEventType

def crossChainTokenLockTFuel : InterChainMessageEventType := 10001

def crossChainTokenLockTNT20 : InterChainMessageEventType := 10002

def crossChainTokenLockTNT721 : InterChainMessageEventType := 10003

def crossChainTokenLockTNT1155 : InterChainMessageEventType := 10004

def crossChainVoucherMintTFuel : InterChainMessageEventType := 20001

def crossChainVoucherMintTNT20 : InterChainMessageEventType := 20002

def crossChainVoucherMintTNT721 : InterChainMessageEventType := 20003

def crossChainVoucherMintTNT1155 : InterChainMessageEventType := 20004

def crossChainTokenUnlockTFuel : InterChainMessageEventType := 30001

def crossChainTokenUnlockTNT20 : InterChainMessageEventType := 30002

def crossChainTokenUnlockTNT721 : InterChainMessageEventType := 30003

def crossChainTokenUnlockTNT1155 : InterChainMessageEventType := 30004

def crossChainVoucherBurnTFuel : InterChainMessageEventType := 40001

def crossChainVoucherBurnTNT20 : InterChainMessageEventType := 40002

def crossChainVoucherBurnTNT721 : InterChainMessageEventType := 40003

def crossChainVoucherBurnTNT1155 : InterChainMessageEventType := 40004

def isLockOrBurn (t : InterChainMessageEventType) : Bool :=
  t ∈ [crossChainTokenLockTFuel, crossChainTokenLockTNT20, crossChainTokenLockTNT721,
    crossChainTokenLockTNT1155, crossChainVoucherBurnTFuel, crossChainVoucherBurnTNT20,
    crossChainVoucherBurnTNT721, crossChainVoucherBurnTNT1155]

end InterChainMessageEventType

structure InterChainMessageEvent where
  type : InterChainMessageEventType
  sourceChainID : BigInt
  targetChainID : BigInt
  sender : Address
  receiver : Address
  data : Bytes
  nonce : BigInt
  blockHeight : BigInt
deriving DecidableEq, Repr

def Address.decodeRLP : Item → Except String Address
  | .str b =>
    if b.length < 20 then .error "rlp: input string too short for common.Address"
    else if 20 < b.length then .error "rlp: input string too long for common.Address"
    else .ok (BitVec.ofNat 160 (Rlp.toNat b))
  | .list _ => .error "rlp: expected input string or byte for common.Address"

theorem Address.decodeRLP_toItem (a : Address) : Address.decodeRLP a.toItem = .ok a := by
  have hlt : a.toNat < 256 ^ 20 := by
    have := a.isLt
    norm_num at this ⊢
    exact this
  simp [Address.decodeRLP, Address.toItem, Item.fixed, Rlp.toNat_fixedBytes hlt]

namespace InterChainMessageEvent

def encodeRLP (c : InterChainMessageEvent) : Except String Item := do
  let sourceChainID ← c.sourceChainID.encodeRLP
  let targetChainID ← c.targetChainID.encodeRLP
  let nonce ← c.nonce.encodeRLP
  let blockHeight ← c.blockHeight.encodeRLP
  return .list [.uint c.type.toNat, sourceChainID, targetChainID, c.sender.toItem,
    c.receiver.toItem, .str c.data, nonce, blockHeight]

def decodeType : Item → Except String InterChainMessageEventType
  | .str b =>
    match Rlp.decodeUint b with
    | some n =>
      if n < 2 ^ 64 then .ok (UInt64.ofNat n) else .error "rlp: input string too long for uint64"
    | none => .error "rlp: non-canonical integer (leading zero bytes)"
  | .list _ => .error "rlp: expected input string or byte for uint64"

def decodeData : Item → Except String Bytes
  | .str b => .ok b
  | .list _ => .error "rlp: expected input string or byte for common.Bytes"

def decodeRLP : Item → Except String InterChainMessageEvent
  | .list [type, source, target, sender, receiver, data, nonce, height] => do
    return {
      type := ← decodeType type
      sourceChainID := ← BigInt.decodeRLP source
      targetChainID := ← BigInt.decodeRLP target
      sender := ← Address.decodeRLP sender
      receiver := ← Address.decodeRLP receiver
      data := ← decodeData data
      nonce := ← BigInt.decodeRLP nonce
      blockHeight := ← BigInt.decodeRLP height }
  | _ => .error "rlp: unexpected list"

def readBack (c : InterChainMessageEvent) : InterChainMessageEvent :=
  { c with
    sourceChainID := c.sourceChainID.readBack
    targetChainID := c.targetChainID.readBack
    nonce := c.nonce.readBack
    blockHeight := c.blockHeight.readBack }

theorem decodeType_uint (t : InterChainMessageEventType) : decodeType (.uint t.toNat) = .ok t := by
  have hlt : t.toNat < 2 ^ 64 := t.toNat_lt
  simp only [decodeType, Item.uint, Rlp.decodeUint_beBytes, if_pos hlt, UInt64.ofNat_toNat]

theorem decodeRLP_encodeRLP {c : InterChainMessageEvent} {item : Item}
    (h : c.encodeRLP = .ok item) : decodeRLP item = .ok c.readBack := by
  unfold encodeRLP at h
  cases hs : c.sourceChainID.encodeRLP with
  | error m => rw [hs] at h; cases h
  | ok source =>
  cases ht : c.targetChainID.encodeRLP with
  | error m => rw [hs, ht] at h; cases h
  | ok target =>
  cases hn : c.nonce.encodeRLP with
  | error m => rw [hs, ht, hn] at h; cases h
  | ok nonce =>
  cases hb : c.blockHeight.encodeRLP with
  | error m => rw [hs, ht, hn, hb] at h; cases h
  | ok height =>
    rw [hs, ht, hn, hb] at h
    cases h
    simp only [decodeRLP, decodeType_uint, BigInt.decodeRLP_encodeRLP hs,
      BigInt.decodeRLP_encodeRLP ht, BigInt.decodeRLP_encodeRLP hn, BigInt.decodeRLP_encodeRLP hb,
      Address.decodeRLP_toItem, decodeData]
    rfl

end InterChainMessageEvent

end ThetaSubchain
