/-
Transactions as bytes (ledger/types/tx.go, `TxToBytes` and `TxFromBytes`).

The bytes of a transaction are its type and the structure of its fields.  `TxFromBytes` does not
look at what follows them.
-/
import ThetaSubchain.Core.BlockCodec
import ThetaSubchain.Ledger.Returns
import ThetaSubchain.Lib.RlpCodec

namespace ThetaSubchain

open Rlp (Item Codec Fields)
open Rlp List

variable {x : Item}

theorem fixedOfItem_eq_some {k w : Nat} (hw : w = 8 * k) {v : BitVec w}
    (h : fixedOfItem k w x = some v) : x = .fixed k v.toNat := by
  cases x with
  | list xs => cases h
  | str b =>
    rw [fixedOfItem] at h
    split at h
    next hlen =>
      cases h
      have hlt : toNat b < 2 ^ w := by
        have hpow : 2 ^ w = 256 ^ k := by
          rw [hw, pow_mul]
          norm_num
        rw [hpow, ← hlen]
        exact toNat_lt b
      rw [Item.fixed, BitVec.toNat_ofNat, Nat.mod_eq_of_lt hlt, ← hlen, fixedBytes_toNat]
    · cases h

theorem uintOfItem_eq_some {k n : Nat} (h : uintOfItem k x = some n) :
    x = .uint n ∧ n < 256 ^ k := by
  cases x with
  | list xs => cases h
  | str b =>
    rw [uintOfItem] at h
    split at h
    next hlen =>
      have hb := beBytes_of_decodeUint h
      refine ⟨by rw [Item.uint, hb], ?_⟩
      have hn : n = toNat b := by rw [← hb, toNat_beBytes]
      rw [hn]
      exact (toNat_lt b).trans_le (Nat.pow_le_pow_right (by norm_num) hlen)
    · cases h

theorem uint64OfItem_eq_some {n : UInt64} (h : uint64OfItem x = some n) : x = .uint n.toNat := by
  obtain ⟨m, hm, rfl⟩ := Option.map_eq_some_iff.1 h
  obtain ⟨rfl, hlt⟩ := uintOfItem_eq_some hm
  rw [UInt64.toNat_ofNat', Nat.mod_eq_of_lt (by omega)]

theorem byteOfItem_eq_some {n : UInt8} (h : byteOfItem x = some n) : x = .uint n.toNat := by
  obtain ⟨m, hm, rfl⟩ := Option.map_eq_some_iff.1 h
  obtain ⟨rfl, hlt⟩ := uintOfItem_eq_some hm
  rw [UInt8.toNat_ofNat', Nat.mod_eq_of_lt (by omega)]

theorem bigIntOfItem_eq_some {n : Nat} (h : bigIntOfItem x = some n) : x = .uint n := by
  cases x with
  | list xs => cases h
  | str b => rw [Item.uint, beBytes_of_decodeUint h]

theorem bytesOfItem_eq_some {b : Bytes} (h : bytesOfItem x = some b) : x = .str b := by
  cases x with
  | list xs => cases h
  | str b' =>
    cases h
    rfl

def addressCodec : Codec Address where
  toItem a := some a.toItem
  ofItem := Address.ofItem
  Readable _ := True
  written h := by rw [Address.toItem, ← fixedOfItem_eq_some (by norm_num) h]
  readable _ := trivial
  read {a} _ := ⟨a.toItem, rfl, Address.ofItem_toItem a⟩

def uint64Codec : Codec UInt64 where
  toItem n := some (.uint n.toNat)
  ofItem := uint64OfItem
  Readable _ := True
  written h := by rw [← uint64OfItem_eq_some h]
  readable _ := trivial
  read {n} _ := ⟨_, rfl, uint64OfItem_uint n⟩

def bytesCodec : Codec Bytes where
  toItem b := some (.str b)
  ofItem := bytesOfItem
  Readable _ := True
  written h := by rw [← bytesOfItem_eq_some h]
  readable _ := trivial
  read {b} _ := ⟨.str b, rfl, rfl⟩

def bigIntCodec : Codec Int where
  toItem i := if i < 0 then none else some (.uint i.toNat)
  ofItem x := (bigIntOfItem x).map Int.ofNat
  Readable i := 0 ≤ i
  written {x i} h := by
    obtain ⟨n, hn, rfl⟩ := Option.map_eq_some_iff.1 h
    have hnonneg : ¬Int.ofNat n < 0 := Int.not_lt.2 (Int.natCast_nonneg n)
    rw [if_neg hnonneg, bigIntOfItem_eq_some hn]
    rfl
  readable {x i} h := by
    obtain ⟨n, hn, rfl⟩ := Option.map_eq_some_iff.1 h
    exact Int.natCast_nonneg n
  read {i} h := by
    refine ⟨.uint i.toNat, if_neg (by omega), ?_⟩
    rw [bigIntOfItem_uint, Option.map_some, Int.ofNat_eq_natCast, Int.toNat_of_nonneg h]

def bigIntPtrCodec : Codec (Option Int) where
  toItem i := bigIntCodec.toItem (i.getD 0)
  ofItem x := (bigIntCodec.ofItem x).map some
  Readable i := ∃ n, i = some n ∧ 0 ≤ n
  written {x i} h := by
    obtain ⟨n, hn, rfl⟩ := Option.map_eq_some_iff.1 h
    exact bigIntCodec.written hn
  readable {x i} h := by
    obtain ⟨n, hn, rfl⟩ := Option.map_eq_some_iff.1 h
    exact ⟨n, rfl, bigIntCodec.readable hn⟩
  read {i} h := by
    obtain ⟨n, rfl, hn⟩ := h
    obtain ⟨x, hx, hread⟩ := bigIntCodec.read hn
    exact ⟨x, hx, by rw [hread]; rfl⟩

def signatureCodec : Codec (Option Signature) where
  toItem sig := some (signatureItem sig)
  ofItem := signatureOfItem
  Readable sig := sig.isSome
  written {x sig} h := by
    obtain ⟨b, hb, rfl⟩ := Option.map_eq_some_iff.1 h
    rw [bytesOfItem_eq_some hb]
    rfl
  readable h := isSome_of_signatureOfItem h
  read {sig} h := by
    obtain ⟨b, rfl⟩ := Option.isSome_iff_exists.1 h
    exact ⟨_, rfl, rfl⟩

def coinsCodec : Codec Coins :=
  .struct (.cons bigIntPtrCodec (.cons bigIntPtrCodec .nil)) (fun (theta, tfuel, ()) => ⟨theta, tfuel⟩)
    (fun c => (c.thetaWei, c.tfuelWei, ())) (fun _ => rfl) (fun _ => rfl)

def txInputCodec : Codec TxInput :=
  .struct (.cons addressCodec (.cons coinsCodec (.cons uint64Codec (.cons signatureCodec .nil))))
    (fun (address, coins, sequence, signature, ()) => ⟨address, coins, sequence, signature⟩)
    (fun i => (i.address, i.coins, i.sequence, i.signature, ())) (fun _ => rfl) (fun _ => rfl)

def txOutputCodec : Codec TxOutput :=
  .struct (.cons addressCodec (.cons coinsCodec .nil)) (fun (address, coins, ()) => ⟨address, coins⟩)
    (fun o => (o.address, o.coins, ())) (fun _ => rfl) (fun _ => rfl)

def coinbaseTxCodec : Codec CoinbaseTx :=
  .struct (.cons txInputCodec (.cons (.list txOutputCodec) (.cons uint64Codec .nil)))
    (fun (proposer, outputs, blockHeight, ()) => ⟨proposer, outputs, blockHeight⟩)
    (fun tx => (tx.proposer, tx.outputs, tx.blockHeight, ())) (fun _ => rfl) (fun _ => rfl)

def sendTxCodec : Codec SendTx :=
  .struct (.cons coinsCodec (.cons (.list txInputCodec) (.cons (.list txOutputCodec) .nil)))
    (fun (fee, inputs, outputs, ()) => ⟨fee, inputs, outputs⟩)
    (fun tx => (tx.fee, tx.inputs, tx.outputs, ())) (fun _ => rfl) (fun _ => rfl)

def smartContractTxCodec : Codec SmartContractTx :=
  .struct (.cons txInputCodec (.cons txOutputCodec
      (.cons uint64Codec (.cons bigIntPtrCodec (.cons bytesCodec .nil)))))
    (fun (sender, output, gasLimit, gasPrice, data, ()) =>
      ⟨sender, output.address, output.coins, gasLimit, gasPrice, data⟩)
    (fun tx => (tx.sender, ⟨tx.toAddress, tx.toCoins⟩, tx.gasLimit, tx.gasPrice, tx.data, ()))
    (fun _ => rfl) (fun _ => rfl)

theorem toItem_data (tx : SmartContractTx) : ∃ fields : Option (List Item), ∀ data,
    smartContractTxCodec.toItem { tx with data := data } =
      fields.map fun xs => .list (xs ++ [.str data]) := by
  refine ⟨do
    let sender ← txInputCodec.toItem tx.sender
    let output ← txOutputCodec.toItem ⟨tx.toAddress, tx.toCoins⟩
    let gasPrice ← bigIntPtrCodec.toItem tx.gasPrice
    return [sender, output, .uint tx.gasLimit.toNat, gasPrice], fun data => ?_⟩
  simp only [smartContractTxCodec, Codec.struct, Fields.cons, Fields.nil, bytesCodec]
  cases txInputCodec.toItem tx.sender with
  | none => rfl
  | some sender =>
    cases txOutputCodec.toItem ⟨tx.toAddress, tx.toCoins⟩ with
    | none => rfl
    | some output => cases bigIntPtrCodec.toItem tx.gasPrice <;> rfl

def validatorCodec : Codec Validator :=
  .struct (.cons addressCodec (.cons bigIntCodec .nil)) (fun (address, stake, ()) => ⟨address, stake⟩)
    (fun v => (v.address, v.stake, ())) (fun _ => rfl) (fun _ => rfl)

def validatorSetUpdateTxCodec : Codec SubchainValidatorSetUpdateTx :=
  .struct (.cons txInputCodec (.cons bigIntCodec (.cons (.list validatorCodec) .nil)))
    (fun (proposer, dynasty, validators, ()) => ⟨proposer, dynasty, validators⟩)
    (fun tx => (tx.proposer, tx.dynasty, tx.validators, ())) (fun _ => rfl) (fun _ => rfl)

def maxTxSize : Nat := 8 * 1024 * 1024

section Bytes

variable {α : Type}

def encodeTx (txType : Nat) (c : Codec α) (tx : α) : Option Bytes :=
  (c.toItem tx).map fun x => Rlp.encode (.uint txType) ++ Rlp.encode x

def decodeTx (c : Codec α) (rest : Bytes) : Option α := do
  let (x, _) ← Rlp.readItem rest
  c.ofItem x

end Bytes

def txToBytes : Tx → Option Bytes
  | .coinbase tx => encodeTx txCoinbase coinbaseTxCodec tx
  | .send tx => encodeTx txSend sendTxCodec tx
  | .smartContract tx => encodeTx txSmartContract smartContractTxCodec tx
  | .subchainValidatorSetUpdate tx =>
    encodeTx txSubchainValidatorSetUpdate validatorSetUpdateTxCodec tx
  | .depositStake _ | .withdrawStake _ => none  -- unsupported message type

/-- The stream of `TxFromBytes`, which is limited to `maxTxSize` bytes. -/
def rlpTxCodec : TxCodec where
  decodeType raw := do
    let (x, rest) ← Rlp.readItem (raw.take maxTxSize)
    let txType ← byteOfItem x
    return (txType.toNat, rest)
  decodeCoinbase := decodeTx coinbaseTxCodec
  decodeSend := decodeTx sendTxCodec
  decodeSmartContract := decodeTx smartContractTxCodec
  decodeValidatorSetUpdate := decodeTx validatorSetUpdateTxCodec
  encode := txToBytes
  encode_data tx data := by
    obtain ⟨fields, hfields⟩ := toItem_data tx
    rw [txToBytes, txToBytes, encodeTx, encodeTx, hfields, hfields tx.data]
    cases fields <;> rfl

def Coins.AreSet (c : Coins) : Prop :=
  (∃ n, c.thetaWei = some n ∧ 0 ≤ n) ∧ ∃ n, c.tfuelWei = some n ∧ 0 ≤ n

def TxInput.IsSet (i : TxInput) : Prop := i.coins.AreSet ∧ i.signature.isSome

/-- No pointer of a supported transaction is nil, and no big integer is negative. -/
def Tx.IsSet : Tx → Prop
  | .coinbase tx => tx.proposer.IsSet ∧ ∀ o ∈ tx.outputs, o.coins.AreSet
  | .send tx => tx.fee.AreSet ∧ (∀ i ∈ tx.inputs, i.IsSet) ∧ ∀ o ∈ tx.outputs, o.coins.AreSet
  | .smartContract tx => tx.sender.IsSet ∧ tx.toCoins.AreSet ∧ ∃ n, tx.gasPrice = some n ∧ 0 ≤ n
  | .subchainValidatorSetUpdate tx =>
    tx.proposer.IsSet ∧ 0 ≤ tx.dynasty ∧ ∀ v ∈ tx.validators, 0 ≤ v.stake
  | .depositStake _ | .withdrawStake _ => False

theorem readable_coins (c : Coins) : coinsCodec.Readable c ↔ c.AreSet := by
  show (_ ∧ _ ∧ True) ↔ _
  rw [and_true]
  rfl

theorem readable_txInput (i : TxInput) : txInputCodec.Readable i ↔ i.IsSet := by
  show (True ∧ coinsCodec.Readable i.coins ∧ True ∧ i.signature.isSome ∧ True) ↔ _
  rw [readable_coins]
  simp [TxInput.IsSet]

theorem readable_txOutput (o : TxOutput) : txOutputCodec.Readable o ↔ o.coins.AreSet := by
  show (True ∧ coinsCodec.Readable o.coins ∧ True) ↔ _
  rw [readable_coins]
  simp

theorem readable_coinbaseTx (tx : CoinbaseTx) :
    coinbaseTxCodec.Readable tx ↔ (Tx.coinbase tx).IsSet := by
  show (txInputCodec.Readable tx.proposer ∧ (∀ o ∈ tx.outputs, txOutputCodec.Readable o) ∧
    True ∧ True) ↔ _
  simp only [readable_txInput, readable_txOutput, and_true]
  rfl

theorem readable_sendTx (tx : SendTx) : sendTxCodec.Readable tx ↔ (Tx.send tx).IsSet := by
  show (coinsCodec.Readable tx.fee ∧ (∀ i ∈ tx.inputs, txInputCodec.Readable i) ∧
    (∀ o ∈ tx.outputs, txOutputCodec.Readable o) ∧ True) ↔ _
  simp only [readable_coins, readable_txInput, readable_txOutput, and_true]
  rfl

theorem readable_smartContractTx (tx : SmartContractTx) :
    smartContractTxCodec.Readable tx ↔ (Tx.smartContract tx).IsSet := by
  show (txInputCodec.Readable tx.sender ∧ txOutputCodec.Readable ⟨tx.toAddress, tx.toCoins⟩ ∧
    True ∧ bigIntPtrCodec.Readable tx.gasPrice ∧ True ∧ True) ↔ _
  simp only [readable_txInput, readable_txOutput, true_and, and_true]
  rfl

theorem readable_validatorSetUpdateTx (tx : SubchainValidatorSetUpdateTx) :
    validatorSetUpdateTxCodec.Readable tx ↔ (Tx.subchainValidatorSetUpdate tx).IsSet := by
  show (txInputCodec.Readable tx.proposer ∧ 0 ≤ tx.dynasty ∧
    (∀ v ∈ tx.validators, True ∧ 0 ≤ v.stake ∧ True) ∧ True) ↔ _
  simp only [readable_txInput, true_and, and_true]
  rfl

def Tx.items : Tx → Option (Nat × Item)
  | .coinbase tx => (coinbaseTxCodec.toItem tx).map fun x => (txCoinbase, x)
  | .send tx => (sendTxCodec.toItem tx).map fun x => (txSend, x)
  | .smartContract tx => (smartContractTxCodec.toItem tx).map fun x => (txSmartContract, x)
  | .subchainValidatorSetUpdate tx =>
    (validatorSetUpdateTxCodec.toItem tx).map fun x => (txSubchainValidatorSetUpdate, x)
  | .depositStake _ | .withdrawStake _ => none

def Tx.FitsStream (tx : Tx) : Prop :=
  ∀ txType x, tx.items = some (txType, x) →
    (Rlp.encode (.uint txType)).length + (Rlp.encode x).length ≤ maxTxSize

def endsAfterTwoItems (raw : Bytes) : Bool :=
  match Rlp.readItem raw with
  | none => false
  | some (_, rest) =>
    match Rlp.readItem rest with
    | some (_, []) => true
    | _ => false

variable {raw : Bytes}

theorem endsAfterTwoItems_iff :
    endsAfterTwoItems raw = true ↔
      ∃ x rest y, readItem raw = some (x, rest) ∧ readItem rest = some (y, []) := by
  unfold endsAfterTwoItems
  constructor
  · intro h
    split at h
    · cases h
    next x rest hx =>
      split at h
      next y hy => exact ⟨x, rest, y, hx, hy⟩
      · cases h
  · rintro ⟨x, rest, y, hx, hy⟩
    rw [hx]
    dsimp only
    rw [hy]

theorem txToBytes_eq (tx : Tx) :
    txToBytes tx = tx.items.map fun (txType, x) => encode (.uint txType) ++ encode x := by
  cases tx with
  | coinbase tx => rw [Tx.items, Option.map_map]; rfl
  | send tx => rw [Tx.items, Option.map_map]; rfl
  | smartContract tx => rw [Tx.items, Option.map_map]; rfl
  | subchainValidatorSetUpdate tx => rw [Tx.items, Option.map_map]; rfl
  | depositStake forValidator => rfl
  | withdrawStake forValidator => rfl

theorem decodeTx_eq_some_iff {α : Type} {c : Codec α} {rest : Bytes} {a : α} :
    decodeTx c rest = some a ↔
      c.Readable a ∧ ∃ x after, c.toItem a = some x ∧ readItem rest = some (x, after) := by
  unfold decodeTx
  rw [Option.bind_eq_bind, Option.bind_eq_some_iff]
  constructor
  · rintro ⟨⟨x, after⟩, hx, ha⟩
    obtain ⟨hwritten, hreadable⟩ := c.ofItem_eq_some_iff.1 ha
    exact ⟨hreadable, x, after, hwritten, hx⟩
  · rintro ⟨hreadable, x, after, hwritten, hx⟩
    exact ⟨(x, after), hx, c.ofItem_eq_some_iff.2 ⟨hwritten, hreadable⟩⟩

def decodeBody (txType : Nat) (rest : Bytes) : Option Tx :=
  if txType = txCoinbase then Tx.coinbase <$> decodeTx coinbaseTxCodec rest
  else if txType = txSend then Tx.send <$> decodeTx sendTxCodec rest
  else if txType = txSmartContract then Tx.smartContract <$> decodeTx smartContractTxCodec rest
  else if txType = txSubchainValidatorSetUpdate then
    Tx.subchainValidatorSetUpdate <$> decodeTx validatorSetUpdateTxCodec rest
  else none

variable {tx : Tx}

theorem txFromBytes_rlpTxCodec :
    txFromBytes rlpTxCodec raw = some tx ↔ ∃ (txType : UInt8) (rest : Bytes),
      readItem (raw.take maxTxSize) = some (.uint txType.toNat, rest) ∧
        decodeBody txType.toNat rest = some tx := by
  show ((do
    let (x, rest) ← readItem (raw.take maxTxSize)
    let txType ← byteOfItem x
    return (txType.toNat, rest)) >>= fun p => decodeBody p.1 p.2) = some tx ↔ _
  rw [Option.bind_eq_bind, Option.bind_eq_some_iff]
  constructor
  · rintro ⟨⟨n, rest⟩, hread, hbody⟩
    obtain ⟨⟨x, rest'⟩, hx, hread⟩ := Option.bind_eq_some_iff.1 hread
    obtain ⟨txType, htype, hread⟩ := Option.bind_eq_some_iff.1 hread
    cases hread
    rw [byteOfItem_eq_some htype] at hx
    exact ⟨txType, rest, hx, hbody⟩
  · rintro ⟨txType, rest, hx, hbody⟩
    refine ⟨(txType.toNat, rest), ?_, hbody⟩
    rw [hx]
    show (byteOfItem (.uint txType.toNat) >>= fun txType => some (txType.toNat, rest)) = _
    rw [byteOfItem_uint]
    rfl

theorem decodeTx_eq_some_iff_items {α : Type} {c : Codec α} {kind : α → Tx} {n : Nat} {a : α}
    (hreadable : c.Readable a ↔ (kind a).IsSet)
    (hitems : (kind a).items = (c.toItem a).map fun x => (n, x)) (txType : Nat) (rest : Bytes) :
    (txType = n ∧ decodeTx c rest = some a) ↔ (kind a).IsSet ∧ ∃ x after,
      (kind a).items = some (txType, x) ∧ readItem rest = some (x, after) := by
  rw [decodeTx_eq_some_iff, hreadable, hitems]
  simp only [Option.map_eq_some_iff, Prod.mk.injEq]
  constructor
  · rintro ⟨rfl, hset, x, after, hx, hread⟩
    exact ⟨hset, x, after, ⟨x, hx, rfl, rfl⟩, hread⟩
  · rintro ⟨hset, x, after, ⟨y, hy, rfl, rfl⟩, hread⟩
    exact ⟨rfl, hset, y, after, hy, hread⟩

theorem decodeBody_eq_some_iff {txType : Nat} {rest : Bytes} :
    decodeBody txType rest = some tx ↔
      tx.IsSet ∧ ∃ x after, tx.items = some (txType, x) ∧ readItem rest = some (x, after) := by
  cases tx with
  | coinbase tx =>
    rw [← decodeTx_eq_some_iff_items (readable_coinbaseTx tx) rfl]
    unfold decodeBody
    split_ifs <;> simp_all [txCoinbase]
  | send tx =>
    rw [← decodeTx_eq_some_iff_items (readable_sendTx tx) rfl]
    unfold decodeBody
    split_ifs <;> simp_all [txCoinbase, txSend]
  | smartContract tx =>
    rw [← decodeTx_eq_some_iff_items (readable_smartContractTx tx) rfl]
    unfold decodeBody
    split_ifs <;> simp_all [txCoinbase, txSend, txSmartContract]
  | subchainValidatorSetUpdate tx =>
    rw [← decodeTx_eq_some_iff_items (readable_validatorSetUpdateTx tx) rfl]
    unfold decodeBody
    split_ifs <;> simp_all [txCoinbase, txSend, txSmartContract, txSubchainValidatorSetUpdate]
  | depositStake forValidator =>
    unfold decodeBody
    split_ifs <;> simp [Tx.IsSet]
  | withdrawStake forValidator =>
    unfold decodeBody
    split_ifs <;> simp [Tx.IsSet]

theorem Tx.type_lt {txType : Nat} (h : tx.items = some (txType, x)) : txType < 256 := by
  cases tx with
  | depositStake forValidator => cases h
  | withdrawStake forValidator => cases h
  | _ =>
    obtain ⟨y, -, hy⟩ := Option.map_eq_some_iff.1 h
    rw [← (Prod.mk.inj hy).1]
    decide

theorem Tx.IsSet.exists_items (h : tx.IsSet) : ∃ txType x, tx.items = some (txType, x) := by
  cases tx with
  | coinbase tx =>
    obtain ⟨x, hx, -⟩ := coinbaseTxCodec.read ((readable_coinbaseTx tx).2 h)
    exact ⟨txCoinbase, x, by rw [Tx.items, hx]; rfl⟩
  | send tx =>
    obtain ⟨x, hx, -⟩ := sendTxCodec.read ((readable_sendTx tx).2 h)
    exact ⟨txSend, x, by rw [Tx.items, hx]; rfl⟩
  | smartContract tx =>
    obtain ⟨x, hx, -⟩ := smartContractTxCodec.read ((readable_smartContractTx tx).2 h)
    exact ⟨txSmartContract, x, by rw [Tx.items, hx]; rfl⟩
  | subchainValidatorSetUpdate tx =>
    obtain ⟨x, hx, -⟩ := validatorSetUpdateTxCodec.read ((readable_validatorSetUpdateTx tx).2 h)
    exact ⟨txSubchainValidatorSetUpdate, x, by rw [Tx.items, hx]; rfl⟩
  | depositStake forValidator => exact h.elim
  | withdrawStake forValidator => exact h.elim

theorem txFromBytes_eq_some_iff :
    txFromBytes rlpTxCodec raw = some tx ↔ tx.IsSet ∧ ∃ txType x after,
      tx.items = some (txType, x) ∧ raw = encode (.uint txType) ++ (encode x ++ after) ∧
        (encode (.uint txType)).length + (encode x).length ≤ maxTxSize := by
  rw [txFromBytes_rlpTxCodec]
  constructor
  · rintro ⟨txType, rest, hread, hbody⟩
    obtain ⟨hset, x, after, hitems, hread'⟩ := decodeBody_eq_some_iff.1 hbody
    have hraw := eq_encode_of_readItem hread
    rw [eq_encode_of_readItem hread'] at hraw
    refine ⟨hset, txType.toNat, x, after ++ raw.drop maxTxSize, hitems, ?_, ?_⟩
    · conv_lhs => rw [← take_append_drop maxTxSize raw, hraw]
      simp only [append_assoc]
    · have hlen := congrArg length hraw
      simp only [length_take, length_append] at hlen
      omega
  · rintro ⟨hset, txType, x, after, hitems, rfl, hlen⟩
    have hmax : maxTxSize < 2 ^ 64 := by decide
    have hbyte : (UInt8.ofNat txType).toNat = txType := by
      rw [UInt8.toNat_ofNat', Nat.mod_eq_of_lt (Tx.type_lt hitems)]
    -- the stream ends somewhere after the two items
    obtain ⟨u, htake⟩ : ∃ u, (encode (.uint txType) ++ (encode x ++ after)).take maxTxSize =
        encode (.uint txType) ++ (encode x ++ u) := by
      rw [take_append, take_append, take_of_length_le (by omega),
        take_of_length_le (by omega)]
      exact ⟨_, rfl⟩
    have hfirst := readItem_encode (x := .uint txType) (by omega) (encode x ++ u)
    have hsecond := readItem_encode (x := x) (by omega) u
    refine ⟨UInt8.ofNat txType, encode x ++ u, ?_, ?_⟩
    · rw [htake, hbyte]
      exact hfirst
    · rw [hbyte]
      exact decodeBody_eq_some_iff.2 ⟨hset, x, u, hitems, hsecond⟩

theorem Tx.IsSet.nonNil (h : tx.IsSet) : tx.NonNil := by
  cases tx with
  | send tx =>
    obtain ⟨n, hn, -⟩ := h.1.2
    rw [Tx.NonNil, hn]
    rfl
  | smartContract tx =>
    obtain ⟨n, hn, -⟩ := h.1.1.1
    rw [Tx.NonNil, hn]
    rfl
  | _ => trivial

/-- What `TxFromBytes` accepts can be executed and encoded. -/
theorem faithful_rlpTxCodec : rlpTxCodec.Faithful := by
  intro raw tx h
  obtain ⟨hset, txType, x, after, hitems, -, -⟩ := txFromBytes_eq_some_iff.1 h
  refine ⟨hset.nonNil, ?_⟩
  show (txToBytes tx).isSome
  rw [txToBytes_eq, hitems]
  rfl

theorem exists_txToBytes (h : txFromBytes rlpTxCodec raw = some tx) :
    ∃ own after, txToBytes tx = some own ∧ raw = own ++ after ∧
      txFromBytes rlpTxCodec own = some tx := by
  obtain ⟨hset, txType, x, after, hitems, hraw, hlen⟩ := txFromBytes_eq_some_iff.1 h
  refine ⟨encode (.uint txType) ++ encode x, after, ?_, ?_, ?_⟩
  · rw [txToBytes_eq, hitems]
    rfl
  · rw [hraw, append_assoc]
  · refine txFromBytes_eq_some_iff.2 ⟨hset, txType, x, [], hitems, ?_, hlen⟩
    rw [append_nil]

theorem txToBytes_eq_iff_endsAfterTwoItems (h : txFromBytes rlpTxCodec raw = some tx) :
    txToBytes tx = some raw ↔ endsAfterTwoItems raw = true := by
  have hmax : maxTxSize < 2 ^ 64 := by decide
  obtain ⟨hset, txType, x, after, hitems, rfl, hlen⟩ := txFromBytes_eq_some_iff.1 h
  have hfirst := readItem_encode (x := .uint txType) (by omega) (encode x ++ after)
  have hsecond := readItem_encode (x := x) (by omega) after
  rw [txToBytes_eq, hitems, endsAfterTwoItems_iff]
  show some (encode (.uint txType) ++ encode x) = _ ↔ _
  rw [Option.some.injEq, append_cancel_left_eq, self_eq_append_right]
  constructor
  · rintro rfl
    exact ⟨_, _, _, hfirst, hsecond⟩
  · rintro ⟨u, rest, v, hu, hv⟩
    rw [hfirst, Option.some.injEq, Prod.mk.injEq] at hu
    rw [← hu.2, hsecond, Option.some.injEq, Prod.mk.injEq] at hv
    exact hv.2

/-- A transaction is read back from its bytes exactly if nothing in it is nil or negative and it is
not too long, and bytes that are accepted are those of the transaction exactly if they end after
two items. -/
theorem canonical_iff (tx : Tx) (raw : Bytes) :
    ((∃ own, txToBytes tx = some own ∧ txFromBytes rlpTxCodec own = some tx) ↔
      tx.IsSet ∧ tx.FitsStream) ∧ (txFromBytes rlpTxCodec raw = some tx →
      (txToBytes tx = some raw ↔ endsAfterTwoItems raw = true)) := by
  refine ⟨⟨?_, ?_⟩, txToBytes_eq_iff_endsAfterTwoItems⟩
  · rintro ⟨own, -, hread⟩
    obtain ⟨hset, txType, x, after, hitems, -, hlen⟩ := txFromBytes_eq_some_iff.1 hread
    refine ⟨hset, fun txType' x' hitems' => ?_⟩
    rw [hitems] at hitems'
    cases hitems'
    exact hlen
  · rintro ⟨hset, hfits⟩
    obtain ⟨txType, x, hitems⟩ := hset.exists_items
    have hread : txFromBytes rlpTxCodec (encode (.uint txType) ++ (encode x ++ [])) =
        some tx :=
      txFromBytes_eq_some_iff.2 ⟨hset, txType, x, [], hitems, rfl, hfits txType x hitems⟩
    obtain ⟨own, -, hown, -, hback⟩ := exists_txToBytes hread
    exact ⟨own, hown, hback⟩

def plainCoinbase : Tx :=
  .coinbase ⟨⟨7, ⟨some 0, some 0⟩, 0, some ⟨[1]⟩⟩, [], 5⟩

/-- A byte after the transaction is ignored: other bytes than its own are read as the
transaction. -/
theorem trailing_byte_is_ignored :
    (txToBytes plainCoinbase).map (fun raw => (txFromBytes rlpTxCodec raw,
      txFromBytes rlpTxCodec (raw ++ [0]), decide (txToBytes plainCoinbase = some (raw ++ [0])))) =
      some (some plainCoinbase, some plainCoinbase, false) := by
  decide

/-- What `TxFromBytes` accepts, of whatever type, has no nil pointer and no negative amount.  It can
be encoded: its own bytes are the first ones that were read, and are read as the transaction. -/
theorem accepted_starts_with_own (raw : Bytes) (tx : Tx)
    (h : txFromBytes rlpTxCodec raw = some tx) :
    tx.IsSet ∧ ∃ own after, txToBytes tx = some own ∧ raw = own ++ after ∧
      txFromBytes rlpTxCodec own = some tx :=
  ⟨(txFromBytes_eq_some_iff.1 h).1, exists_txToBytes h⟩

def twoPaymentsTx : Tx :=
  .send
    { fee := ⟨some 0, some 2⟩
      inputs := [⟨1, ⟨some 0, some 12⟩, 1, some ⟨[1]⟩⟩, ⟨3, ⟨some 0, some 300⟩, 7, some ⟨[2, 3]⟩⟩]
      outputs := [⟨2, ⟨some 0, some 310⟩⟩] }

theorem accepted_starts_with_own_payments :
    ∃ raw, txFromBytes rlpTxCodec raw = some twoPaymentsTx ∧ twoPaymentsTx.IsSet ∧
      ∃ own after, txToBytes twoPaymentsTx = some own ∧ raw = own ++ after := by
  have hread : (txToBytes twoPaymentsTx).map (fun own => txFromBytes rlpTxCodec (own ++ [0, 1])) =
      some (some twoPaymentsTx) := by decide +kernel
  obtain ⟨own, -, hraw⟩ := Option.map_eq_some_iff.1 hread
  obtain ⟨hset, own, after, hown, heq, -⟩ := accepted_starts_with_own _ _ hraw
  exact ⟨_, hraw, hset, own, after, hown, heq⟩

theorem canonical_iff_coinbase :
    ∃ raw, txToBytes plainCoinbase = some raw ∧ txFromBytes rlpTxCodec raw = some plainCoinbase ∧
      endsAfterTwoItems raw = true := by
  have hset : plainCoinbase.IsSet := by
    refine ⟨⟨⟨⟨0, rfl, le_rfl⟩, 0, rfl, le_rfl⟩, rfl⟩, fun o ho => ?_⟩
    cases ho
  have hfits : plainCoinbase.FitsStream := by
    intro txType x hitems
    have hlen : plainCoinbase.items.map (fun p =>
        decide ((encode (.uint p.1)).length + (encode p.2).length ≤ maxTxSize)) =
        some true := by decide
    rw [hitems, Option.map_some, Option.some.injEq] at hlen
    exact of_decide_eq_true hlen
  obtain ⟨raw, hraw, hread⟩ := (canonical_iff plainCoinbase []).1.2 ⟨hset, hfits⟩
  exact ⟨raw, hraw, hread, ((canonical_iff plainCoinbase raw).2 hread).1 hraw⟩

end ThetaSubchain
