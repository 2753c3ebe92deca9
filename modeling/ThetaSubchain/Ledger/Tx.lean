/-
Transactions (ledger/types/tx.go and the transaction types of the theta library).

A `*big.Int` that may be nil is an `Option Int`.  The stake transactions of the theta
library have no executor here and `TxFromBytes` never returns one.
-/
import ThetaSubchain.Core.Validator

namespace ThetaSubchain

structure Coins where
  thetaWei : Option Int
  tfuelWei : Option Int
deriving DecidableEq, Repr

namespace Coins

/-- The amounts after `NoNil`. -/
def theta (c : Coins) : Int := c.thetaWei.getD 0

def tfuel (c : Coins) : Int := c.tfuelWei.getD 0

def isNonnegative (c : Coins) : Bool := decide (0 ≤ c.theta) && decide (0 ≤ c.tfuel)

def plus (c d : Coins) : Coins := ⟨some (c.theta + d.theta), some (c.tfuel + d.tfuel)⟩

def isEqual (c d : Coins) : Bool := c.theta == d.theta && c.tfuel == d.tfuel

end Coins

structure TxInput where
  address : Address
  coins : Coins := ⟨none, none⟩
  sequence : UInt64 := 0
  signature : Option Signature := none
deriving DecidableEq, Repr

structure TxOutput where
  address : Address
  coins : Coins
deriving DecidableEq, Repr

structure CoinbaseTx where
  proposer : TxInput
  outputs : List TxOutput
  blockHeight : UInt64
deriving DecidableEq, Repr

structure SendTx where
  fee : Coins
  inputs : List TxInput
  outputs : List TxOutput
deriving DecidableEq, Repr

/-- `types.SmartContractTx`; `toAddress` and `toCoins` are the output `To`, whose coins are
encoded but not read otherwise. -/
structure SmartContractTx where
  sender : TxInput
  toAddress : Address
  toCoins : Coins := ⟨none, none⟩
  gasLimit : UInt64
  gasPrice : Option Int
  data : Bytes
deriving DecidableEq, Repr

structure SubchainValidatorSetUpdateTx where
  proposer : TxInput
  dynasty : Int
  validators : List Validator
deriving DecidableEq, Repr

inductive Tx where
  | coinbase (tx : CoinbaseTx)
  | send (tx : SendTx)
  | smartContract (tx : SmartContractTx)
  | subchainValidatorSetUpdate (tx : SubchainValidatorSetUpdateTx)
  | depositStake (forValidator : Bool)
  | withdrawStake (forValidator : Bool)
deriving DecidableEq, Repr

/-- The RLP stream of the theta library: the type comes first, then the transaction. -/
structure TxCodec where
  decodeType : Bytes → Option (Nat × Bytes)
  decodeCoinbase : Bytes → Option CoinbaseTx
  decodeSend : Bytes → Option SendTx
  decodeSmartContract : Bytes → Option SmartContractTx
  decodeValidatorSetUpdate : Bytes → Option SubchainValidatorSetUpdateTx
  encode : Tx → Option Bytes
  /-- Any data can be encoded. -/
  encode_data : ∀ (tx : SmartContractTx) (data : Bytes),
    (encode (.smartContract { tx with data := data })).isSome =
      (encode (.smartContract tx)).isSome

def txCoinbase : Nat := 0
def txSend : Nat := 2
def txSmartContract : Nat := 7
def txSubchainValidatorSetUpdate : Nat := 201

def txFromBytes (c : TxCodec) (raw : Bytes) : Option Tx := do
  let (txType, rest) ← c.decodeType raw
  if txType = txCoinbase then Tx.coinbase <$> c.decodeCoinbase rest
  else if txType = txSend then Tx.send <$> c.decodeSend rest
  else if txType = txSmartContract then Tx.smartContract <$> c.decodeSmartContract rest
  else if txType = txSubchainValidatorSetUpdate then
    Tx.subchainValidatorSetUpdate <$> c.decodeValidatorSetUpdate rest
  else none

def Tx.isSubchainTx : Tx → Bool
  | .depositStake _ | .withdrawStake _ => false
  | _ => true

theorem isSubchainTx_of_txFromBytes {c : TxCodec} {raw : Bytes} {tx : Tx}
    (h : txFromBytes c raw = some tx) : tx.isSubchainTx = true := by
  rw [txFromBytes, Option.bind_eq_bind, Option.bind_eq_some_iff] at h
  obtain ⟨⟨txType, rest⟩, -, h⟩ := h
  dsimp only at h
  split_ifs at h
  all_goals
    simp only [Option.map_eq_map, Option.map_eq_some_iff] at h
    obtain ⟨a, -, rfl⟩ := h
    rfl

end ThetaSubchain
