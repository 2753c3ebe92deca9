/-
Events out of the logs of a chain (interchain/utils/eth_rpc_utils.go).

The hash of an event signature and the unpacking of ABI data are parameters.  A panic,
which a log without topics or with too short strings causes, is `none`.
-/
import ThetaSubchain.Interchain.Event

namespace ThetaSubchain

open InterChainMessageEventType

structure LogData where
  blockNumber : Bytes
  data : Bytes
  topics : List String
deriving DecidableEq

inductive TokenBank where
  | tfuel
  | tnt20
  | tnt721
  | tnt1155
deriving DecidableEq

structure TokenBankEvent where
  denom : Bytes
  sender : Address
  receiver : Address
  targetChainID : BigInt
  nonce : BigInt

structure LogReader where
  unpackIntoInterface : TokenBank → String → Bytes → TokenBankEvent
  keccak256Hex : String → String

/-- `hex.DecodeString` with its error ignored: the bytes before the first bad digit. -/
def hexDecodeString : Bytes → Bytes
  | p :: q :: rest =>
    if BigInt.digitValue p < 16 ∧ BigInt.digitValue q < 16 then
      UInt8.ofNat (16 * BigInt.digitValue p + BigInt.digitValue q) :: hexDecodeString rest
    else []
  | _ => []

def fromTwo : Bytes → Option Bytes
  | _ :: _ :: rest => some rest
  | _ => none

/-- `ExtractOriginatedChainIDFromDenom`, which gives zero for a denom it cannot read. -/
def extractOriginatedChainIDFromDenom (denom : Bytes) : BigInt :=
  match denom.splitOn 47 with
  | [chainID, _, _] => some ((BigInt.setString 10 chainID).getD 0)
  | _ => some 0

section Extract

variable (r : LogReader) (chainID : BigInt) (logData : LogData)

variable (type : InterChainMessageEventType) (bank : TokenBank) (name : String)

def unpackLog : Option (TokenBankEvent × Bytes × BigInt) := do
  let data := hexDecodeString (← fromTwo logData.data)
  let blockHeight := BigInt.setString 16 (← fromTwo logData.blockNumber)
  return (r.unpackIntoInterface bank name data, data, blockHeight)

def extractTokenLockedEvent : Option InterChainMessageEvent := do
  let (tma, data, blockHeight) ← unpackLog r logData bank name
  return ⟨type, chainID, tma.targetChainID, tma.sender, tma.receiver, data, tma.nonce, blockHeight⟩

def extractVoucherMintedEvent : Option InterChainMessageEvent := do
  let (tma, data, blockHeight) ← unpackLog r logData bank name
  return ⟨type, extractOriginatedChainIDFromDenom tma.denom, chainID, 0, tma.receiver, data,
    tma.nonce, blockHeight⟩

def extractVoucherBurnedEvent : Option InterChainMessageEvent := do
  let (tma, data, blockHeight) ← unpackLog r logData bank name
  return ⟨type, chainID, extractOriginatedChainIDFromDenom tma.denom, tma.sender, tma.receiver,
    data, tma.nonce, blockHeight⟩

/-- An unlock is queried on the target chain, and its source chain is not recorded. -/
def extractTokenUnlockedEvent : Option InterChainMessageEvent := do
  let (tma, data, blockHeight) ← unpackLog r logData bank name
  return ⟨type, none, chainID, 0, tma.receiver, data, tma.nonce, blockHeight⟩

def extractTFuelTokenLockedEvent :=
  extractTokenLockedEvent r chainID logData crossChainTokenLockTFuel .tfuel "TFuelTokenLocked"

def extractTNT20TokenLockedEvent :=
  extractTokenLockedEvent r chainID logData crossChainTokenLockTNT20 .tnt20 "TNT20TokenLocked"

def extractTNT721TokenLockedEvent :=
  extractTokenLockedEvent r chainID logData crossChainTokenLockTNT721 .tnt721 "TNT721TokenLocked"

def extractTNT1155TokenLockedEvent :=
  extractTokenLockedEvent r chainID logData crossChainTokenLockTNT1155 .tnt1155
    "TNT1155TokenLocked"

def extractTFuelVoucherMintedEvent :=
  extractVoucherMintedEvent r chainID logData crossChainVoucherMintTFuel .tfuel
    "TFuelVoucherMinted"

def extractTNT20VoucherMintedEvent :=
  extractVoucherMintedEvent r chainID logData crossChainVoucherMintTNT20 .tnt20
    "TNT20VoucherMinted"

def extractTNT721VoucherMintedEvent :=
  extractVoucherMintedEvent r chainID logData crossChainVoucherMintTNT721 .tnt721
    "TNT721VoucherMinted"

def extractTNT1155VoucherMintedEvent :=
  extractVoucherMintedEvent r chainID logData crossChainVoucherMintTNT1155 .tnt1155
    "TNT1155VoucherMinted"

def extractTFuelVoucherBurnedEvent :=
  extractVoucherBurnedEvent r chainID logData crossChainVoucherBurnTFuel .tfuel
    "TFuelVoucherBurned"

def extractTNT20VoucherBurnedEvent :=
  extractVoucherBurnedEvent r chainID logData crossChainVoucherBurnTNT20 .tnt20
    "TNT20VoucherBurned"

def extractTNT721VoucherBurnedEvent :=
  extractVoucherBurnedEvent r chainID logData crossChainVoucherBurnTNT721 .tnt721
    "TNT721VoucherBurned"

def extractTNT1155VoucherBurnedEvent :=
  extractVoucherBurnedEvent r chainID logData crossChainVoucherBurnTNT1155 .tnt1155
    "TNT1155VoucherBurned"

def extractTFuelTokenUnlockedEvent :=
  extractTokenUnlockedEvent r chainID logData crossChainTokenUnlockTFuel .tfuel
    "TFuelTokenUnlocked"

def extractTNT20TokenUnlockedEvent :=
  extractTokenUnlockedEvent r chainID logData crossChainTokenUnlockTNT20 .tnt20
    "TNT20TokenUnlocked"

def extractTNT721TokenUnlockedEvent :=
  extractTokenUnlockedEvent r chainID logData crossChainTokenUnlockTNT721 .tnt721
    "TNT721TokenUnlocked"

def extractTNT1155TokenUnlockedEvent :=
  extractTokenUnlockedEvent r chainID logData crossChainTokenUnlockTNT1155 .tnt1155
    "TNT1155TokenUnlocked"

def eventExtractors : List (String × Option InterChainMessageEvent) :=
  [("TFuelTokenLocked(string,address,uint256,address,uint256,uint256)",
      extractTFuelTokenLockedEvent r chainID logData),
    ("TNT20TokenLocked(string,address,uint256,address,uint256,string,string,uint8,uint256)",
      extractTNT20TokenLockedEvent r chainID logData),
    ("TNT721TokenLocked(string,address,uint256,address,uint256,string,string,string,uint256)",
      extractTNT721TokenLockedEvent r chainID logData),
    ("TNT1155TokenLocked(string,address,uint256,address,uint256,uint256,string,uint256)",
      extractTNT1155TokenLockedEvent r chainID logData),
    ("TFuelVoucherMinted(string,address,uint256,uint256,uint256)",
      extractTFuelVoucherMintedEvent r chainID logData),
    ("TNT20VoucherMinted(string,address,address,uint256,uint256,uint256)",
      extractTNT20VoucherMintedEvent r chainID logData),
    ("TNT721VoucherMinted(string,address,address,uint256,uint256,uint256)",
      extractTNT721VoucherMintedEvent r chainID logData),
    ("TNT1155VoucherMinted(string,address,address,uint256,uint256,uint256,uint256)",
      extractTNT1155VoucherMintedEvent r chainID logData),
    ("TFuelVoucherBurned(string,address,address,uint256,uint256)",
      extractTFuelVoucherBurnedEvent r chainID logData),
    ("TNT20VoucherBurned(string,address,address,uint256,uint256)",
      extractTNT20VoucherBurnedEvent r chainID logData),
    ("TNT721VoucherBurned(string,address,address,uint256,uint256)",
      extractTNT721VoucherBurnedEvent r chainID logData),
    ("TNT1155VoucherBurned(string,address,address,uint256,uint256,uint256)",
      extractTNT1155VoucherBurnedEvent r chainID logData),
    ("TFuelTokenUnlocked(string,address,uint256,uint256,uint256)",
      extractTFuelTokenUnlockedEvent r chainID logData),
    ("TNT20TokenUnlocked(string,address,uint256,uint256,uint256)",
      extractTNT20TokenUnlockedEvent r chainID logData),
    ("TNT721TokenUnlocked(string,address,uint256,uint256,uint256)",
      extractTNT721TokenUnlockedEvent r chainID logData),
    ("TNT1155TokenUnlocked(string,address,uint256,uint256,uint256,uint256)",
      extractTNT1155TokenUnlockedEvent r chainID logData)]

end Extract

/-- `QueryInterChainEventLog` on the logs of the response.  A request that fails or a
response that cannot be decoded gives no logs. -/
def queryInterChainEventLog (r : LogReader) (queriedChainID : BigInt) :
    List LogData → Option (List InterChainMessageEvent)
  | [] => some []
  | logData :: rest => do
    let topic ← logData.topics.head?
    match (eventExtractors r queriedChainID logData).find? fun c => r.keccak256Hex c.1 == topic with
    | some c => do
      let event ← c.2
      let events ← queryInterChainEventLog r queriedChainID rest
      return event :: events
    | none => queryInterChainEventLog r queriedChainID rest

end ThetaSubchain
