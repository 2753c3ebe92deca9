/-
The witness of the metachain (interchain/witness/metachain_witness.go and
metachain_witness_state.go).
-/
import ThetaSubchain.Core.Validator
import ThetaSubchain.Interchain.EventCache

namespace ThetaSubchain

open InterChainMessageEventType

structure ChainRpc where
  getMaxProcessedTokenLockNonce : TokenBank → Int → Option Int
  getTokenLockEventHeight : TokenBank → Int → Int → Option Int
  getMaxProcessedVoucherBurnNonce : TokenBank → Int → Option Int
  getVoucherBurnEventHeight : TokenBank → Int → Int → Option Int
  blockNumber : InterChainMessageEventType → Bool → Option UInt64

structure WitnessConfig where
  mainchainID : Int
  subchainID : Int
  distinct : mainchainID ≠ subchainID

def WitnessConfig.chainID (cfg : WitnessConfig) : ChainSide → Int
  | .mainchain => cfg.mainchainID
  | .subchain => cfg.subchainID

def blockHeight (h : Option UInt64) : Int := (h.getD 0).toInt64.toInt

def lookUpNonce (maxProcessedNonce : Option Int) (eventHeight : Int → Option Int) :
    Option Int × Option Int :=
  (maxProcessedNonce, maxProcessedNonce.bind eventHeight)

def maxProcessedNonceEventHeight (current : Option UInt64) : Option Int × Option Int → Int
  | (some nonce, some height) => if nonce = 0 then blockHeight current else height
  | _ => 0

section StartingHeight

variable (cfg : WitnessConfig) (main sub : ChainRpc) (icmeType : InterChainMessageEventType)

/-- `none` is a panic.  The height of a TNT1155 lock event is asked of the TNT721 bank. -/
def getMainchainMaxProcessedNonceEventHeight : Option Int :=
  let lock bank heightBank := some (lookUpNonce
    (sub.getMaxProcessedTokenLockNonce bank cfg.mainchainID)
    (main.getTokenLockEventHeight heightBank cfg.subchainID))
  let burn bank := some (lookUpNonce
    (sub.getMaxProcessedVoucherBurnNonce bank cfg.mainchainID)
    (main.getVoucherBurnEventHeight bank cfg.subchainID))
  (if icmeType = crossChainTokenLockTFuel then lock .tfuel .tfuel
  else if icmeType = crossChainTokenLockTNT20 then lock .tnt20 .tnt20
  else if icmeType = crossChainTokenLockTNT721 then lock .tnt721 .tnt721
  else if icmeType = crossChainTokenLockTNT1155 then lock .tnt1155 .tnt721
  else if icmeType = crossChainVoucherBurnTFuel then
    some (some 0, some (blockHeight (main.blockNumber icmeType false)))
  else if icmeType = crossChainVoucherBurnTNT20 then burn .tnt20
  else if icmeType = crossChainVoucherBurnTNT721 then burn .tnt721
  else if icmeType = crossChainVoucherBurnTNT1155 then burn .tnt1155
  else none).map (maxProcessedNonceEventHeight (main.blockNumber icmeType true))

def getSubchainMaxProcessedNonceEventHeight : Option Int :=
  let lock bank := some (lookUpNonce
    (main.getMaxProcessedTokenLockNonce bank cfg.subchainID)
    (sub.getTokenLockEventHeight bank cfg.mainchainID))
  let burn bank := some (lookUpNonce
    (main.getMaxProcessedVoucherBurnNonce bank cfg.subchainID)
    (sub.getVoucherBurnEventHeight bank cfg.mainchainID))
  (if icmeType = crossChainTokenLockTFuel then
    some (some 0, some (blockHeight (sub.blockNumber icmeType false)))
  else if icmeType = crossChainTokenLockTNT20 then lock .tnt20
  else if icmeType = crossChainTokenLockTNT721 then lock .tnt721
  else if icmeType = crossChainTokenLockTNT1155 then lock .tnt1155
  else if icmeType = crossChainVoucherBurnTFuel then burn .tfuel
  else if icmeType = crossChainVoucherBurnTNT20 then burn .tnt20
  else if icmeType = crossChainVoucherBurnTNT721 then burn .tnt721
  else if icmeType = crossChainVoucherBurnTNT1155 then burn .tnt1155
  else none).map (maxProcessedNonceEventHeight (sub.blockNumber icmeType true))

/-- The event types that are looked up.  TNT1155 locks are not among them. -/
def scanEventTypes : List InterChainMessageEventType :=
  [crossChainTokenLockTFuel, crossChainTokenLockTNT20, crossChainTokenLockTNT721,
    crossChainVoucherBurnTFuel, crossChainVoucherBurnTNT20, crossChainVoucherBurnTNT721,
    crossChainVoucherBurnTNT1155]

def eventHeightOn (queriedChainID : Int) : Option Int :=
  if queriedChainID = cfg.mainchainID then
    getMainchainMaxProcessedNonceEventHeight cfg main sub icmeType
  else if queriedChainID = cfg.subchainID then
    getSubchainMaxProcessedNonceEventHeight cfg main sub icmeType
  else none

def getBlockScanStartingHeight (queriedChainID : Int) : Option Int := do
  let updateHeight ← scanEventTypes.foldlM (fun updateHeight eventType => do
    let height ← eventHeightOn cfg main sub eventType queriedChainID
    return if height < updateHeight then height else updateHeight) (2 ^ 64 - 1)
  return if updateHeight > 5 then updateHeight - 5 else 0

end StartingHeight

structure Witness where
  mainchainBlockHeight : Option Int
  subchainBlockHeight : Option Int
  witnessedDynasty : Int
  validatorSetCache : Int → Option ValidatorSet
  /-- In the database, under the ID of the chain. -/
  lastQueryedHeight : Int → Option Int
  calls : List InterChainEventCache.Call
  running : Bool

structure CollectAnswers where
  readFailed : Bool
  main : ChainRpc
  sub : ChainRpc
  logs : List LogData

structure UpdateAnswers where
  mainchainHeight : Option UInt64
  validatorSet : Option (List Address × List Int)
  mainchain : CollectAnswers
  subchain : CollectAnswers
  subchainHeight : Option UInt64

namespace Witness

variable (cfg : WitnessConfig) (r : LogReader)

variable (w : Witness) (side : ChainSide)

def blockHeightOf : ChainSide → Option Int
  | .mainchain => w.mainchainBlockHeight
  | .subchain => w.subchainBlockHeight

def calculateToBlock (fromBlock : Int) : Int :=
  match w.blockHeightOf side with
  | none => fromBlock
  | some toBlock => if toBlock - fromBlock > 300 then fromBlock + 300 else toBlock - 2

/-- A negative height cannot be stored, and the error is not looked at. -/
def setLastQueryedHeightForType (chainID height : Int) : Witness :=
  if height < 0 then w
  else { w with lastQueryedHeight := Function.update w.lastQueryedHeight chainID (some height) }

def fromBlock (ans : CollectAnswers) : Option (Int × Bool) :=
  if ans.readFailed then some (0, false)
  else match w.lastQueryedHeight (cfg.chainID side) with
    | some height => some (height, false)
    | none =>
      (getBlockScanStartingHeight cfg ans.main ans.sub (cfg.chainID side)).map fun h => (h, true)

def stop : Witness := { w with running := false }

def collectInterChainMessageEventsOnChain (ans : CollectAnswers) : Witness :=
  match w.fromBlock cfg side ans with
  | none => w.stop
  | some (fromBlock, first) =>
    let w := if first then w.setLastQueryedHeightForType (cfg.chainID side) fromBlock else w
    let toBlock := w.calculateToBlock side fromBlock
    match queryInterChainEventLog r (some (cfg.chainID side)) ans.logs with
    | none => w.stop
    | some events =>
      let inserted := InterChainEventCache.insertList (InterChainEventCache.run w.calls) events
      let w := { w with calls := w.calls ++ [InterChainEventCache.Call.insertList events] }
      if inserted.2.isSome then w.stop
      else w.setLastQueryedHeightForType (cfg.chainID side) toBlock

def updateValidatorSetCache (dynasty : Int)
    (ans : Option (List Address × List Int)) : Witness × Option ValidatorSet :=
  match ans with
  | none => (w, none)
  | some (validatorAddrs, validatorStakes) =>
    if validatorAddrs.length ≠ validatorStakes.length then (w, none)
    else
      let validatorSet := (validatorAddrs.zip validatorStakes).foldl
        (fun vs v => vs.addValidator ⟨v.1, v.2⟩) (ValidatorSet.new dynasty)
      ({ w with
          validatorSetCache := Function.update w.validatorSetCache dynasty (some validatorSet) },
        some validatorSet)

def updateMainchainBlockHeight (h : Option UInt64) : Witness :=
  match h with
  | none => w
  | some _ => { w with mainchainBlockHeight := some (blockHeight h) }

def updateSubchainBlockHeight (h : Option UInt64) : Witness :=
  match h with
  | none => w
  | some _ => { w with subchainBlockHeight := some (blockHeight h) }

def update (ans : UpdateAnswers) : Witness :=
  let w := w.updateMainchainBlockHeight ans.mainchainHeight
  match w.mainchainBlockHeight with
  | none => w.stop
  | some height =>
    let dynasty := calculateDynasty height
    let w := if dynasty > w.witnessedDynasty then
      { (w.updateValidatorSetCache dynasty ans.validatorSet).1 with witnessedDynasty := dynasty }
      else w
    let w := w.collectInterChainMessageEventsOnChain cfg r .mainchain ans.mainchain
    if !w.running then w
    else
      let w := w.collectInterChainMessageEventsOnChain cfg r .subchain ans.subchain
      if !w.running then w else w.updateSubchainBlockHeight ans.subchainHeight

def restart : Witness :=
  { w with
    mainchainBlockHeight := none
    subchainBlockHeight := none
    witnessedDynasty := 0
    validatorSetCache := fun _ => none
    running := true }

inductive Event where
  | update (ans : UpdateAnswers)
  | cache (call : InterChainEventCache.Call)
  | restart

def step : Event → Witness
  | .update ans => if w.running then w.update cfg r ans else w
  | .cache call => { w with calls := w.calls ++ [call] }
  | .restart => w.restart

end Witness

end ThetaSubchain
