/-
The orchestrator (interchain/orchestrator/orchestrator.go).

The functions that mint vouchers compare the target chain of the lock event with the chain they
call.  The functions that unlock tokens do not.
-/
import ThetaSubchain.Interchain.EventCache
import ThetaSubchain.Interchain.ParseEvent

namespace ThetaSubchain

open InterChainMessageEventType InterChainEventCache.Call

inductive TokenBankCall where
  | mintTFuel (denom : Bytes) (receiver : Address) (amount : BigInt) (dynasty : Int)
      (nonce : BigInt)
  | mintTNT20 (denom name symbol : Bytes) (decimals : UInt8) (receiver : Address)
      (amount : BigInt) (dynasty : Int) (nonce : BigInt)
  | mintTNT721 (denom name symbol : Bytes) (receiver : Address) (tokenID : BigInt)
      (tokenURI : Bytes) (dynasty : Int) (nonce : BigInt)
  | mintTNT1155 (denom : Bytes) (receiver : Address) (tokenID amount : BigInt)
      (tokenURI : Bytes) (dynasty : Int) (nonce : BigInt)
  | unlockTFuel (sourceChainID : BigInt) (receiver : Address) (amount : BigInt) (dynasty : Int)
      (nonce : BigInt)
  | unlockTNT20 (sourceChainID : BigInt) (denom : Bytes) (receiver : Address) (amount : BigInt)
      (dynasty : Int) (nonce : BigInt)
  | unlockTNT721 (sourceChainID : BigInt) (denom : Bytes) (receiver : Address)
      (tokenID : BigInt) (dynasty : Int) (nonce : BigInt)
  | unlockTNT1155 (sourceChainID : BigInt) (denom : Bytes) (receiver : Address)
      (tokenID amount : BigInt) (dynasty : Int) (nonce : BigInt)
deriving DecidableEq

structure TxOpts where
  chainID : Int
  nonce : UInt64
  value : Nat
  gasLimit : UInt64
  gasPrice : Int
deriving DecidableEq

structure Submission where
  txOpts : TxOpts
  side : ChainSide
  call : TokenBankCall
deriving DecidableEq

structure Orchestrator where
  mainchainID : Int
  subchainID : Int
  /-- In seconds. -/
  mainchainBlockInterval : Int
  minBlockInterval : Int

structure OrchestratorState where
  interChainEventCache : EventDB
  /-- In nanoseconds, under the ID of the event. -/
  eventProcessedTime : Hash → Option Int

structure OrchestratorAnswers where
  now : Int
  dynasty : Option Int
  suggestGasPrice : Except String Int
  pendingNonceAt : Except String UInt64
  newKeyedTransactor : Except String Unit
  tokenBank : Except String Hash

namespace Orchestrator

variable (oc : Orchestrator) (p : EventParser) (ans : OrchestratorAnswers)

/-- The chain on which the bank is that `getTFuelTokenBank` and its three siblings return. -/
def getTokenBank (chainID : Int) : ChainSide :=
  if chainID = oc.mainchainID then .mainchain else .subchain

def chainIDOf : ChainSide → Int
  | .mainchain => oc.mainchainID
  | .subchain => oc.subchainID

def getRetryThreshold (chainID : Int) : Int :=
  let blockIntervalInSeconds :=
    if chainID = oc.mainchainID then oc.mainchainBlockInterval else oc.minBlockInterval
  (4 * blockIntervalInSeconds * 1000000000).bmod (2 ^ 64)

def external {α : Type} : Except String α → Except Failure α
  | .ok a => .ok a
  | .error message => .error (.error message)

/-- The gas price is asked for on the mainchain only. -/
def buildTxOpts (chainID : Int) : Except Failure TxOpts := do
  let gasPrice ← if chainID = oc.mainchainID then external ans.suggestGasPrice else .ok 0
  let nonce ← external ans.pendingNonceAt
  external ans.newKeyedTransactor
  return ⟨chainID, nonce, 0, 10000000, gasPrice⟩

def getDynasty : Except Failure Int :=
  match ans.dynasty with
  | some dynasty => .ok dynasty
  | none => .error (.error "nil dynasty")

def checkTargetChain (targetChainID : Int) (se : TokenBankEvent) : Except Failure Unit :=
  match se.targetChainID with
  | none => .error .nilPointer
  | some n => if targetChainID ≠ n then .error .targetChainMismatch else .ok ()

def mintVouchers (parse : InterChainMessageEvent → Except Failure (TokenBankEvent × TokenDetails))
    (call : TokenBankEvent → TokenDetails → Int → TokenBankCall) (txOpts : TxOpts)
    (targetChainID : Int) (sourceEvent : InterChainMessageEvent) : Except Failure Submission := do
  let (se, details) ← parse sourceEvent
  checkTargetChain targetChainID se
  let dynasty ← getDynasty ans
  return ⟨txOpts, oc.getTokenBank targetChainID, call se details dynasty⟩

def unlockTokens (parse : InterChainMessageEvent → Except Failure (TokenBankEvent × TokenDetails))
    (call : InterChainMessageEvent → TokenBankEvent → TokenDetails → Int → TokenBankCall)
    (txOpts : TxOpts) (targetChainID : Int) (sourceEvent : InterChainMessageEvent) :
    Except Failure Submission := do
  let (se, details) ← parse sourceEvent
  let dynasty ← getDynasty ans
  return ⟨txOpts, oc.getTokenBank targetChainID, call sourceEvent se details dynasty⟩

def mintTFuelVouchers :=
  mintVouchers oc ans (parseToCrossChainTFuelTokenLockedEvent p) fun se details dynasty =>
    .mintTFuel se.denom se.receiver details.amount dynasty se.nonce

def mintTNT20Vouchers :=
  mintVouchers oc ans (parseToCrossChainTNT20TokenLockedEvent p) fun se details dynasty =>
    .mintTNT20 se.denom details.name details.symbol details.decimals se.receiver details.amount
      dynasty se.nonce

def mintTN721Vouchers :=
  mintVouchers oc ans (parseToCrossChainTNT721TokenLockedEvent p) fun se details dynasty =>
    .mintTNT721 se.denom details.name details.symbol se.receiver details.tokenID
      details.tokenURI dynasty se.nonce

def mintTN1155Vouchers :=
  mintVouchers oc ans (parseToCrossChainTNT1155TokenLockedEvent p) fun se details dynasty =>
    .mintTNT1155 se.denom se.receiver details.tokenID details.amount details.tokenURI dynasty
      se.nonce

def unlockTFuelTokens :=
  unlockTokens oc ans (parseToCrossChainTFuelVoucherBurnedEvent p)
    fun sourceEvent se details dynasty =>
      .unlockTFuel sourceEvent.sourceChainID se.receiver details.amount dynasty se.nonce

def unlockTNT20Tokens :=
  unlockTokens oc ans (parseToCrossChainTNT20VoucherBurnedEvent p)
    fun sourceEvent se details dynasty =>
      .unlockTNT20 sourceEvent.sourceChainID se.denom se.receiver details.amount dynasty se.nonce

def unlockTNT721Tokens :=
  unlockTokens oc ans (parseToCrossChainTNT721VoucherBurnedEvent p)
    fun sourceEvent se details dynasty =>
      .unlockTNT721 sourceEvent.sourceChainID se.denom se.receiver details.tokenID dynasty
        se.nonce

def unlockTNT1155Tokens :=
  unlockTokens oc ans (parseToCrossChainTNT1155VoucherBurnedEvent p)
    fun sourceEvent se details dynasty =>
      .unlockTNT1155 sourceEvent.sourceChainID se.denom se.receiver details.tokenID
        details.amount dynasty se.nonce

def targetCall (targetEventType : InterChainMessageEventType) :
    Option (TxOpts → Int → InterChainMessageEvent → Except Failure Submission) :=
  if targetEventType = crossChainVoucherMintTFuel then some (mintTFuelVouchers oc p ans)
  else if targetEventType = crossChainVoucherMintTNT20 then some (mintTNT20Vouchers oc p ans)
  else if targetEventType = crossChainVoucherMintTNT721 then some (mintTN721Vouchers oc p ans)
  else if targetEventType = crossChainVoucherMintTNT1155 then some (mintTN1155Vouchers oc p ans)
  else if targetEventType = crossChainTokenUnlockTFuel then some (unlockTFuelTokens oc p ans)
  else if targetEventType = crossChainTokenUnlockTNT20 then some (unlockTNT20Tokens oc p ans)
  else if targetEventType = crossChainTokenUnlockTNT721 then some (unlockTNT721Tokens oc p ans)
  else if targetEventType = crossChainTokenUnlockTNT1155 then some (unlockTNT1155Tokens oc p ans)
  else none

/-- The transaction that is sent, and the error that is returned.  A call to another chain
than the one of the lock event is dropped without an error. -/
def callTargetContract (targetChainID : Int) (targetEventType : InterChainMessageEventType)
    (sourceEvent : InterChainMessageEvent) : Option Submission × Except Failure Unit :=
  match oc.buildTxOpts ans targetChainID with
  | .error e => (none, .error e)
  | .ok txOpts =>
    match oc.targetCall p ans targetEventType with
    | none => (none, .ok ())
    | some call =>
      match call txOpts targetChainID sourceEvent with
      | .error .targetChainMismatch => (none, .ok ())
      | .error e => (none, .error e)
      | .ok submission => (some submission, (external ans.tokenBank).map fun _ => ())

/-- `none` stops the process. -/
def getTargetChainCorrespondingEventType (eventType : InterChainMessageEventType) :
    Option InterChainMessageEventType :=
  if eventType = crossChainTokenLockTFuel then some crossChainVoucherMintTFuel
  else if eventType = crossChainTokenLockTNT20 then some crossChainVoucherMintTNT20
  else if eventType = crossChainTokenLockTNT721 then some crossChainVoucherMintTNT721
  else if eventType = crossChainTokenLockTNT1155 then some crossChainVoucherMintTNT1155
  else if eventType = crossChainVoucherBurnTFuel then some crossChainTokenUnlockTFuel
  else if eventType = crossChainVoucherBurnTNT20 then some crossChainTokenUnlockTNT20
  else if eventType = crossChainVoucherBurnTNT721 then some crossChainTokenUnlockTNT721
  else if eventType = crossChainVoucherBurnTNT1155 then some crossChainTokenUnlockTNT1155
  else none

def eventID (event : InterChainMessageEvent) : Hash :=
  p.keccak256 (Decimal.ofNat event.type.toNat ++ 47 :: (event.sourceChainID.string ++
    47 :: event.nonce.string))

def maxDuration : Int := 2 ^ 63 - 1

def timeElapsedSinceEventProcessed (st : OrchestratorState) (event : InterChainMessageEvent) :
    Int :=
  match st.eventProcessedTime (eventID p event) with
  | some processedTime => min (ans.now - processedTime) maxDuration
  | none => maxDuration

def updateEventProcessedTime (st : OrchestratorState) (event : InterChainMessageEvent) :
    OrchestratorState :=
  { st with eventProcessedTime :=
      Function.update st.eventProcessedTime (eventID p event) (some ans.now) }

def cleanUpInterChainEventCache (st : OrchestratorState) (sourceChainID : Int)
    (eventType : InterChainMessageEventType) (maxProcessedNonce : Int) : OrchestratorState :=
  match InterChainEventCache.get st.interChainEventCache (some sourceChainID) eventType
    (some maxProcessedNonce) with
  | .ok _ =>
    ⟨InterChainEventCache.delete st.interChainEventCache (some sourceChainID) eventType
      (some maxProcessedNonce), st.eventProcessedTime⟩
  | .error _ => st

/-- The transaction that is sent, and the state, which is missing if the process has ended.
The records of the cache are those that the cache has written, so each one can be read. -/
def processNextEvent (st : OrchestratorState) (sourceChainID targetChainID : Int)
    (sourceChainEventType : InterChainMessageEventType) (maxProcessedNonce : Int) :
    Option Submission × Option OrchestratorState :=
  let st := cleanUpInterChainEventCache st sourceChainID sourceChainEventType maxProcessedNonce
  match InterChainEventCache.get st.interChainEventCache (some sourceChainID)
    sourceChainEventType (some (maxProcessedNonce + 1)) with
  | .error _ => (none, some st)
  | .ok sourceEvent =>
    match getTargetChainCorrespondingEventType sourceChainEventType with
    | none => (none, none)
    | some targetEventType =>
      if timeElapsedSinceEventProcessed p ans st sourceEvent > oc.getRetryThreshold targetChainID
      then match oc.callTargetContract p ans targetChainID targetEventType sourceEvent with
        | (submission, .ok ()) => (submission, some (updateEventProcessedTime p ans st sourceEvent))
        | (submission, .error .nilPointer) => (submission, none)
        | (submission, .error _) => (submission, some st)
      else (none, some st)

def Handled (sourceChainID targetChainID : Int) : Prop :=
  (sourceChainID, targetChainID) ∈
    [(oc.mainchainID, oc.subchainID), (oc.subchainID, oc.mainchainID)]

instance (sourceChainID targetChainID : Int) :
    Decidable (oc.Handled sourceChainID targetChainID) :=
  inferInstanceAs (Decidable (_ ∈ _))

variable {oc p ans} {sourceEvent : InterChainMessageEvent} {txOpts : TxOpts}
  {targetChainID sourceChainID maxProcessedNonce : Int} {submission : Submission}
  {type : InterChainMessageEventType} {st : OrchestratorState}

theorem checkTargetChain_eq_ok {se : TokenBankEvent} {u : Unit}
    (h : checkTargetChain targetChainID se = .ok u) : se.targetChainID = some targetChainID := by
  unfold checkTargetChain at h
  cases ht : se.targetChainID with
  | none =>
    rw [ht] at h
    cases h
  | some n =>
    rw [ht] at h
    dsimp only at h
    by_cases hn : targetChainID = n
    · rw [hn]
    · rw [if_pos hn] at h
      cases h

theorem mintVouchers_eq_ok
    {parse : InterChainMessageEvent → Except Failure (TokenBankEvent × TokenDetails)}
    {call : TokenBankEvent → TokenDetails → Int → TokenBankCall}
    (h : mintVouchers oc ans parse call txOpts targetChainID sourceEvent = .ok submission) :
    ∃ se, parse sourceEvent = .ok se ∧ se.1.targetChainID = some targetChainID ∧
      submission.side = oc.getTokenBank targetChainID := by
  obtain ⟨se, hse, h⟩ := Ending.bind_eq_ok.1 h
  obtain ⟨_, hcheck, h⟩ := Ending.bind_eq_ok.1 h
  obtain ⟨dynasty, -, h⟩ := Ending.bind_eq_ok.1 h
  rw [← Except.ok.inj h]
  exact ⟨se, hse, checkTargetChain_eq_ok hcheck, rfl⟩

theorem unlockTokens_eq_ok
    {parse : InterChainMessageEvent → Except Failure (TokenBankEvent × TokenDetails)}
    {call : InterChainMessageEvent → TokenBankEvent → TokenDetails → Int → TokenBankCall}
    (h : unlockTokens oc ans parse call txOpts targetChainID sourceEvent = .ok submission) :
    ∃ se, parse sourceEvent = .ok se ∧ submission.side = oc.getTokenBank targetChainID := by
  obtain ⟨se, hse, h⟩ := Ending.bind_eq_ok.1 h
  obtain ⟨dynasty, -, h⟩ := Ending.bind_eq_ok.1 h
  rw [← Except.ok.inj h]
  exact ⟨se, hse, rfl⟩

theorem callTargetContract_submission
    (h : (oc.callTargetContract p ans targetChainID type sourceEvent).1 = some submission) :
    ∃ call txOpts, oc.targetCall p ans type = some call ∧
      call txOpts targetChainID sourceEvent = .ok submission := by
  unfold callTargetContract at h
  split at h
  next => cases h
  next txOpts _ =>
    split at h
    next => cases h
    next call hcall =>
      split at h
      next => cases h
      next => cases h
      next s hs =>
        cases h
        exact ⟨call, txOpts, hcall, hs⟩

theorem get_cleanUp (st : OrchestratorState) (sourceChainID : Int)
    (type : InterChainMessageEventType) (nonce : Int) :
    InterChainEventCache.get
        (cleanUpInterChainEventCache st sourceChainID type nonce).interChainEventCache
        (some sourceChainID) type (some (nonce + 1)) =
      InterChainEventCache.get st.interChainEventCache (some sourceChainID) type
        (some (nonce + 1)) := by
  have hkey : interChainEventIndexKey (some sourceChainID) type (some (nonce + 1)) ≠
      interChainEventIndexKey (some sourceChainID) type (some nonce) := by
    intro h
    have hnonce := Option.some.inj (InterChainEventCache.key_inj h).2.2
    omega
  unfold cleanUpInterChainEventCache
  split
  · dsimp only
    rw [InterChainEventCache.get, InterChainEventCache.get, InterChainEventCache.delete,
      Function.update_of_ne hkey]
  · rfl

theorem processNextEvent_submission
    (h : (oc.processNextEvent p ans st sourceChainID targetChainID type maxProcessedNonce).1 =
      some submission) :
    ∃ sourceEvent targetType,
      InterChainEventCache.get st.interChainEventCache (some sourceChainID) type
        (some (maxProcessedNonce + 1)) = .ok sourceEvent ∧
      getTargetChainCorrespondingEventType type = some targetType ∧
      (oc.callTargetContract p ans targetChainID targetType sourceEvent).1 =
        some submission := by
  unfold processNextEvent at h
  dsimp only at h
  rw [get_cleanUp] at h
  split at h
  next => cases h
  next sourceEvent hget =>
    split at h
    next => cases h
    next targetType htype =>
      split at h
      next =>
        refine ⟨sourceEvent, targetType, hget, htype, ?_⟩
        split at h
        next s hs => rw [hs]; exact h
        next s hs => rw [hs]; exact h
        next s e _ hs => rw [hs]; exact h
      next => cases h

/-- The chain that an event designates: the target chain of a lock event, and the chain in the
denom of a burn event. -/
def designatedChain (p : EventParser) (event : InterChainMessageEvent) : BigInt :=
  let lock bank name := (p.unpackIntoInterface bank name event.data).targetChainID
  let burn bank name :=
    extractOriginatedChainIDFromDenom (p.unpackIntoInterface bank name event.data).denom
  if event.type = crossChainTokenLockTFuel then lock .tfuel "TFuelTokenLocked"
  else if event.type = crossChainTokenLockTNT20 then lock .tnt20 "TNT20TokenLocked"
  else if event.type = crossChainTokenLockTNT721 then lock .tnt721 "TNT721TokenLocked"
  else if event.type = crossChainTokenLockTNT1155 then lock .tnt1155 "TNT1155TokenLocked"
  else if event.type = crossChainVoucherBurnTFuel then burn .tfuel "TFuelVoucherBurned"
  else if event.type = crossChainVoucherBurnTNT20 then burn .tnt20 "TNT20VoucherBurned"
  else if event.type = crossChainVoucherBurnTNT721 then burn .tnt721 "TNT721VoucherBurned"
  else if event.type = crossChainVoucherBurnTNT1155 then burn .tnt1155 "TNT1155VoucherBurned"
  else none

def lockParser (p : EventParser) (type : InterChainMessageEventType) :
    Option (InterChainMessageEvent → Except Failure (TokenBankEvent × TokenDetails)) :=
  if type = crossChainTokenLockTFuel then some (parseToCrossChainTFuelTokenLockedEvent p)
  else if type = crossChainTokenLockTNT20 then some (parseToCrossChainTNT20TokenLockedEvent p)
  else if type = crossChainTokenLockTNT721 then some (parseToCrossChainTNT721TokenLockedEvent p)
  else if type = crossChainTokenLockTNT1155 then some (parseToCrossChainTNT1155TokenLockedEvent p)
  else none

def burnParser (p : EventParser) (type : InterChainMessageEventType) :
    Option (InterChainMessageEvent → Except Failure (TokenBankEvent × TokenDetails)) :=
  if type = crossChainVoucherBurnTFuel then some (parseToCrossChainTFuelVoucherBurnedEvent p)
  else if type = crossChainVoucherBurnTNT20 then some (parseToCrossChainTNT20VoucherBurnedEvent p)
  else if type = crossChainVoucherBurnTNT721 then
    some (parseToCrossChainTNT721VoucherBurnedEvent p)
  else if type = crossChainVoucherBurnTNT1155 then
    some (parseToCrossChainTNT1155VoucherBurnedEvent p)
  else none

section Parsers

variable {parse : InterChainMessageEvent → Except Failure (TokenBankEvent × TokenDetails)}
  {se : TokenBankEvent × TokenDetails}

theorem designatedChain_of_lock (hparse : lockParser p type = some parse)
    (hse : parse sourceEvent = .ok se) : designatedChain p sourceEvent = se.1.targetChainID := by
  unfold lockParser at hparse
  split_ifs at hparse <;> cases hparse
  all_goals
    obtain ⟨htype, htarget, -⟩ := parseTo_eq_ok hse
    rw [designatedChain, htype, htarget]
    rfl

theorem designatedChain_of_burn (hparse : burnParser p type = some parse)
    (hse : parse sourceEvent = .ok se) :
    designatedChain p sourceEvent = sourceEvent.targetChainID := by
  unfold burnParser at hparse
  split_ifs at hparse <;> cases hparse
  all_goals
    obtain ⟨htype, -, hdenom, n, hn, hchain⟩ := parseTo_eq_ok hse
    have hdenom := hdenom rfl
    rw [hdenom] at hn
    rw [hchain, ← extractOriginatedChainIDFromDenom_eq hn, designatedChain, htype]
    rfl

theorem targetCall_lock (oc : Orchestrator) (ans : OrchestratorAnswers)
    (hparse : lockParser p type = some parse) :
    ∃ targetType call, getTargetChainCorrespondingEventType type = some targetType ∧
      oc.targetCall p ans targetType = some (mintVouchers oc ans parse call) := by
  unfold lockParser at hparse
  split_ifs at hparse with h1 h2 h3 h4 <;> cases hparse
  · exact ⟨crossChainVoucherMintTFuel, _, by rw [h1]; rfl, rfl⟩
  · exact ⟨crossChainVoucherMintTNT20, _, by rw [h2]; rfl, rfl⟩
  · exact ⟨crossChainVoucherMintTNT721, _, by rw [h3]; rfl, rfl⟩
  · exact ⟨crossChainVoucherMintTNT1155, _, by rw [h4]; rfl, rfl⟩

theorem targetCall_burn (oc : Orchestrator) (ans : OrchestratorAnswers)
    (hparse : burnParser p type = some parse) :
    ∃ targetType call, getTargetChainCorrespondingEventType type = some targetType ∧
      oc.targetCall p ans targetType = some (unlockTokens oc ans parse call) := by
  unfold burnParser at hparse
  split_ifs at hparse with h1 h2 h3 h4 <;> cases hparse
  · exact ⟨crossChainTokenUnlockTFuel, _, by rw [h1]; rfl, rfl⟩
  · exact ⟨crossChainTokenUnlockTNT20, _, by rw [h2]; rfl, rfl⟩
  · exact ⟨crossChainTokenUnlockTNT721, _, by rw [h3]; rfl, rfl⟩
  · exact ⟨crossChainTokenUnlockTNT1155, _, by rw [h4]; rfl, rfl⟩

theorem parser_of_target {targetType : InterChainMessageEventType} (p : EventParser)
    (h : getTargetChainCorrespondingEventType type = some targetType) :
    ∃ parse, lockParser p type = some parse ∨ burnParser p type = some parse := by
  unfold getTargetChainCorrespondingEventType at h
  split_ifs at h with h1 h2 h3 h4 h5 h6 h7 h8
  · exact ⟨_, .inl (by rw [h1]; rfl)⟩
  · exact ⟨_, .inl (by rw [h2]; rfl)⟩
  · exact ⟨_, .inl (by rw [h3]; rfl)⟩
  · exact ⟨_, .inl (by rw [h4]; rfl)⟩
  · exact ⟨_, .inr (by rw [h5]; rfl)⟩
  · exact ⟨_, .inr (by rw [h6]; rfl)⟩
  · exact ⟨_, .inr (by rw [h7]; rfl)⟩
  · exact ⟨_, .inr (by rw [h8]; rfl)⟩

end Parsers

section Routing

variable (oc p) (calls : List InterChainEventCache.Call) (processed : Hash → Option Int)
  (sourceChainID targetChainID : Int) (type : InterChainMessageEventType) (maxProcessedNonce : Int)

/-- Whatever the services answer, a transaction is sent only to the bank of the target chain,
and only for an event in the cache that designates this chain. -/
def Routed : Prop :=
  ∀ ans submission,
    (oc.processNextEvent p ans ⟨InterChainEventCache.run calls, processed⟩ sourceChainID
      targetChainID type maxProcessedNonce).1 = some submission →
    oc.chainIDOf submission.side = targetChainID ∧
    ∃ e event, .put e ∈ InterChainEventCache.history calls ∧ e.readBack = event ∧
      InterChainEventCache.get (InterChainEventCache.run calls) (some sourceChainID) type
        (some (maxProcessedNonce + 1)) = .ok event ∧
      designatedChain p event = some targetChainID

/-- The next event in the cache, if it is a burn event that can be parsed, is for the target
chain. -/
def NextBurnForTarget : Prop :=
  ∀ parse event se, burnParser p type = some parse →
    InterChainEventCache.get (InterChainEventCache.run calls) (some sourceChainID) type
      (some (maxProcessedNonce + 1)) = .ok event →
    parse event = .ok se → event.targetChainID = some targetChainID

end Routing

theorem getRetryThreshold_lt (oc : Orchestrator) (chainID : Int) :
    oc.getRetryThreshold chainID < maxDuration := by
  unfold getRetryThreshold maxDuration
  dsimp only
  generalize (if chainID = oc.mainchainID then oc.mainchainBlockInterval
    else oc.minBlockInterval) = n
  have hlt := Int.bmod_lt (x := 4 * n * 1000000000) (m := 2 ^ 64) (by norm_num)
  have hdiv := Int.bmod_add_bdiv (4 * n * 1000000000) (2 ^ 64)
  norm_num at hlt hdiv ⊢
  omega

theorem chainIDOf_getTokenBank (h : oc.Handled sourceChainID targetChainID) :
    oc.chainIDOf (oc.getTokenBank targetChainID) = targetChainID := by
  unfold getTokenBank
  by_cases hmain : targetChainID = oc.mainchainID
  · rw [if_pos hmain, hmain]
    rfl
  · rw [if_neg hmain]
    simp only [Handled, List.mem_cons, Prod.mk.injEq, List.not_mem_nil, or_false] at h
    rcases h with h | h
    · exact h.2.symm
    · exact absurd h.2 hmain

def willingAnswers (processed : Hash → Option Int) (event : InterChainMessageEvent)
    (p : EventParser) : OrchestratorAnswers where
  now := (processed (eventID p event)).getD 0 + maxDuration
  dynasty := some 0
  suggestGasPrice := .ok 0
  pendingNonceAt := .ok 0
  newKeyedTransactor := .ok ()
  tokenBank := .ok 0

theorem processNextEvent_willing {calls : List InterChainEventCache.Call}
    {processed : Hash → Option Int}
    {parse : InterChainMessageEvent → Except Failure (TokenBankEvent × TokenDetails)}
    {se : TokenBankEvent × TokenDetails} (hparse : burnParser p type = some parse)
    (hget : InterChainEventCache.get (InterChainEventCache.run calls) (some sourceChainID) type
      (some (maxProcessedNonce + 1)) = .ok sourceEvent) (hse : parse sourceEvent = .ok se) :
    ∃ submission, (oc.processNextEvent p (willingAnswers processed sourceEvent p)
      ⟨InterChainEventCache.run calls, processed⟩ sourceChainID targetChainID type
      maxProcessedNonce).1 = some submission := by
  obtain ⟨targetType, call, htype, hcall⟩ :=
    targetCall_burn oc (willingAnswers processed sourceEvent p) hparse
  have hopts : ∃ txOpts, oc.buildTxOpts (willingAnswers processed sourceEvent p) targetChainID =
      .ok txOpts := by
    unfold buildTxOpts
    by_cases hmain : targetChainID = oc.mainchainID
    · rw [if_pos hmain]
      exact ⟨_, rfl⟩
    · rw [if_neg hmain]
      exact ⟨_, rfl⟩
  obtain ⟨txOpts, htxOpts⟩ := hopts
  have hsend : unlockTokens oc (willingAnswers processed sourceEvent p) parse call txOpts
      targetChainID sourceEvent = .ok ⟨txOpts, oc.getTokenBank targetChainID,
        call sourceEvent se.1 se.2 0⟩ := by
    rw [unlockTokens, hse]
    rfl
  have hprocessed : ∀ st : OrchestratorState, st.eventProcessedTime = processed →
      timeElapsedSinceEventProcessed p (willingAnswers processed sourceEvent p) st sourceEvent =
        maxDuration := by
    intro st hst
    unfold timeElapsedSinceEventProcessed
    rw [hst]
    cases htime : processed (eventID p sourceEvent) with
    | none => rfl
    | some t =>
      have hnow : (willingAnswers processed sourceEvent p).now = t + maxDuration := by
        rw [willingAnswers, htime, Option.getD_some]
      dsimp only
      rw [hnow]
      omega
  have hclean : (cleanUpInterChainEventCache ⟨InterChainEventCache.run calls, processed⟩
      sourceChainID type maxProcessedNonce).eventProcessedTime = processed := by
    unfold cleanUpInterChainEventCache
    split <;> rfl
  refine ⟨⟨txOpts, oc.getTokenBank targetChainID, call sourceEvent se.1 se.2 0⟩, ?_⟩
  unfold processNextEvent
  dsimp only
  rw [get_cleanUp, hget]
  dsimp only
  rw [htype]
  dsimp only
  rw [hprocessed _ hclean, if_pos (getRetryThreshold_lt oc targetChainID), callTargetContract,
    htxOpts]
  dsimp only
  rw [hcall]
  dsimp only
  rw [hsend]
  rfl

/-- Every transaction goes to the chain that its event designates, exactly if the next burn
event in the cache is for the target chain. -/
theorem routed_iff_nextBurnForTarget (oc : Orchestrator) (p : EventParser)
    (calls : List InterChainEventCache.Call) (processed : Hash → Option Int)
    (type : InterChainMessageEventType) (maxProcessedNonce : Int)
    (hpair : oc.Handled sourceChainID targetChainID) :
    Routed oc p calls processed sourceChainID targetChainID type maxProcessedNonce ↔
      NextBurnForTarget p calls sourceChainID targetChainID type maxProcessedNonce := by
  constructor
  · intro hrouted parse event se hparse hget hse
    obtain ⟨submission, hsub⟩ := processNextEvent_willing hparse hget hse
    obtain ⟨-, _, event', -, -, hget', hdes⟩ := hrouted _ submission hsub
    rw [hget] at hget'
    cases hget'
    rw [← designatedChain_of_burn hparse hse, hdes]
  · intro hnext ans submission hsub
    obtain ⟨event, targetType, hget, htype, hcall⟩ := processNextEvent_submission hsub
    obtain ⟨call, txOpts, htarget, hok⟩ := callTargetContract_submission hcall
    obtain ⟨e, he, -, hback⟩ := InterChainEventCache.exists_put_of_get hget
    obtain ⟨parse, hparse | hparse⟩ := parser_of_target p htype
    · obtain ⟨targetType', c, htype', htarget'⟩ := targetCall_lock oc ans hparse
      rw [htype, Option.some.injEq] at htype'
      rw [← htype', htarget, Option.some.injEq] at htarget'
      rw [htarget'] at hok
      obtain ⟨se, hse, hchain, hside⟩ := mintVouchers_eq_ok hok
      refine ⟨by rw [hside, chainIDOf_getTokenBank hpair], e, event, he, hback, hget, ?_⟩
      rw [designatedChain_of_lock hparse hse, hchain]
    · obtain ⟨targetType', c, htype', htarget'⟩ := targetCall_burn oc ans hparse
      rw [htype, Option.some.injEq] at htype'
      rw [← htype', htarget, Option.some.injEq] at htarget'
      rw [htarget'] at hok
      obtain ⟨se, hse, hside⟩ := unlockTokens_eq_ok hok
      refine ⟨by rw [hside, chainIDOf_getTokenBank hpair], e, event, he, hback, hget, ?_⟩
      rw [designatedChain_of_burn hparse hse, hnext parse event se hparse hget hse]

open InterChainEventCache (sampleReader abiData abiUint abiHex)

def routingOrchestrator : Orchestrator := ⟨366, 360888, 6, 6⟩

def routingDenom (chainID : Bytes) : Bytes :=
  chainID ++ [47, 50, 48, 47] ++ tfuelAddressPlaceholder

def routingParser : EventParser where
  toLogReader := sampleReader
  unpackDetails _ _ data := ⟨some (abiUint data 3), none, [], [], 0, []⟩
  toLowerUnicode := id
  isHexAddress s := s.length == 42
  keccak256 _ := 0

def burnedData (denom : Bytes) : Bytes := abiData [160, 1, 2, 10, 1] denom

def routingLog (denom : Bytes) : LogData where
  blockNumber := [48, 120, 53]
  data := abiHex (burnedData denom)
  topics := ["TNT20VoucherBurned(string,address,address,uint256,uint256)"]

def routingBurn (denom : Bytes) (target : Int) : InterChainMessageEvent where
  type := crossChainVoucherBurnTNT20
  sourceChainID := some 366
  targetChainID := some target
  sender := 1
  receiver := 2
  data := burnedData denom
  nonce := some 1
  blockHeight := some 5

def routingAnswers : OrchestratorAnswers where
  now := 0
  dynasty := some 3
  suggestGasPrice := .ok 0
  pendingNonceAt := .ok 7
  newKeyedTransactor := .ok ()
  tokenBank := .ok 9

theorem routed_iff_nextBurnForTarget_own_voucher :
    let denom := routingDenom [51, 54, 48, 56, 56, 56]
    let calls := [insertList [routingBurn denom 360888]]
    queryInterChainEventLog routingParser.toLogReader (some 366) [routingLog denom] =
      some [routingBurn denom 360888] ∧
    (routingOrchestrator.processNextEvent routingParser routingAnswers
      ⟨InterChainEventCache.run calls, fun _ => none⟩ 366 360888 crossChainVoucherBurnTNT20 0).1 =
        some ⟨⟨360888, 7, 0, 10000000, 0⟩, .subchain, .unlockTNT20 (some 366) denom 2 (some 10) 3
          (some 1)⟩ ∧
    Routed routingOrchestrator routingParser calls (fun _ => none) 366 360888
      crossChainVoucherBurnTNT20 0 := by
  intro denom calls
  have hget : InterChainEventCache.get (InterChainEventCache.run calls) (some 366)
      crossChainVoucherBurnTNT20 (some (0 + 1)) = .ok (routingBurn denom 360888) := by
    decide +kernel
  refine ⟨by decide +kernel, by decide +kernel, ?_⟩
  refine (routed_iff_nextBurnForTarget routingOrchestrator routingParser calls (fun _ => none)
    crossChainVoucherBurnTNT20 0 (by decide)).2 ?_
  intro parse event se _ hevent _
  rw [hget] at hevent
  rw [← Except.ok.inj hevent]
  rfl

/-- A voucher of subchain 360777 is burned on the mainchain, and the tokens are unlocked on
subchain 360888. -/
theorem burn_of_another_subchain_is_sent :
    let denom := routingDenom [51, 54, 48, 55, 55, 55]
    let calls := [insertList [routingBurn denom 360777]]
    queryInterChainEventLog routingParser.toLogReader (some 366) [routingLog denom] =
      some [routingBurn denom 360777] ∧
    designatedChain routingParser (routingBurn denom 360777) = some 360777 ∧
    (routingOrchestrator.processNextEvent routingParser routingAnswers
      ⟨InterChainEventCache.run calls, fun _ => none⟩ 366 360888 crossChainVoucherBurnTNT20 0).1 =
        some ⟨⟨360888, 7, 0, 10000000, 0⟩, .subchain, .unlockTNT20 (some 366) denom 2 (some 10) 3
          (some 1)⟩ := by
  refine ⟨by decide +kernel, by decide +kernel, by decide +kernel⟩

end Orchestrator

end ThetaSubchain
