/-
Token bank events read out of inter-chain messages (core/inter_chain_message_event.go).

A lock event is accepted if the chain of its denom is the source of the message, and a burn event
if it is the target.
-/
import ThetaSubchain.Interchain.EventLog
import ThetaSubchain.Lib.Ending

namespace ThetaSubchain

open InterChainMessageEventType

structure TokenDetails where
  amount : BigInt
  tokenID : BigInt
  name : Bytes
  symbol : Bytes
  decimals : UInt8
  tokenURI : Bytes
deriving DecidableEq

structure EventParser extends LogReader where
  unpackDetails : TokenBank → String → Bytes → TokenDetails
  toLowerUnicode : Bytes → Bytes
  isHexAddress : Bytes → Bool
  keccak256 : Bytes → Hash

inductive Failure where
  | error (message : String)
  | targetChainMismatch
  | nilPointer
deriving DecidableEq

def lowerByte (b : UInt8) : UInt8 := if 65 ≤ b ∧ b ≤ 90 then b + 32 else b

def EventParser.toLower (p : EventParser) (s : Bytes) : Bytes :=
  if s.all (· < 128) then s.map lowerByte else p.toLowerUnicode s

def atoi (s : Bytes) : Option Int :=
  (BigInt.setString 10 s).filter fun n => -2 ^ 63 ≤ n ∧ n < 2 ^ 63

def tfuelAddressPlaceholder : Bytes := 48 :: 120 :: List.replicate 40 48

def validateDenom (p : EventParser) (denom : Bytes) : Except Failure Unit :=
  if p.toLower denom ≠ denom then .error (.error "invalid denom (must be lower case): %v")
  else match denom.splitOn 47 with
    | [_, tokenType, address] =>
      match atoi tokenType with
      | none => .error (.error "invalid denom (failed to parse token type): %v, %v")
      | some 0 =>
        if address ≠ tfuelAddressPlaceholder then .error (.error "invalid TFuel denom: %v")
        else .ok ()
      | some 20 =>
        if !p.isHexAddress address then .error (.error "invalid TNT20 denom: %v") else .ok ()
      | some 721 =>
        if !p.isHexAddress address then .error (.error "invalid TNT20 denom: %v") else .ok ()
      | some 1155 =>
        if !p.isHexAddress address then .error (.error "invalid TNT1155 denom: %v") else .ok ()
      | some _ => .error (.error "invalid denom (unknown token type): %v")
    | _ => .error (.error "invalid denom (incorrect format): %v")

def originatedChainID (denom : Bytes) : Except Failure Int :=
  match denom.splitOn 47 with
  | [chainID, _, _] =>
    match BigInt.setString 10 chainID with
    | some n => .ok n
    | none => .error (.error "invalid denom: %v")
  | _ => .error (.error "invalid denom: %v")

theorem extractOriginatedChainIDFromDenom_eq {denom : Bytes} {n : Int}
    (h : originatedChainID denom = .ok n) : extractOriginatedChainIDFromDenom denom = some n := by
  unfold originatedChainID at h
  unfold extractOriginatedChainIDFromDenom
  rcases hparts : denom.splitOn 47 with _ | ⟨chainID, _ | ⟨tokenType, _ | ⟨address, _ | ⟨x, xs⟩⟩⟩⟩
  case cons.cons.cons.nil =>
    rw [hparts] at h
    dsimp only at h ⊢
    cases hm : BigInt.setString 10 chainID with
    | none =>
      rw [hm] at h
      cases h
    | some m =>
      rw [hm] at h
      rw [Except.ok.inj h, Option.getD_some]
  all_goals
    rw [hparts] at h
    cases h

def checkChain (chainID : BigInt) (mismatch : String) (originated : Int) : Except Failure Unit :=
  match chainID with
  | none => .error .nilPointer
  | some n => if n ≠ originated then .error (.error mismatch) else .ok ()

theorem checkChain_eq_ok {chainID : BigInt} {mismatch : String} {n : Int} {u : Unit}
    (h : checkChain chainID mismatch n = .ok u) : chainID = some n := by
  cases chainID with
  | none => cases h
  | some m =>
    rw [checkChain] at h
    by_cases hm : m = n
    · rw [hm]
    · rw [if_pos hm] at h
      cases h

def parseTo (p : EventParser) (type : InterChainMessageEventType) (bank : TokenBank)
    (name : String) (lower : Bool) (chain : InterChainMessageEvent → BigInt) (mismatch : String)
    (icme : InterChainMessageEvent) : Except Failure (TokenBankEvent × TokenDetails) :=
  if icme.type ≠ type then .error (.error "invalid inter-chain message event type: %v")
  else do
    let event := p.unpackIntoInterface bank name icme.data
    let denom := if lower then p.toLower event.denom else event.denom
    validateDenom p denom
    checkChain (chain icme) mismatch (← originatedChainID denom)
    return ({ event with denom := denom }, p.unpackDetails bank name icme.data)

def parseToTokenLockedEvent (p : EventParser) (type : InterChainMessageEventType)
    (bank : TokenBank) (name : String) (lower : Bool) (mismatch : String) :=
  parseTo p type bank name lower (·.sourceChainID) mismatch

def parseToVoucherBurnedEvent (p : EventParser) (type : InterChainMessageEventType)
    (bank : TokenBank) (name : String) (mismatch : String) :=
  parseTo p type bank name false (·.targetChainID) mismatch

section Members

variable (p : EventParser)

def parseToCrossChainTFuelTokenLockedEvent :=
  parseToTokenLockedEvent p crossChainTokenLockTFuel .tfuel "TFuelTokenLocked" false
    "source chain ID mismatch for TFuel lock: %v vs %v"

def parseToCrossChainTNT20TokenLockedEvent :=
  parseToTokenLockedEvent p crossChainTokenLockTNT20 .tnt20 "TNT20TokenLocked" true
    "source chain ID mismatch for TNT20 lock: %v vs %v"

def parseToCrossChainTNT721TokenLockedEvent :=
  parseToTokenLockedEvent p crossChainTokenLockTNT721 .tnt721 "TNT721TokenLocked" true
    "source chain ID mismatch for TNT721 lock: %v vs %v"

def parseToCrossChainTNT1155TokenLockedEvent :=
  parseToTokenLockedEvent p crossChainTokenLockTNT1155 .tnt1155 "TNT1155TokenLocked" true
    "source chain ID mismatch for TNT1155 lock: %v vs %v"

def parseToCrossChainTFuelVoucherBurnedEvent :=
  parseToVoucherBurnedEvent p crossChainVoucherBurnTFuel .tfuel "TFuelVoucherBurned"
    "target chain ID mismatch for TFuel voucher burn: %v vs %v"

def parseToCrossChainTNT20VoucherBurnedEvent :=
  parseToVoucherBurnedEvent p crossChainVoucherBurnTNT20 .tnt20 "TNT20VoucherBurned"
    "target chain ID mismatch for TNT20 voucher burn: %v vs %v"

def parseToCrossChainTNT721VoucherBurnedEvent :=
  parseToVoucherBurnedEvent p crossChainVoucherBurnTNT721 .tnt721 "TNT721VoucherBurned"
    "target chain ID mismatch for TNT20 voucher burn: %v vs %v"

def parseToCrossChainTNT1155VoucherBurnedEvent :=
  parseToVoucherBurnedEvent p crossChainVoucherBurnTNT1155 .tnt1155 "TNT1155VoucherBurned"
    "target chain ID mismatch for TNT1155 voucher burn: %v vs %v"

end Members

variable {p : EventParser} {type : InterChainMessageEventType} {bank : TokenBank} {name : String}
  {icme : InterChainMessageEvent} {se : TokenBankEvent × TokenDetails}

theorem parseTo_eq_ok {lower : Bool} {chain : InterChainMessageEvent → BigInt}
    {mismatch : String} (h : parseTo p type bank name lower chain mismatch icme = .ok se) :
    icme.type = type ∧
      se.1.targetChainID = (p.unpackIntoInterface bank name icme.data).targetChainID ∧
      (lower = false → se.1.denom = (p.unpackIntoInterface bank name icme.data).denom) ∧
      ∃ n, originatedChainID se.1.denom = .ok n ∧ chain icme = some n := by
  unfold parseTo at h
  by_cases htype : icme.type = type
  · rw [if_neg (not_not.2 htype)] at h
    obtain ⟨_, -, h⟩ := Ending.bind_eq_ok.1 h
    obtain ⟨n, hn, h⟩ := Ending.bind_eq_ok.1 h
    obtain ⟨_, hchain, h⟩ := Ending.bind_eq_ok.1 h
    rw [← Except.ok.inj h]
    refine ⟨htype, rfl, ?_, n, hn, checkChain_eq_ok hchain⟩
    intro hlower
    rw [hlower]
    rfl
  · rw [if_pos htype] at h
    cases h

end ThetaSubchain
