/-
The cache of inter-chain events (interchain/utils/inter_chain_event_cache.go).

The key of an event does not name its target chain, and the token banks number the lock and burn
events for each target chain.
-/
import ThetaSubchain.Interchain.EventLog

namespace ThetaSubchain

open Rlp (Item)
open List InterChainMessageEvent Function Decimal

abbrev EventDB := Bytes → Option Item

def interChainEventIndexKey (sourceChainID : BigInt) (icmeType : InterChainMessageEventType)
    (nonce : BigInt) : Bytes :=
  [105, 99, 101] ++ 47 :: (sourceChainID.string ++ 47 :: (Decimal.ofNat icmeType.toNat ++
    47 :: nonce.string))

def InterChainMessageEvent.key (event : InterChainMessageEvent) : Bytes :=
  interChainEventIndexKey event.sourceChainID event.type event.nonce

namespace InterChainEventCache

variable (db : EventDB)

/-- `store.Put`, which leaves the database alone when the event cannot be encoded. -/
def put (event : InterChainMessageEvent) : EventDB × Option String :=
  match event.encodeRLP with
  | .ok item => (Function.update db event.key (some item), none)
  | .error err => (db, some err)

def insert (event : InterChainMessageEvent) : EventDB × Option String :=
  put db event

/-- The events before one that cannot be encoded are kept. -/
def insertList (db : EventDB) : List InterChainMessageEvent → EventDB × Option String
  | [] => (db, none)
  | event :: events =>
    match put db event with
    | (db', none) => insertList db' events
    | (db', some err) => (db', some err)

def delete (sourceChainID : BigInt) (imceType : InterChainMessageEventType)
    (nonce : BigInt) : EventDB :=
  Function.update db (interChainEventIndexKey sourceChainID imceType nonce) none

def get (sourceChainID : BigInt) (imceType : InterChainMessageEventType)
    (nonce : BigInt) : Except String InterChainMessageEvent :=
  match db (interChainEventIndexKey sourceChainID imceType nonce) with
  | some item => InterChainMessageEvent.decodeRLP item
  | none => .error "KeyNotFound"

theorem slash_notMem_ofNat (n : Nat) : (47 : UInt8) ∉ ofNat n := by
  intro h
  have := digit_of_mem h
  revert this
  decide

theorem key_inj {s s' n n' : BigInt} {t t' : InterChainMessageEventType}
    (h : interChainEventIndexKey s t n = interChainEventIndexKey s' t' n') :
    s = s' ∧ t = t' ∧ n = n' := by
  unfold interChainEventIndexKey at h
  obtain ⟨-, h⟩ := append_sep_inj (by decide) (by decide) h
  obtain ⟨hs, h⟩ := append_sep_inj s.slash_notMem_string s'.slash_notMem_string h
  obtain ⟨ht, hn⟩ := append_sep_inj (slash_notMem_ofNat _) (slash_notMem_ofNat _) h
  exact ⟨BigInt.string_injective hs, UInt64.toNat_inj.1 (ofNat_injective ht),
    BigInt.string_injective hn⟩

inductive Call where
  | insert (event : InterChainMessageEvent)
  | insertList (events : List InterChainMessageEvent)
  | delete (sourceChainID : BigInt) (imceType : InterChainMessageEventType) (nonce : BigInt)

def call : Call → EventDB
  | .insert event => (insert db event).1
  | .insertList events => (insertList db events).1
  | .delete sourceChainID imceType nonce => delete db sourceChainID imceType nonce

def run (calls : List Call) : EventDB := calls.foldl call fun _ => none

inductive Change where
  | put (event : InterChainMessageEvent)
  | drop (key : Bytes)

def encodable : List InterChainMessageEvent → List InterChainMessageEvent
  | [] => []
  | event :: events =>
    match event.encodeRLP with
    | .ok _ => event :: encodable events
    | .error _ => []

def Call.changes : Call → List Change
  | .insert event => (encodable [event]).map .put
  | .insertList events => (encodable events).map .put
  | .delete sourceChainID imceType nonce =>
    [.drop (interChainEventIndexKey sourceChainID imceType nonce)]

def history (calls : List Call) : List Change := calls.flatMap Call.changes

def Change.apply : Change → EventDB
  | .put event => (InterChainEventCache.put db event).1
  | .drop key => Function.update db key none

/-- The event has been written and its key has not been removed since. -/
def Live (changes : List Change) (event : InterChainMessageEvent) : Prop :=
  ∃ before after, changes = before ++ .put event :: after ∧ .drop event.key ∉ after

variable {event : InterChainMessageEvent} {changes : List Change} {calls : List Call}

theorem exists_item_of_mem_encodable {events : List InterChainMessageEvent}
    (h : event ∈ encodable events) : ∃ item, event.encodeRLP = .ok item := by
  induction events with
  | nil => cases h
  | cons e es ih =>
    rw [encodable] at h
    split at h
    next item hitem =>
      rcases mem_cons.1 h with rfl | h
      · exact ⟨item, hitem⟩
      · exact ih h
    next => cases h

theorem insertList_eq (db : EventDB) (events : List InterChainMessageEvent) :
    (insertList db events).1 = ((encodable events).map Change.put).foldl Change.apply db := by
  induction events generalizing db with
  | nil => rfl
  | cons event events ih =>
    rw [insertList, encodable]
    cases hitem : event.encodeRLP with
    | error err => simp [put, hitem]
    | ok item =>
      have hput : put db event = (update db event.key (some item), none) := by
        rw [put, hitem]
      rw [hput]
      dsimp only
      rw [ih, map_cons, foldl_cons, Change.apply, hput]

theorem call_eq (db : EventDB) (c : Call) : call db c = c.changes.foldl Change.apply db := by
  cases c with
  | insert event =>
    have hlist := insertList_eq db [event]
    have hput : (insertList db [event]).1 = (put db event).1 := by
      rw [insertList]
      split
      next db' hdb => rw [insertList, hdb]
      next db' err hdb => rw [hdb]
    rw [call, insert, ← hput, hlist]
    rfl
  | insertList events => exact insertList_eq db events
  | delete sourceChainID imceType nonce => rfl

theorem run_eq (calls : List Call) :
    run calls = (history calls).foldl Change.apply fun _ => none := by
  rw [run, history, foldl_flatMap]
  congr 1
  funext db c
  exact call_eq db c

theorem exists_item_of_mem_history (h : .put event ∈ history calls) :
    ∃ item, event.encodeRLP = .ok item := by
  obtain ⟨c, -, hc⟩ := mem_flatMap.1 h
  cases c with
  | insert e =>
    obtain ⟨x, hx, heq⟩ := mem_map.1 hc
    cases heq
    exact exists_item_of_mem_encodable hx
  | insertList events =>
    obtain ⟨x, hx, heq⟩ := mem_map.1 hc
    cases heq
    exact exists_item_of_mem_encodable hx
  | delete sourceChainID imceType nonce => simp [Call.changes] at hc

theorem Live.mem (h : Live changes event) : .put event ∈ changes := by
  obtain ⟨before, after, rfl, -⟩ := h
  simp

theorem live_snoc {c : Change} (h : Live (changes ++ [c]) event) :
    c = .put event ∨ Live changes event ∧ c ≠ .drop event.key := by
  obtain ⟨before, after, heq, hdrop⟩ := h
  rcases eq_nil_or_concat after with rfl | ⟨rest, last, rfl⟩
  · exact .inl (cons.inj (append_inj' heq rfl).2).1
  · rw [concat_eq_append, ← cons_append, ← append_assoc] at heq
    obtain ⟨hchanges, hlast⟩ := append_inj' heq rfl
    rw [(cons.inj hlast).1]
    rw [concat_eq_append, mem_append, not_or, mem_singleton] at hdrop
    exact .inr ⟨⟨before, rest, hchanges, hdrop.1⟩, fun h => hdrop.2 h.symm⟩

theorem exists_record_of_live (db : EventDB)
    (hitem : ∀ e, .put e ∈ changes → ∃ item, e.encodeRLP = .ok item) (hlive : Live changes event) :
    ∃ last item, last.key = event.key ∧ last.encodeRLP = .ok item ∧
      changes.foldl Change.apply db event.key = some item ∧
      (last = event ∨ ∃ past rest, changes = past ++ .put last :: rest ∧ Live past event) := by
  induction changes using reverseRecOn with
  | nil => exact absurd hlive.mem (by simp)
  | append_singleton cs c ih =>
    have hprev : ∀ e, .put e ∈ cs → ∃ item, e.encodeRLP = .ok item :=
      fun e he => hitem e (mem_append_left _ he)
    rw [foldl_append, foldl_cons, foldl_nil]
    -- the last change leaves the key alone, or writes it
    have hkeep : Live cs event → Change.apply (cs.foldl Change.apply db) c event.key =
        cs.foldl Change.apply db event.key → ∃ last item, last.key = event.key ∧
          last.encodeRLP = .ok item ∧
          Change.apply (cs.foldl Change.apply db) c event.key = some item ∧
          (last = event ∨ ∃ past rest, cs ++ [c] = past ++ .put last :: rest ∧
            Live past event) := by
      intro hlive hsame
      obtain ⟨last, item, hkey, henc, hrec, hold⟩ := ih hprev hlive
      refine ⟨last, item, hkey, henc, hsame.trans hrec, hold.imp id ?_⟩
      rintro ⟨past, rest, rfl, hpast⟩
      exact ⟨past, rest ++ [c], by simp, hpast⟩
    cases c with
    | drop key =>
      rcases live_snoc hlive with heq | ⟨hlive, hne⟩
      · cases heq
      · refine hkeep hlive (update_of_ne ?_ _ _)
        intro hkey
        exact hne (by rw [hkey])
    | put e =>
      obtain ⟨item, henc⟩ := hitem e (by simp)
      have happly : ∀ x, Change.apply (cs.foldl Change.apply db) (.put e) x =
          update (cs.foldl Change.apply db) e.key (some item) x := by
        intro x
        rw [Change.apply, put, henc]
      by_cases hkey : e.key = event.key
      · refine ⟨e, item, hkey, henc, ?_, ?_⟩
        · rw [happly, hkey, update_self]
        · rcases live_snoc hlive with heq | ⟨hlive, -⟩
          · cases heq
            exact .inl rfl
          · exact .inr ⟨cs, [], rfl, hlive⟩
      · rcases live_snoc hlive with heq | ⟨hlive, -⟩
        · cases heq
          exact absurd rfl hkey
        · refine hkeep hlive ?_
          rw [happly]
          exact update_of_ne (Ne.symm hkey) _ _

theorem exists_put_of_record {db : EventDB} {key : Bytes} {item : Item}
    (h : changes.foldl Change.apply (fun _ => none) = db) (hrec : db key = some item) :
    ∃ e, .put e ∈ changes ∧ e.key = key ∧ e.encodeRLP = .ok item := by
  induction changes using reverseRecOn generalizing db with
  | nil =>
    rw [← h] at hrec
    cases hrec
  | append_singleton cs c ih =>
    rw [foldl_append, foldl_cons, foldl_nil] at h
    have hold : cs.foldl Change.apply (fun _ => none) key = some item →
        ∃ e, .put e ∈ cs ++ [c] ∧ e.key = key ∧ e.encodeRLP = .ok item := by
      intro hprev
      obtain ⟨e, he, hrest⟩ := ih rfl hprev
      exact ⟨e, mem_append_left _ he, hrest⟩
    rw [← h] at hrec
    cases c with
    | drop k =>
      rw [Change.apply] at hrec
      by_cases hk : key = k
      · rw [hk, update_self] at hrec
        cases hrec
      · rw [update_of_ne hk] at hrec
        exact hold hrec
    | put e =>
      rw [Change.apply, put] at hrec
      cases henc : e.encodeRLP with
      | error err =>
        rw [henc] at hrec
        exact hold hrec
      | ok item' =>
        rw [henc] at hrec
        dsimp only at hrec
        by_cases hk : key = e.key
        · rw [hk, update_self] at hrec
          exact ⟨e, by simp, hk.symm, by rw [henc, Option.some.inj hrec]⟩
        · rw [update_of_ne hk] at hrec
          exact hold hrec

theorem exists_put_of_get {s n : BigInt} {t : InterChainMessageEventType}
    (h : get (run calls) s t n = .ok event) :
    ∃ e, .put e ∈ history calls ∧ e.key = interChainEventIndexKey s t n ∧ e.readBack = event := by
  rw [get] at h
  split at h
  next item hitem =>
    obtain ⟨e, he, hkey, henc⟩ := exists_put_of_record (run_eq calls).symm hitem
    rw [decodeRLP_encodeRLP henc] at h
    exact ⟨e, he, hkey, Except.ok.inj h⟩
  next => cases h

/-- The token banks number lock and burn events for each source and target chain. -/
def NumberedPerTarget (calls : List Call) : Prop :=
  ∀ e e', .put e ∈ history calls → .put e' ∈ history calls → e.type.isLockOrBurn →
    e.sourceChainID = e'.sourceChainID → e.targetChainID = e'.targetChainID → e.type = e'.type →
    e.nonce = e'.nonce → e = e'

/-- An event is overwritten only by one of the same chains, type and nonce. -/
def NotDisplaced (calls : List Call) : Prop :=
  ∀ past e rest, history calls = past ++ .put e :: rest → ∀ old, Live past old →
    old.key = e.key → old.sourceChainID = e.sourceChainID ∧
      old.targetChainID = e.targetChainID ∧ old.type = e.type ∧ old.nonce = e.nonce

/-- A lock or burn event that was inserted is found with its own contents until its key is
deleted. -/
def Retained (calls : List Call) : Prop :=
  ∀ past rest, calls = past ++ rest → ∀ e, Live (history past) e → e.type.isLockOrBurn →
    get (run past) e.sourceChainID e.type e.nonce = .ok e.readBack

/-- Events of one source chain, type and nonce have one target chain, unless the earlier
one was deleted before the later one was inserted. -/
def OneTarget (calls : List Call) : Prop :=
  ∀ past e rest, history calls = past ++ .put e :: rest → ∀ old, Live past old →
    old.sourceChainID = e.sourceChainID → old.type = e.type → old.nonce = e.nonce →
    old.targetChainID = e.targetChainID

theorem NotDisplaced.oneTarget (h : NotDisplaced calls) : OneTarget calls := by
  intro past e rest hist old hlive hsource htype hnonce
  have hkey : old.key = e.key := by
    rw [key, key, hsource, htype, hnonce]
  exact (h past e rest hist old hlive hkey).2.1

theorem OneTarget.notDisplaced (h : OneTarget calls) : NotDisplaced calls := by
  intro past e rest hist old hlive hkey
  obtain ⟨hsource, htype, hnonce⟩ := key_inj hkey
  exact ⟨hsource, h past e rest hist old hlive hsource htype hnonce, htype, hnonce⟩

theorem OneTarget.retained (h : OneTarget calls) (hnum : NumberedPerTarget calls) :
    Retained calls := by
  intro past rest hcalls e hlive hlock
  have hhist : history calls = history past ++ history rest := by
    rw [hcalls, history, history, history, flatMap_append]
  have hmem : ∀ x, .put x ∈ history past → .put x ∈ history calls := by
    intro x hx
    rw [hhist]
    exact mem_append_left _ hx
  obtain ⟨last, item, hkey, henc, hrec, hlast⟩ :=
    exists_record_of_live (fun _ => none) (fun x hx => exists_item_of_mem_history hx) hlive
  have hsame : last = e := by
    rcases hlast with heq | ⟨before, after, hbefore, hold⟩
    · exact heq
    · obtain ⟨hsource, htype, hnonce⟩ := key_inj hkey
      have hsplit : history calls = before ++ .put last :: (after ++ history rest) := by
        rw [hhist, hbefore, append_assoc, cons_append]
      have htarget := h before last _ hsplit e hold hsource.symm htype.symm hnonce.symm
      have hlastmem : .put last ∈ history past := by
        rw [hbefore]
        simp
      exact (hnum e last (hmem e hlive.mem) (hmem last hlastmem) hlock hsource.symm htarget
        htype.symm hnonce.symm).symm
  have hfound : run past e.key = some item := by
    rw [run_eq]
    exact hrec
  rw [get, show interChainEventIndexKey e.sourceChainID e.type e.nonce = e.key from rfl, hfound]
  rw [hsame] at henc
  exact decodeRLP_encodeRLP henc

/-- No event is displaced, and each one stays retrievable until it is deleted, exactly if
events that share source chain, type and nonce share their target chain. -/
theorem retained_iff_oneTarget (hnum : NumberedPerTarget calls) :
    NotDisplaced calls ∧ Retained calls ↔ OneTarget calls :=
  ⟨fun h => h.1.oneTarget, fun h => ⟨h.notDisplaced, h.retained hnum⟩⟩

/-! ### Two events of one bank for two chains -/

/-- ABI data: words of 32 bytes, and after them a string of two words. -/
def abiData (words text : Bytes) : Bytes :=
  (words ++ [UInt8.ofNat text.length]).flatMap (fun b => replicate 31 0 ++ [b]) ++ text ++
    replicate (64 - text.length) 0

def abiUint (data : Bytes) (i : ℕ) : ℕ :=
  ((data.drop (32 * i)).take 32).foldl (fun n b => 256 * n + b.toNat) 0

def abiString (data : Bytes) (i : ℕ) : Bytes :=
  let tail := data.drop (abiUint data i)
  (tail.drop 32).take (abiUint tail 0)

def abiHex (data : Bytes) : Bytes :=
  let digit (d : UInt8) := if d < 10 then 48 + d else 87 + d
  48 :: 120 :: data.flatMap fun b => [digit (b / 16), digit (b % 16)]

/-- Unpacks locks of TFuel and burns of TNT20 vouchers. -/
def sampleReader : LogReader where
  unpackIntoInterface := fun _ name data =>
    if data.length < 192 then ⟨[], 0, 0, none, none⟩
    else if name = "TFuelTokenLocked" then
      ⟨abiString data 0, .ofNat _ (abiUint data 1), .ofNat _ (abiUint data 3),
        some (abiUint data 2), some (abiUint data 5)⟩
    else
      ⟨abiString data 0, .ofNat _ (abiUint data 1), .ofNat _ (abiUint data 2), none,
        some (abiUint data 4)⟩
  keccak256Hex := id

def lockData (target : UInt8) : Bytes :=
  abiData [192, 5, target, 6, 10, 1] ([51, 54, 54, 47, 48, 47, 48, 120] ++ replicate 40 48)

def sampleLog (target : UInt8) : LogData where
  blockNumber := [48, 120, 53]
  data := abiHex (lockData target)
  topics := ["TFuelTokenLocked(string,address,uint256,address,uint256,uint256)"]

def sampleLock (target : UInt8) : InterChainMessageEvent where
  type := .crossChainTokenLockTFuel
  sourceChainID := some 366
  targetChainID := some target.toNat
  sender := 5
  receiver := 6
  data := lockData target
  nonce := some 1
  blockHeight := some 5

theorem sampleLock_numbered (calls : List Call)
    (h : ∀ e, .put e ∈ history calls → e = sampleLock 7 ∨ e = sampleLock 8) :
    NumberedPerTarget calls := by
  intro e e' he he' _ _ htarget _ _
  rcases h e he with rfl | rfl <;> rcases h e' he' with rfl | rfl
  · rfl
  · exact absurd htarget (by decide)
  · exact absurd htarget (by decide)
  · rfl

theorem retained_iff_oneTarget_sample :
    let calls := [Call.insert (sampleLock 7), .delete (some 366) .crossChainTokenLockTFuel (some 1),
      .insert (sampleLock 8)]
    get (run calls) (some 366) .crossChainTokenLockTFuel (some 1) = .ok (sampleLock 8) ∧
      (NotDisplaced calls ∧ Retained calls ↔ OneTarget calls) := by
  refine ⟨by decide +kernel, retained_iff_oneTarget (sampleLock_numbered _ ?_)⟩
  intro e he
  have hhist : history [Call.insert (sampleLock 7),
      .delete (some 366) .crossChainTokenLockTFuel (some 1), .insert (sampleLock 8)] =
      [.put (sampleLock 7), .drop (sampleLock 7).key, .put (sampleLock 8)] := rfl
  rw [hhist] at he
  simpa using he

/-- The first lock for one chain is lost when the first lock for another chain is
inserted. -/
theorem not_retained_of_two_targets :
    let calls := [Call.insertList [sampleLock 7, sampleLock 8]]
    queryInterChainEventLog sampleReader (some 366) [sampleLog 7, sampleLog 8] =
        some [sampleLock 7, sampleLock 8] ∧
      NumberedPerTarget calls ∧ ¬ NotDisplaced calls ∧ ¬ Retained calls := by
  have hhist : history [Call.insertList [sampleLock 7, sampleLock 8]] =
      [.put (sampleLock 7), .put (sampleLock 8)] := rfl
  refine ⟨by decide +kernel, sampleLock_numbered _ ?_, ?_, ?_⟩
  · intro e he
    rw [hhist] at he
    simpa using he
  · intro h
    have hlive : Live [.put (sampleLock 7)] (sampleLock 7) := ⟨[], [], rfl, by simp⟩
    have := (h [.put (sampleLock 7)] (sampleLock 8) [] hhist (sampleLock 7) hlive (by decide)).2.1
    exact absurd this (by decide)
  · intro h
    have hlive : Live (history [Call.insertList [sampleLock 7, sampleLock 8]]) (sampleLock 7) :=
      ⟨[], [.put (sampleLock 8)], hhist, by simp⟩
    have := h _ [] (append_nil _).symm (sampleLock 7) hlive (by decide)
    exact absurd this (by decide)

end InterChainEventCache

end ThetaSubchain
