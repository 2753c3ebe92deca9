/-
Where the scan of a new witness starts (interchain/witness/metachain_witness.go).

A type of which nothing was processed is looked up at the current height, and TNT1155 locks are not
looked up, so pending events of these types can be below the start.
-/
import ThetaSubchain.Interchain.Witness

namespace ThetaSubchain

open InterChainMessageEventType

inductive EventKind where
  | lock
  | burn
deriving DecidableEq

/-- The contract state of the token banks of a chain.  Events are numbered from one for each
bank, kind and target chain, and an event is not below an earlier one. -/
structure TokenBanks where
  maxProcessedNonce : EventKind → TokenBank → Int → Nat
  eventNonce : EventKind → TokenBank → Int → Nat
  eventHeight : EventKind → TokenBank → Int → Nat → Nat
  monotone : ∀ kind bank chainID i j, 1 ≤ i → i ≤ j → j ≤ eventNonce kind bank chainID →
    eventHeight kind bank chainID i ≤ eventHeight kind bank chainID j

namespace ChainRpc

def maxProcessedNonce (rpc : ChainRpc) : EventKind → TokenBank → Int → Option Int
  | .lock => rpc.getMaxProcessedTokenLockNonce
  | .burn => rpc.getMaxProcessedVoucherBurnNonce

def eventHeight (rpc : ChainRpc) : EventKind → TokenBank → Int → Int → Option Int
  | .lock => rpc.getTokenLockEventHeight
  | .burn => rpc.getVoucherBurnEventHeight

/-- Requests may fail, but what is answered is the state of the banks. -/
structure Reports (rpc : ChainRpc) (banks : TokenBanks) : Prop where
  nonce : ∀ kind bank chainID n, rpc.maxProcessedNonce kind bank chainID = some n →
    n = banks.maxProcessedNonce kind bank chainID
  height : ∀ kind bank chainID (n : Nat) h, rpc.eventHeight kind bank chainID n = some h →
    h = banks.eventHeight kind bank chainID n

end ChainRpc

def ChainSide.other : ChainSide → ChainSide
  | .mainchain => .subchain
  | .subchain => .mainchain

def EventKind.eventType : EventKind → TokenBank → InterChainMessageEventType
  | .lock, .tfuel => crossChainTokenLockTFuel
  | .lock, .tnt20 => crossChainTokenLockTNT20
  | .lock, .tnt721 => crossChainTokenLockTNT721
  | .lock, .tnt1155 => crossChainTokenLockTNT1155
  | .burn, .tfuel => crossChainVoucherBurnTFuel
  | .burn, .tnt20 => crossChainVoucherBurnTNT20
  | .burn, .tnt721 => crossChainVoucherBurnTNT721
  | .burn, .tnt1155 => crossChainVoucherBurnTNT1155

def LookedUp : ChainSide → EventKind → TokenBank → Prop
  | _, .lock, .tnt1155 => False
  | .mainchain, .burn, .tfuel => False
  | .subchain, .lock, .tfuel => False
  | _, _, _ => True

section Start

variable (cfg : WitnessConfig) (banks : ChainSide → TokenBanks) (rpc : ChainSide → ChainRpc)
  (side : ChainSide) (kind : EventKind) (bank : TokenBank)

def Pending (n : Nat) : Prop :=
  (banks side.other).maxProcessedNonce kind bank (cfg.chainID side) < n ∧
    n ≤ (banks side).eventNonce kind bank (cfg.chainID side.other)

def pendingHeight (n : Nat) : Nat :=
  (banks side).eventHeight kind bank (cfg.chainID side.other) n

def scanHeight (type : InterChainMessageEventType) : Option Int :=
  eventHeightOn cfg (rpc .mainchain) (rpc .subchain) type (cfg.chainID side)

def startingHeight : Option Int :=
  getBlockScanStartingHeight cfg (rpc .mainchain) (rpc .subchain) (cfg.chainID side)

def processedNonce : Nat := (banks side.other).maxProcessedNonce kind bank (cfg.chainID side)

/-- The request for the nonce of the last processed event fails, or that for its height. -/
def RequestFails : Prop :=
  (rpc side.other).maxProcessedNonce kind bank (cfg.chainID side) = none ∨
    (rpc side).eventHeight kind bank (cfg.chainID side.other)
      (processedNonce cfg banks side kind bank) = none

/-- What keeps the scan from starting above the height `h`, for one type of events: a request fails,
the last processed event is at most five blocks above, or there is none and the answer to the
request for the current height is at most five blocks above. -/
def HoldsBack (h : Nat) : Prop :=
  (LookedUp side kind bank ∧ RequestFails cfg banks rpc side kind bank) ∨
    (LookedUp side kind bank ∧ processedNonce cfg banks side kind bank ≠ 0 ∧
      pendingHeight cfg banks side kind bank (processedNonce cfg banks side kind bank) ≤ h + 5) ∨
    ((LookedUp side kind bank → processedNonce cfg banks side kind bank = 0) ∧
      blockHeight ((rpc side).blockNumber (kind.eventType bank) true) ≤ h + 5)

/-- The scan is held back for each pending event that no processed event of its type can be below,
because there is none or because the type is not looked up. -/
def UnprocessedCovered : Prop :=
  ∀ kind bank n, Pending cfg banks side kind bank n →
    (¬ LookedUp side kind bank ∨ processedNonce cfg banks side kind bank = 0) →
    ∃ kind' bank', (kind', bank') ≠ (.lock, .tnt1155) ∧
      HoldsBack cfg banks rpc side kind' bank' (pendingHeight cfg banks side kind bank n)

end Start

variable {cfg : WitnessConfig} {banks : ChainSide → TokenBanks} {rpc : ChainSide → ChainRpc}
  {side : ChainSide} {kind : EventKind} {bank : TokenBank}

theorem scanHeight_mainchain (type : InterChainMessageEventType) :
    scanHeight cfg rpc .mainchain type =
      getMainchainMaxProcessedNonceEventHeight cfg (rpc .mainchain) (rpc .subchain) type :=
  if_pos rfl

theorem scanHeight_subchain (type : InterChainMessageEventType) :
    scanHeight cfg rpc .subchain type =
      getSubchainMaxProcessedNonceEventHeight cfg (rpc .mainchain) (rpc .subchain) type :=
  (if_neg cfg.distinct.symm).trans (if_pos rfl)

theorem mem_scanEventTypes_iff {type : InterChainMessageEventType} :
    type ∈ scanEventTypes ↔
      ∃ kind bank, (kind, bank) ≠ (.lock, .tnt1155) ∧ type = EventKind.eventType kind bank := by
  constructor
  · intro h
    simp only [scanEventTypes, List.mem_cons, List.not_mem_nil, or_false] at h
    rcases h with rfl | rfl | rfl | rfl | rfl | rfl | rfl
    · exact ⟨.lock, .tfuel, by decide, rfl⟩
    · exact ⟨.lock, .tnt20, by decide, rfl⟩
    · exact ⟨.lock, .tnt721, by decide, rfl⟩
    · exact ⟨.burn, .tfuel, by decide, rfl⟩
    · exact ⟨.burn, .tnt20, by decide, rfl⟩
    · exact ⟨.burn, .tnt721, by decide, rfl⟩
    · exact ⟨.burn, .tnt1155, by decide, rfl⟩
  · rintro ⟨kind, bank, hne, rfl⟩
    cases kind <;> cases bank <;> first | exact absurd rfl hne | decide

theorem scanHeight_of_lookedUp (h : LookedUp side kind bank) :
    scanHeight cfg rpc side (kind.eventType bank) = some (maxProcessedNonceEventHeight
      ((rpc side).blockNumber (kind.eventType bank) true)
      (lookUpNonce ((rpc side.other).maxProcessedNonce kind bank (cfg.chainID side))
        ((rpc side).eventHeight kind bank (cfg.chainID side.other)))) := by
  cases side with
  | mainchain =>
    rw [scanHeight_mainchain]
    cases kind <;> cases bank <;> first | exact h.elim | rfl
  | subchain =>
    rw [scanHeight_subchain]
    cases kind <;> cases bank <;> first | exact h.elim | rfl

theorem scanHeight_of_not_lookedUp (h : ¬LookedUp side kind bank)
    (hne : (kind, bank) ≠ (.lock, .tnt1155)) :
    scanHeight cfg rpc side (kind.eventType bank) =
      some (blockHeight ((rpc side).blockNumber (kind.eventType bank) true)) := by
  cases side with
  | mainchain =>
    rw [scanHeight_mainchain]
    cases kind <;> cases bank <;> first | exact absurd trivial h | exact absurd rfl hne | rfl
  | subchain =>
    rw [scanHeight_subchain]
    cases kind <;> cases bank <;> first | exact absurd trivial h | exact absurd rfl hne | rfl

theorem scanHeight_le_iff (cfg : WitnessConfig) (side : ChainSide)
    (hreport : ∀ s, (rpc s).Reports (banks s)) (hne : (kind, bank) ≠ (.lock, .tnt1155)) :
    ∃ x, scanHeight cfg rpc side (kind.eventType bank) = some x ∧
      ∀ h : Nat, x ≤ h + 5 ↔ HoldsBack cfg banks rpc side kind bank h := by
  by_cases hlook : LookedUp side kind bank
  · refine ⟨_, scanHeight_of_lookedUp hlook, fun h => ?_⟩
    unfold HoldsBack RequestFails lookUpNonce
    cases hnonce : (rpc side.other).maxProcessedNonce kind bank (cfg.chainID side) with
    | none => exact iff_of_true (by show (0 : Int) ≤ _; omega) (.inl ⟨hlook, .inl rfl⟩)
    | some k =>
      obtain rfl : k = processedNonce cfg banks side kind bank :=
        (hreport side.other).nonce kind bank (cfg.chainID side) k hnonce
      rw [Option.bind_some]
      cases hheight : (rpc side).eventHeight kind bank (cfg.chainID side.other)
          (processedNonce cfg banks side kind bank) with
      | none => exact iff_of_true (by show (0 : Int) ≤ _; omega) (.inl ⟨hlook, .inr rfl⟩)
      | some x =>
        have hx := (hreport side).height kind bank (cfg.chainID side.other) _ x hheight
        show (if (processedNonce cfg banks side kind bank : Int) = 0 then _ else x) ≤ _ ↔ _
        by_cases hzero : processedNonce cfg banks side kind bank = 0
        · simp [hlook, hzero]
        · rw [if_neg (by exact_mod_cast hzero), hx, pendingHeight]
          simp [hlook, hzero]
          omega
  · refine ⟨_, scanHeight_of_not_lookedUp hlook hne, fun h => ?_⟩
    simp [HoldsBack, hlook]

theorem exists_current (cfg : WitnessConfig) (rpc : ChainSide → ChainRpc) (side : ChainSide) :
    ∃ type ∈ scanEventTypes, ∃ h, scanHeight cfg rpc side type = some (blockHeight h) := by
  cases side with
  | mainchain =>
    have hnot : ¬LookedUp .mainchain .burn .tfuel := id
    exact ⟨_, by decide, _, scanHeight_of_not_lookedUp hnot (by decide)⟩
  | subchain =>
    have hnot : ¬LookedUp .subchain .lock .tfuel := id
    exact ⟨_, by decide, _, scanHeight_of_not_lookedUp hnot (by decide)⟩

theorem blockHeight_lt (h : Option UInt64) : blockHeight h < 2 ^ 63 := by
  have hlt := (h.getD 0).toInt64.toInt_lt
  unfold blockHeight
  omega

theorem foldlM_min {f : InterChainMessageEventType → Option Int}
    {types : List InterChainMessageEventType} (htotal : ∀ t ∈ types, ∃ x, f t = some x)
    (start : Int) :
    ∃ m, types.foldlM (fun least t => do
        let height ← f t
        return if height < least then height else least) start = some m ∧
      m ≤ start ∧ (∀ t ∈ types, ∀ x, f t = some x → m ≤ x) ∧
      (m = start ∨ ∃ t ∈ types, f t = some m) := by
  induction types generalizing start with
  | nil => exact ⟨start, rfl, le_rfl, by simp, .inl rfl⟩
  | cons t types ih =>
    obtain ⟨x, hx⟩ := htotal t List.mem_cons_self
    obtain ⟨m, hm, hle, hall, hsome⟩ :=
      ih (fun u hu => htotal u (List.mem_cons_of_mem t hu)) (if x < start then x else start)
    refine ⟨m, ?_, ?_, ?_, ?_⟩
    · rw [List.foldlM_cons, hx]
      exact hm
    · split at hle <;> omega
    · intro u hu y hy
      rcases List.mem_cons.1 hu with rfl | hu
      · rw [hx, Option.some.injEq] at hy
        split at hle <;> omega
      · exact hall u hu y hy
    · rcases hsome with heq | ⟨u, hu, hfu⟩
      · by_cases hlt : x < start
        · rw [if_pos hlt] at heq
          exact .inr ⟨t, List.mem_cons_self, by rw [hx, heq]⟩
        · rw [if_neg hlt] at heq
          exact .inl heq
      · exact .inr ⟨u, List.mem_cons_of_mem t hu, hfu⟩

theorem exists_scanHeight (cfg : WitnessConfig) (rpc : ChainSide → ChainRpc) (side : ChainSide)
    {t : InterChainMessageEventType} (ht : t ∈ scanEventTypes) :
    ∃ x, scanHeight cfg rpc side t = some x := by
  obtain ⟨kind, bank, hne, rfl⟩ := mem_scanEventTypes_iff.1 ht
  by_cases hlook : LookedUp side kind bank
  · exact ⟨_, scanHeight_of_lookedUp hlook⟩
  · exact ⟨_, scanHeight_of_not_lookedUp hlook hne⟩

theorem exists_startingHeight (cfg : WitnessConfig) (rpc : ChainSide → ChainRpc)
    (side : ChainSide) :
    ∃ m : Int, startingHeight cfg rpc side = some (if m > 5 then m - 5 else 0) ∧
      (∀ t ∈ scanEventTypes, ∀ x, scanHeight cfg rpc side t = some x → m ≤ x) ∧
      ∃ t ∈ scanEventTypes, scanHeight cfg rpc side t = some m := by
  obtain ⟨m, hm, -, hall, hsome⟩ :=
    foldlM_min (fun t ht => exists_scanHeight cfg rpc side ht) (2 ^ 64 - 1)
  refine ⟨m, ?_, hall, ?_⟩
  · unfold scanHeight at hm
    rw [startingHeight, getBlockScanStartingHeight, hm]
    rfl
  · rcases hsome with hstart | hsome
    · obtain ⟨t, ht, b, hb⟩ := exists_current cfg rpc side
      have hlow := hall t ht _ hb
      have hlt := blockHeight_lt b
      omega
    · exact hsome

theorem startingHeight_spec (side : ChainSide) (hreport : ∀ s, (rpc s).Reports (banks s)) :
    ∃ s, startingHeight cfg rpc side = some s ∧ ∀ h : Nat, s ≤ h ↔
      ∃ kind bank, (kind, bank) ≠ (.lock, .tnt1155) ∧ HoldsBack cfg banks rpc side kind bank h := by
  obtain ⟨m, hstart, hall, hreached⟩ := exists_startingHeight cfg rpc side
  refine ⟨if m > 5 then m - 5 else 0, hstart, fun h => ?_⟩
  constructor
  · intro hle
    obtain ⟨t, ht, htm⟩ := hreached
    obtain ⟨kind, bank, hne, rfl⟩ := mem_scanEventTypes_iff.1 ht
    obtain ⟨x, hx, hback⟩ := scanHeight_le_iff cfg side hreport hne
    obtain rfl : x = m := Option.some.inj (hx.symm.trans htm)
    refine ⟨kind, bank, hne, (hback h).1 ?_⟩
    split at hle <;> omega
  · rintro ⟨kind, bank, hne, hheld⟩
    obtain ⟨x, hx, hback⟩ := scanHeight_le_iff cfg side hreport hne
    have hmx := hall _ (mem_scanEventTypes_iff.2 ⟨kind, bank, hne, rfl⟩) x hx
    have hxh := (hback h).2 hheld
    split <;> omega

theorem holdsBack_of_processed {n : Nat} (hpending : Pending cfg banks side kind bank n)
    (hlook : LookedUp side kind bank) (hsome : processedNonce cfg banks side kind bank ≠ 0) :
    HoldsBack cfg banks rpc side kind bank (pendingHeight cfg banks side kind bank n) := by
  have hmono := (banks side).monotone kind bank (cfg.chainID side.other) _ n
    (Nat.one_le_iff_ne_zero.2 hsome) hpending.1.le hpending.2
  exact .inr (.inl ⟨hlook, hsome, hmono.trans (Nat.le_add_right _ 5)⟩)

/-- The scan starts at or below every pending event, exactly if it is held back for the events of the
types of which nothing was processed and of those that are not looked up. -/
theorem start_le_pending_iff (cfg : WitnessConfig) (banks : ChainSide → TokenBanks)
    (rpc : ChainSide → ChainRpc) (hreport : ∀ s, (rpc s).Reports (banks s)) (side : ChainSide) :
    ∃ s, startingHeight cfg rpc side = some s ∧
      ((∀ kind bank n, Pending cfg banks side kind bank n →
          s ≤ pendingHeight cfg banks side kind bank n) ↔
        UnprocessedCovered cfg banks rpc side) := by
  obtain ⟨s, hs, hspec⟩ := startingHeight_spec side hreport
  refine ⟨s, hs, ?_⟩
  constructor
  · intro hall kind bank n hpending _
    exact (hspec _).1 (hall kind bank n hpending)
  · intro hcovered kind bank n hpending
    rw [hspec]
    by_cases hcase : LookedUp side kind bank ∧ processedNonce cfg banks side kind bank ≠ 0
    · refine ⟨kind, bank, ?_, holdsBack_of_processed hpending hcase.1 hcase.2⟩
      rintro ⟨⟩
      exact hcase.1
    · exact hcovered kind bank n hpending (by tauto)

def startConfig : WitnessConfig := ⟨366, 360888, by decide⟩

def startBanks (kind : EventKind) (bank : TokenBank) (count processed height : Nat) :
    TokenBanks where
  maxProcessedNonce k b _ := if k = kind ∧ b = bank then processed else 0
  eventNonce k _ _ := if k = kind then count else 0
  eventHeight _ _ _ _ := height
  monotone _ _ _ _ _ _ _ _ := le_rfl

def startRpc (banks : TokenBanks) (current : UInt64) : ChainRpc where
  getMaxProcessedTokenLockNonce bank chainID := some (banks.maxProcessedNonce .lock bank chainID)
  getTokenLockEventHeight bank chainID n := some (banks.eventHeight .lock bank chainID n.toNat)
  getMaxProcessedVoucherBurnNonce bank chainID :=
    some (banks.maxProcessedNonce .burn bank chainID)
  getVoucherBurnEventHeight bank chainID n := some (banks.eventHeight .burn bank chainID n.toNat)
  blockNumber _ _ := some current

theorem startRpc_reports (banks : TokenBanks) (current : UInt64) :
    (startRpc banks current).Reports banks where
  nonce kind bank chainID n h := by cases kind <;> exact (Option.some.inj h).symm
  height kind bank chainID n h hh := by cases kind <;> exact (Option.some.inj hh).symm

def startChains (processed : Nat) : ChainSide → TokenBanks
  | .mainchain => startBanks .lock .tnt20 2 0 50
  | .subchain => startBanks .lock .tnt20 0 processed 0

def startRpcs (processed : Nat) (s : ChainSide) : ChainRpc :=
  startRpc (startChains processed s) 1000

/-- One of two TNT20 locks was processed.  The locks of the other banks, none of which was, are held
by it. -/
theorem start_le_pending_iff_processed :
    let banks := startChains 1
    let rpc := startRpcs 1
    startingHeight startConfig rpc .mainchain = some 45 ∧
      Pending startConfig banks .mainchain .lock .tnt20 2 ∧
      Pending startConfig banks .mainchain .lock .tnt1155 1 ∧
      UnprocessedCovered startConfig banks rpc .mainchain ∧
      ∃ s, startingHeight startConfig rpc .mainchain = some s ∧
        ∀ kind bank n, Pending startConfig banks .mainchain kind bank n →
          s ≤ pendingHeight startConfig banks .mainchain kind bank n := by
  intro banks rpc
  have hcovered : UnprocessedCovered startConfig banks rpc .mainchain := by
    intro kind bank n _ _
    exact ⟨.lock, .tnt20, by decide, .inr (.inl ⟨trivial, by decide, Nat.le_add_right 50 5⟩)⟩
  obtain ⟨s, hs, hiff⟩ := start_le_pending_iff startConfig banks rpc
    (fun s => startRpc_reports (banks s) 1000) .mainchain
  refine ⟨by decide, ?_, ?_, hcovered, s, hs, hiff.2 hcovered⟩
  all_goals
    unfold Pending
    decide

/-- Two locks of each bank at height 50 are pending, none was processed, and the scan starts at height
995. -/
theorem start_above_pending_lock :
    let banks := startChains 0
    let rpc := startRpcs 0
    (∀ s, (rpc s).Reports (banks s)) ∧
      startingHeight startConfig rpc .mainchain = some 995 ∧
      Pending startConfig banks .mainchain .lock .tnt20 1 ∧
      pendingHeight startConfig banks .mainchain .lock .tnt20 1 = 50 :=
  ⟨fun s => startRpc_reports (startChains 0 s) 1000, by decide,
    by unfold Pending; decide, rfl⟩

end ThetaSubchain
