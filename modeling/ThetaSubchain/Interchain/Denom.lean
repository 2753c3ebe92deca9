/-
Denoms (TFuelDenom, TNT20Denom, TNT721Denom, TNT1155Denom, ValidateDenom and the two extractors of
core/inter_chain_message_event.go).

`ValidateDenom` never looks at the chain ID, and one extractor does not know TNT1155.  The three
parsers accept several spellings of one value.
-/
import ThetaSubchain.Interchain.ParseEvent

namespace ThetaSubchain

open List Decimal

inductive CrossChainTokenType where
  | tfuel
  | tnt20
  | tnt721
  | tnt1155
deriving DecidableEq

def CrossChainTokenType.code : CrossChainTokenType → Int
  | .tfuel => 0
  | .tnt20 => 20
  | .tnt721 => 721
  | .tnt1155 => 1155

namespace Denom

open BigInt (digitValue scan setString)

def hexDigit (d : ℕ) : UInt8 := UInt8.ofNat (if d < 10 then 48 + d else 87 + d)

def nibbles (a : Address) : List ℕ :=
  let ds := Nat.digits 16 a.toNat
  ds ++ List.replicate (40 - ds.length) 0

def hexDigits (a : Address) : Bytes := ((nibbles a).map hexDigit).reverse

def upperByte (b : UInt8) : UInt8 := if 97 ≤ b then b - 32 else b

/-- `Address.Hex`.  Which letters are capitals depends on a hash of the digits. -/
def hex (upper : Address → ℕ → Bool) (a : Address) : Bytes :=
  48 :: 120 :: (hexDigits a).mapIdx fun i d => if upper a i then upperByte d else d

section Generators

variable (p : EventParser) (upper : Address → ℕ → Bool) (originatedChainID : Int)

def sprintfDenom (tokenType : CrossChainTokenType) (address : Bytes) : Bytes :=
  p.toLower ([47].intercalate
    [Decimal.ofInt originatedChainID, Decimal.ofInt tokenType.code, address])

def tfuelDenom : Bytes := sprintfDenom p originatedChainID .tfuel tfuelAddressPlaceholder

variable (contractAddress : Address)

def tnt20Denom : Bytes :=
  sprintfDenom p originatedChainID .tnt20 (hex upper contractAddress)

def tnt721Denom : Bytes :=
  sprintfDenom p originatedChainID .tnt721 (hex upper contractAddress)

def tnt1155Denom : Bytes :=
  sprintfDenom p originatedChainID .tnt1155 (hex upper contractAddress)

def denomOf : CrossChainTokenType → Bytes
  | .tfuel => tfuelDenom p originatedChainID
  | .tnt20 => tnt20Denom p upper originatedChainID contractAddress
  | .tnt721 => tnt721Denom p upper originatedChainID contractAddress
  | .tnt1155 => tnt1155Denom p upper originatedChainID contractAddress

end Generators

def extractCrossChainTokenTypeFromDenom (denom : Bytes) : Except Failure Int :=
  match denom.splitOn 47 with
  | [_, tokenType, _] =>
    match atoi tokenType with
    | none => .error (.error "invalid denom: %v")
    | some n => if n ≠ 0 ∧ n ≠ 20 ∧ n ≠ 721 then .error (.error "invalid denom: %v") else .ok n
  | _ => .error (.error "invalid denom: %v")

def stripHex : Bytes → Bytes
  | 48 :: 120 :: ds => ds
  | 48 :: 88 :: ds => ds
  | ds => ds

def isHexAddress (s : Bytes) : Bool :=
  (stripHex s).length == 40 && (stripHex s).all fun b => decide (digitValue b < 16)

def digitsValue (base : ℕ) (ds : Bytes) : ℕ := Nat.ofDigits base (ds.reverse.map digitValue)

def hexToAddress (s : Bytes) : Address := BitVec.ofNat 160 (digitsValue 16 (stripHex s))

variable {ds : Bytes}

theorem scan_eq {base : ℕ} (hne : ds ≠ []) (hds : ∀ d ∈ ds, digitValue d < base) :
    scan base ds = some (digitsValue base ds) := by
  have hfold : ∀ n, ds.foldlM (fun n b =>
      if digitValue b < base then some (n * base + digitValue b) else none) n =
        some (n * base ^ ds.length + digitsValue base ds) := by
    clear hne
    induction ds with
    | nil => simp [digitsValue]
    | cons d ds ih =>
      intro n
      rw [foldlM_cons, if_pos (hds d mem_cons_self), Option.bind_eq_bind,
        Option.bind_some, ih fun d hd => hds d (.tail _ hd)]
      simp only [digitsValue, reverse_cons, map_append, Nat.ofDigits_append,
        length_map, length_reverse, map_cons, map_nil, Nat.ofDigits_singleton,
        length_cons, pow_succ]
      ring_nf
  cases ds with
  | nil => exact absurd rfl hne
  | cons d ds =>
    rw [scan, hfold 0, Nat.zero_mul, Nat.zero_add]
    nofun

theorem digitValue_lt_ten (b : UInt8) : digitValue b < 10 ↔ 48 ≤ b.toNat ∧ b.toNat ≤ 57 := by
  simp only [digitValue, UInt8.le_iff_toNat_le, UInt8.reduceToNat]
  split_ifs <;> omega

theorem digitValue_digit (b : UInt8) (h : 48 ≤ b.toNat ∧ b.toNat ≤ 57) :
    digitValue b = b.toNat - 48 := by
  rw [digitValue, if_pos]
  exact ⟨UInt8.le_iff_toNat_le.2 h.1, UInt8.le_iff_toNat_le.2 h.2⟩

theorem ofNat_ne_nil (n : ℕ) : ofNat n ≠ [] := by
  intro h
  have hvalue := value_ofNat n
  rw [h] at hvalue
  rw [show n = 0 from hvalue.symm] at h
  cases h

theorem scan_ofNat (n : ℕ) : scan 10 (ofNat n) = some n := by
  have hdigits := fun d (hd : d ∈ ofNat n) => digit_of_mem hd
  rw [scan_eq (ofNat_ne_nil n) fun d hd => (digitValue_lt_ten d).2 (hdigits d hd)]
  conv_rhs => rw [← value_ofNat n]
  rw [digitsValue, value]
  congr 2
  exact map_congr_left fun d hd => digitValue_digit d (hdigits d (mem_reverse.1 hd))

theorem setString_ofInt (n : Int) : setString 10 (ofInt n) = some n := by
  cases n with
  | negSucc n =>
    rw [ofInt, setString, scan_ofNat]
    rfl
  | ofNat n =>
    have hscan := scan_ofNat n
    rw [ofInt]
    cases hds : ofNat n with
    | nil => exact absurd hds (ofNat_ne_nil n)
    | cons d ds =>
      have hd := digit_of_mem (hds ▸ .head _ : d ∈ ofNat n)
      rw [hds] at hscan
      unfold setString
      split
      · revert hd
        simp_all
      · revert hd
        simp_all
      · rw [hscan]
        rfl

theorem nibble_lt {a : Address} {d : ℕ} (hd : d ∈ nibbles a) : d < 16 := by
  rcases mem_append.1 hd with hd | hd
  · exact Nat.digits_lt_base (by norm_num) hd
  · rw [eq_of_mem_replicate hd]
    norm_num

theorem hexDigit_spec : ∀ d < 16, digitValue (hexDigit d) = d ∧ hexDigit d < 128 ∧
    upperByte (hexDigit d) < 128 ∧ lowerByte (hexDigit d) = hexDigit d ∧
    lowerByte (upperByte (hexDigit d)) = hexDigit d ∧ hexDigit d ≠ 47 := by
  decide

variable {b : UInt8}

theorem exists_of_mem_hexDigits {a : Address} (hb : b ∈ hexDigits a) :
    ∃ d < 16, b = hexDigit d := by
  rw [hexDigits, mem_reverse, mem_map] at hb
  obtain ⟨d, hd, rfl⟩ := hb
  exact ⟨d, nibble_lt hd, rfl⟩

theorem ofDigits_nibbles (a : Address) : Nat.ofDigits 16 (nibbles a) = a.toNat := by
  rw [nibbles, Nat.ofDigits_append, Nat.ofDigits_digits, Nat.ofDigits_replicate_zero, Nat.mul_zero,
    Nat.add_zero]

theorem length_nibbles (a : Address) : (nibbles a).length = 40 := by
  have hlength : (Nat.digits 16 a.toNat).length ≤ 40 := by
    refine (Nat.digits_length_le_iff (by norm_num) _).2 ?_
    have hlt := a.isLt
    norm_num at hlt ⊢
    omega
  rw [nibbles, length_append, length_replicate]
  omega

theorem isHexAddress_iff : isHexAddress (48 :: 120 :: ds) = true ↔
    ds.length = 40 ∧ ∀ b ∈ ds, digitValue b < 16 := by
  rw [isHexAddress, show stripHex (48 :: 120 :: ds) = ds from rfl]
  simp

theorem isHexAddress_hexDigits (a : Address) : isHexAddress (48 :: 120 :: hexDigits a) = true := by
  refine isHexAddress_iff.2 ⟨by simp [hexDigits, length_nibbles], fun b hb => ?_⟩
  obtain ⟨d, hd, rfl⟩ := exists_of_mem_hexDigits hb
  rw [(hexDigit_spec d hd).1]
  exact hd

theorem hexToAddress_hexDigits (a : Address) : hexToAddress (48 :: 120 :: hexDigits a) = a := by
  have hid : (nibbles a).map (digitValue ∘ hexDigit) = nibbles a := by
    conv_rhs => rw [← map_id (nibbles a)]
    exact map_congr_left fun d hd => (hexDigit_spec d (nibble_lt hd)).1
  rw [hexToAddress, show stripHex (48 :: 120 :: hexDigits a) = hexDigits a from rfl, digitsValue,
    hexDigits, reverse_reverse, map_map, hid, ofDigits_nibbles, BitVec.ofNat_toNat,
    BitVec.setWidth_eq]

variable {p : EventParser} {upper : Address → ℕ → Bool} {c : Int} {t : CrossChainTokenType}
  {a : Address}

def addressPart (a : Address) : CrossChainTokenType → Bytes
  | .tfuel => tfuelAddressPlaceholder
  | _ => 48 :: 120 :: hexDigits a

theorem addressPart_of_ne (ht : t ≠ .tfuel) : addressPart a t = 48 :: 120 :: hexDigits a := by
  cases t with
  | tfuel => exact absurd rfl ht
  | _ => rfl

theorem byte_ofInt {n : Int} (hb : b ∈ ofInt n) : b < 128 ∧ lowerByte b = b ∧ b ≠ 47 := by
  rcases mem_ofInt hb with rfl | hb
  · decide
  · refine ⟨UInt8.lt_iff_toNat_lt.2 (by simp; omega), if_neg ?_, ?_⟩
    · rintro ⟨h, -⟩
      have := UInt8.le_iff_toNat_le.1 h
      simp at this
      omega
    · rintro rfl
      simp at hb

theorem hex_spec : (∀ b ∈ hex upper a, b < 128) ∧
    (hex upper a).map lowerByte = 48 :: 120 :: hexDigits a := by
  have hdigit : ∀ i (hi : i < (hexDigits a).length), ∃ d < 16, (hexDigits a)[i] = hexDigit d :=
    fun i hi => exists_of_mem_hexDigits (getElem_mem hi)
  constructor
  · simp only [hex, mem_cons]
    rintro b (rfl | rfl | hb)
    · decide
    · decide
    · obtain ⟨i, hi, rfl⟩ := mem_mapIdx.1 hb
      obtain ⟨d, hd, heq⟩ := hdigit i hi
      obtain ⟨-, hlow, hup, -⟩ := hexDigit_spec d hd
      rw [heq]
      split
      · exact hup
      · exact hlow
  · refine congrArg (48 :: 120 :: ·) (ext_getElem (by simp) fun i h₁ h₂ => ?_)
    obtain ⟨d, hd, heq⟩ := hdigit i h₂
    obtain ⟨-, -, -, hlow, hup, -⟩ := hexDigit_spec d hd
    rw [getElem_map, getElem_mapIdx, heq]
    split
    · exact hup
    · exact hlow

theorem toLower_parts {x y z : Bytes} (hx : ∀ b ∈ x, b < 128) (hy : ∀ b ∈ y, b < 128)
    (hz : ∀ b ∈ z, b < 128) : p.toLower ([47].intercalate [x, y, z]) =
      [47].intercalate [x.map lowerByte, y.map lowerByte, z.map lowerByte] := by
  rw [EventParser.toLower, if_pos]
  · simp [intercalate, intersperse]
    decide
  · rw [all_eq_true]
    simp only [intercalate, intersperse, flatten_cons, flatten_nil,
      mem_append, mem_singleton, append_nil, decide_eq_true_eq]
    rintro b (hb | rfl | hb | rfl | hb)
    · exact hx b hb
    · decide
    · exact hy b hb
    · decide
    · exact hz b hb

variable {s : Bytes}

theorem map_lowerByte : s.map lowerByte = s ↔ ∀ b ∈ s, lowerByte b = b := by
  conv_lhs => rhs; rw [← map_id s]
  exact map_inj_left

theorem byte_tfuelAddressPlaceholder :
    ∀ b ∈ tfuelAddressPlaceholder, b < 128 ∧ lowerByte b = b ∧ b ≠ 47 := by
  decide +kernel

theorem denomOf_eq : denomOf p upper c a t =
    [47].intercalate [ofInt c, ofInt t.code, addressPart a t] := by
  have hsprintf : ∀ address : Bytes, (∀ b ∈ address, b < 128) → sprintfDenom p c t address =
      [47].intercalate [ofInt c, ofInt t.code, address.map lowerByte] := by
    intro address hascii
    refine (toLower_parts (fun b hb => (byte_ofInt hb).1) (fun b hb => (byte_ofInt hb).1)
      hascii).trans ?_
    rw [map_lowerByte.2 fun b hb => (byte_ofInt hb).2.1,
      map_lowerByte.2 fun b hb => (byte_ofInt hb).2.1]
  cases t with
  | tfuel =>
    refine (hsprintf _ fun b hb => (byte_tfuelAddressPlaceholder b hb).1).trans ?_
    rw [map_lowerByte.2 fun b hb => (byte_tfuelAddressPlaceholder b hb).2.1]
    rfl
  | _ =>
    refine (hsprintf _ hex_spec.1).trans ?_
    rw [hex_spec.2]
    rfl

theorem byte_addressPart (hb : b ∈ addressPart a t) : b < 128 ∧ lowerByte b = b ∧ b ≠ 47 := by
  cases t with
  | tfuel => exact byte_tfuelAddressPlaceholder b hb
  | _ =>
    simp only [addressPart, mem_cons] at hb
    obtain rfl | rfl | hb := hb
    · decide
    · decide
    · obtain ⟨d, hd, rfl⟩ := exists_of_mem_hexDigits hb
      obtain ⟨-, hascii, -, hlower, -, hslash⟩ := hexDigit_spec d hd
      exact ⟨hascii, hlower, hslash⟩

theorem splitOn_denomOf : (denomOf p upper c a t).splitOn 47 =
    [ofInt c, ofInt t.code, addressPart a t] := by
  rw [denomOf_eq]
  refine splitOn_intercalate 47 ?_ (cons_ne_nil _ _)
  simp only [mem_cons, not_mem_nil, or_false]
  rintro part (rfl | rfl | rfl) hslash
  · exact (byte_ofInt hslash).2.2 rfl
  · exact (byte_ofInt hslash).2.2 rfl
  · exact (byte_addressPart hslash).2.2 rfl

theorem toLower_denomOf : p.toLower (denomOf p upper c a t) = denomOf p upper c a t := by
  rw [denomOf_eq, toLower_parts (fun b hb => (byte_ofInt hb).1) (fun b hb => (byte_ofInt hb).1)
      fun b hb => (byte_addressPart hb).1, map_lowerByte.2 fun b hb => (byte_ofInt hb).2.1,
    map_lowerByte.2 fun b hb => (byte_ofInt hb).2.1,
    map_lowerByte.2 fun b hb => (byte_addressPart hb).2.1]

theorem validateDenom_eq_ok : validateDenom p s = .ok () ↔
    p.toLower s = s ∧ ∃ chainID tokenType address t, s.splitOn 47 = [chainID, tokenType, address] ∧
      atoi tokenType = some (CrossChainTokenType.code t) ∧
      if t = .tfuel then address = tfuelAddressPlaceholder else p.isHexAddress address = true := by
  unfold validateDenom
  by_cases hlower : p.toLower s = s
  · rw [if_neg (not_not.2 hlower)]
    constructor
    · intro h
      refine ⟨hlower, ?_⟩
      split at h
      · next chainID tokenType address hparts =>
        split at h
        · cases h
        · next hatoi =>
          split at h
          · cases h
          · next haddress => exact ⟨_, _, _, .tfuel, hparts, hatoi, not_not.1 haddress⟩
        · next hatoi => exact ⟨_, _, _, .tnt20, hparts, hatoi, by simpa using h⟩
        · next hatoi => exact ⟨_, _, _, .tnt721, hparts, hatoi, by simpa using h⟩
        · next hatoi => exact ⟨_, _, _, .tnt1155, hparts, hatoi, by simpa using h⟩
        · cases h
      · cases h
    · rintro ⟨-, chainID, tokenType, address, t, hparts, hatoi, haddress⟩
      rw [hparts]
      dsimp only
      rw [hatoi]
      cases t <;> simp_all [CrossChainTokenType.code]
  · simp [hlower]

theorem atoi_code (t : CrossChainTokenType) : atoi (ofInt t.code) = some t.code := by
  rw [atoi, setString_ofInt]
  cases t <;> decide

theorem validateDenom_denomOf (hp : p.isHexAddress = isHexAddress) :
    validateDenom p (denomOf p upper c a t) = .ok () := by
  refine validateDenom_eq_ok.2 ⟨toLower_denomOf, _, _, _, t, splitOn_denomOf, atoi_code t, ?_⟩
  cases t with
  | tfuel => rfl
  | _ => exact (congrFun hp _).trans (isHexAddress_hexDigits a)

theorem originatedChainID_denomOf : originatedChainID (denomOf p upper c a t) = .ok c := by
  rw [originatedChainID, splitOn_denomOf]
  simp only [setString_ofInt]

theorem extractType_denomOf : extractCrossChainTokenTypeFromDenom (denomOf p upper c a t) =
    if t = .tnt1155 then .error (.error "invalid denom: %v") else .ok t.code := by
  rw [extractCrossChainTokenTypeFromDenom, splitOn_denomOf]
  simp only [atoi_code]
  cases t <;> rfl

def Extractable (s : Bytes) : Prop :=
  ∃ chainID tokenType address, s.splitOn 47 = [chainID, tokenType, address] ∧
    setString 10 chainID ≠ none ∧ atoi tokenType ≠ some 1155

theorem extractable_iff (h : validateDenom p s = .ok ()) :
    ((∃ c, originatedChainID s = .ok c) ∧ ∃ n, extractCrossChainTokenTypeFromDenom s = .ok n) ↔
      Extractable s := by
  obtain ⟨-, chainID, tokenType, address, t, hparts, hatoi, -⟩ := validateDenom_eq_ok.1 h
  have hchain : (∃ c, originatedChainID s = .ok c) ↔ setString 10 chainID ≠ none := by
    rw [originatedChainID, hparts]
    dsimp only
    cases setString 10 chainID <;> simp
  have htype : (∃ n, extractCrossChainTokenTypeFromDenom s = .ok n) ↔
      atoi tokenType ≠ some 1155 := by
    rw [extractCrossChainTokenTypeFromDenom, hparts]
    simp only [hatoi]
    cases t <;> simp [CrossChainTokenType.code]
  rw [hchain, htype]
  constructor
  · exact fun hboth => ⟨chainID, tokenType, address, hparts, hboth⟩
  · rintro ⟨chainID', tokenType', address', hparts', hboth⟩
    rw [hparts, cons.injEq, cons.injEq] at hparts'
    obtain ⟨rfl, rfl, -⟩ := hparts'
    exact hboth

/-- What the generators build is read back as what it was built from, except for TNT1155, and a
denom that is accepted is read by both extractors exactly if its chain ID is a decimal number and its
token type not that of TNT1155. -/
theorem denoms_round_trip_iff (hp : p.isHexAddress = isHexAddress) (upper : Address → ℕ → Bool)
    (c : ℕ) (a : Address) (t : CrossChainTokenType) (s : Bytes) :
    ((validateDenom p (denomOf p upper c a t) = .ok () ∧
      originatedChainID (denomOf p upper c a t) = .ok (c : Int) ∧
      extractCrossChainTokenTypeFromDenom (denomOf p upper c a t) = .ok t.code) ↔ t ≠ .tnt1155) ∧
    (validateDenom p s = .ok () →
      (((∃ c, originatedChainID s = .ok c) ∧
        ∃ n, extractCrossChainTokenTypeFromDenom s = .ok n) ↔ Extractable s)) := by
  refine ⟨?_, extractable_iff⟩
  rw [extractType_denomOf]
  constructor
  · rintro ⟨-, -, h⟩ rfl
    cases h
  · intro ht
    rw [if_neg ht]
    exact ⟨validateDenom_denomOf hp, originatedChainID_denomOf, rfl⟩

def plainParser : EventParser where
  unpackIntoInterface _ _ _ := ⟨[], 0, 0, none, none⟩
  keccak256Hex := id
  unpackDetails _ _ _ := ⟨none, none, [], [], 0, []⟩
  toLowerUnicode := id
  isHexAddress := isHexAddress
  keccak256 _ := 0

/-- The TNT1155 denoms that are built are refused by one extractor, and a denom whose chain ID is
the letter x is accepted and refused by the other. -/
theorem denoms_do_not_round_trip :
    (validateDenom plainParser (tnt1155Denom plainParser (fun _ _ => false) 366 1) = .ok () ∧
      extractCrossChainTokenTypeFromDenom (tnt1155Denom plainParser (fun _ _ => false) 366 1) =
        .error (.error "invalid denom: %v")) ∧
    validateDenom plainParser ([120, 47, 48, 47] ++ tfuelAddressPlaceholder) = .ok () ∧
      originatedChainID ([120, 47, 48, 47] ++ tfuelAddressPlaceholder) =
        .error (.error "invalid denom: %v") := by
  refine ⟨⟨validateDenom_denomOf (t := .tnt1155) rfl, extractType_denomOf (t := .tnt1155)⟩, ?_⟩
  decide

/-- A denom that is built, and one with a plus sign before its chain ID. -/
theorem denoms_round_trip_iff_tnt20 :
    (originatedChainID (tnt20Denom plainParser (fun _ _ => true) 366 1) = .ok 366 ∧
      extractCrossChainTokenTypeFromDenom (tnt20Denom plainParser (fun _ _ => true) 366 1) =
        .ok 20) ∧
    (∃ c, originatedChainID ([43, 55, 47, 48, 47] ++ tfuelAddressPlaceholder) = .ok c) ∧
    ∃ n, extractCrossChainTokenTypeFromDenom ([43, 55, 47, 48, 47] ++ tfuelAddressPlaceholder) =
      .ok n := by
  obtain ⟨hbuilt, haccepted⟩ := denoms_round_trip_iff (p := plainParser) rfl (fun _ _ => true) 366 1
    .tnt20 ([43, 55, 47, 48, 47] ++ tfuelAddressPlaceholder)
  refine ⟨(hbuilt.mpr nofun).2, (haccepted (by decide)).mpr ?_⟩
  exact ⟨[43, 55], [48], tfuelAddressPlaceholder, by decide, by decide, by decide⟩

def Denotes (p : EventParser) (s : Bytes) (c : Int) (t : CrossChainTokenType) (a : Address) :
    Prop :=
  validateDenom p s = .ok () ∧ ∃ chainID tokenType address,
    s.splitOn 47 = [chainID, tokenType, address] ∧ setString 10 chainID = some c ∧
      atoi tokenType = some t.code ∧ hexToAddress address = a

/-- The numbers have no plus sign and no leading zero, and the address starts with 0x. -/
def WellSpelled (s : Bytes) : Prop :=
  ∃ c n ds, s.splitOn 47 = [Decimal.ofInt c, Decimal.ofInt n, 48 :: 120 :: ds]

theorem wellSpelled_denomOf : WellSpelled (denomOf p upper c a t) := by
  cases t <;> exact ⟨c, _, _, splitOn_denomOf⟩

theorem denotes_denomOf (hp : p.isHexAddress = isHexAddress) (ha : t = .tfuel → a = 0) :
    Denotes p (denomOf p upper c a t) c t a := by
  refine ⟨validateDenom_denomOf hp, _, _, _, splitOn_denomOf, setString_ofInt c, atoi_code t, ?_⟩
  cases t with
  | tfuel =>
    rw [ha rfl]
    decide
  | _ => exact hexToAddress_hexDigits a

theorem hexByte_spec (b : UInt8) (hb : digitValue b < 16) :
    b < 128 ∧ (lowerByte b = b → hexDigit (digitValue b) = b) := by
  have hall : ∀ n < 256, digitValue (UInt8.ofNat n) < 16 → UInt8.ofNat n < 128 ∧
      (lowerByte (UInt8.ofNat n) = UInt8.ofNat n →
        hexDigit (digitValue (UInt8.ofNat n)) = UInt8.ofNat n) := by decide +kernel
  have hspec := hall b.toNat b.toNat_lt
  rw [UInt8.ofNat_toNat] at hspec
  exact hspec hb

theorem hexDigits_hexToAddress (hds : isHexAddress (48 :: 120 :: ds) = true)
    (hlower : ds.map lowerByte = ds) : hexDigits (hexToAddress (48 :: 120 :: ds)) = ds := by
  obtain ⟨hlength, hdigits⟩ := isHexAddress_iff.1 hds
  have hlt : ∀ d ∈ ds.reverse.map digitValue, d < 16 := by
    intro d hd
    obtain ⟨b, hb, rfl⟩ := mem_map.1 hd
    exact hdigits b (mem_reverse.1 hb)
  have hnibbles : nibbles (hexToAddress (48 :: 120 :: ds)) = ds.reverse.map digitValue := by
    refine Nat.ofDigits_inj_of_len_eq (by norm_num) ?_ (fun _ => nibble_lt) hlt ?_
    · rw [length_nibbles, length_map, length_reverse, hlength]
    · have hbound := Nat.ofDigits_lt_base_pow_length (by norm_num) hlt
      rw [length_map, length_reverse, hlength] at hbound
      rw [ofDigits_nibbles, hexToAddress, BitVec.toNat_ofNat]
      exact Nat.mod_eq_of_lt (lt_of_lt_of_le hbound (by norm_num))
  have hid : ds.reverse.map (hexDigit ∘ digitValue) = ds.reverse := by
    conv_rhs => rw [← map_id ds.reverse]
    refine map_congr_left fun b hb => ?_
    have hb := mem_reverse.1 hb
    exact (hexByte_spec b (hdigits b hb)).2 (map_lowerByte.1 hlower b hb)
  rw [hexDigits, hnibbles, map_map, hid, reverse_reverse]

theorem Denotes.address (h : Denotes p s c t a) :
    p.toLower s = s ∧ ∃ chainID tokenType address, s.splitOn 47 = [chainID, tokenType, address] ∧
      setString 10 chainID = some c ∧ atoi tokenType = some t.code ∧ hexToAddress address = a ∧
      if t = .tfuel then address = tfuelAddressPlaceholder else p.isHexAddress address = true := by
  obtain ⟨hvalid, chainID, tokenType, address, hparts, hc, ht, ha⟩ := h
  obtain ⟨hlower, _, _, _, t', hparts', ht', haddress⟩ := validateDenom_eq_ok.1 hvalid
  rw [hparts] at hparts'
  cases hparts'
  have htt : t' = t := by
    rw [ht, Option.some.injEq] at ht'
    cases t <;> cases t' <;> first | rfl | cases ht'
  rw [htt] at haddress
  exact ⟨hlower, chainID, tokenType, address, hparts, hc, ht, ha, haddress⟩

theorem eq_denomOf (hp : p.isHexAddress = isHexAddress) (upper : Address → ℕ → Bool)
    (h : Denotes p s c t a) (hs : WellSpelled s) : s = denomOf p upper c a t := by
  obtain ⟨hlower, _, _, _, hparts, hc, ht, ha, haddress⟩ := h.address
  obtain ⟨c', n, ds, hspelled⟩ := hs
  rw [hparts] at hspelled
  cases hspelled
  rw [setString_ofInt, Option.some.injEq] at hc
  rw [atoi, setString_ofInt, Option.filter_eq_some_iff, Option.some.injEq] at ht
  have hs : s = [47].intercalate [ofInt c, ofInt t.code, 48 :: 120 :: ds] := by
    rw [← hc, ← ht.1, ← hparts, intercalate_splitOn]
  rw [denomOf_eq, hs]
  by_cases htfuel : t = .tfuel
  · rw [if_pos htfuel] at haddress
    rw [haddress, htfuel]
    rfl
  · rw [if_neg htfuel, hp] at haddress
    have hascii : ∀ b ∈ 48 :: 120 :: ds, b < 128 := by
      simp only [mem_cons]
      rintro b (rfl | rfl | hb)
      · decide
      · decide
      · exact (hexByte_spec b ((isHexAddress_iff.1 haddress).2 b hb)).1
    rw [hs, toLower_parts (fun b hb => (byte_ofInt hb).1) (fun b hb => (byte_ofInt hb).1) hascii,
      map_lowerByte.2 fun b hb => (byte_ofInt hb).2.1,
      map_lowerByte.2 fun b hb => (byte_ofInt hb).2.1] at hlower
    simp only [intercalate, intersperse, flatten_cons, flatten_nil,
      append_cancel_left_eq, append_nil, map_cons, cons.injEq] at hlower
    rw [← ha, addressPart_of_ne htfuel, hexDigits_hexToAddress haddress hlower.2.2]

/-- In a set of denoms that has those that are built for its tokens, no token has two denoms exactly
if all of them are spelled well. -/
theorem denoms_canonical_iff (hp : p.isHexAddress = isHexAddress) (upper : Address → ℕ → Bool)
    (D : Set Bytes) (hbuilt : ∀ s ∈ D, ∀ c t a, Denotes p s c t a → denomOf p upper c a t ∈ D) :
    (∀ s ∈ D, ∀ s' ∈ D, ∀ c t a, Denotes p s c t a → Denotes p s' c t a → s = s') ↔
      ∀ s ∈ D, ∀ c t a, Denotes p s c t a → WellSpelled s := by
  constructor
  · intro hone s hs c t a h
    have ha : t = .tfuel → a = 0 := by
      intro htfuel
      obtain ⟨-, _, _, _, -, -, -, rfl, haddress⟩ := h.address
      rw [if_pos htfuel] at haddress
      rw [haddress]
      decide
    rw [hone s hs _ (hbuilt s hs c t a h) c t a h (denotes_denomOf hp ha)]
    exact wellSpelled_denomOf
  · intro hall s hs s' hs' c t a h h'
    rw [eq_denomOf hp upper h (hall s hs c t a h), eq_denomOf hp upper h' (hall s' hs' c t a h')]

theorem token_under_two_denoms :
    Denotes plainParser ([53, 47, 48, 47] ++ tfuelAddressPlaceholder) 5 .tfuel 0 ∧
      Denotes plainParser ([48, 53, 47, 48, 47] ++ tfuelAddressPlaceholder) 5 .tfuel 0 ∧
      [53, 47, 48, 47] ++ tfuelAddressPlaceholder ≠ [48, 53, 47, 48, 47] ++ tfuelAddressPlaceholder :=
  ⟨⟨by decide, _, _, _, rfl, by decide⟩,
    ⟨by decide, _, _, _, rfl, by decide⟩, by decide⟩

theorem denoms_canonical_iff_tfuel :
    [53, 47, 48, 47] ++ tfuelAddressPlaceholder = tfuelDenom plainParser 5 := by
  have hspelled : WellSpelled ([53, 47, 48, 47] ++ tfuelAddressPlaceholder) :=
    ⟨5, 0, replicate 40 48, by simp [ofInt, ofNat]; decide⟩
  show _ = denomOf plainParser (fun _ _ => false) 5 0 .tfuel
  refine (denoms_canonical_iff (p := plainParser) rfl (fun _ _ => false) {s | WellSpelled s}
    fun _ _ _ _ _ _ => wellSpelled_denomOf).2 (fun _ hs _ _ _ _ => hs) _ hspelled _
    wellSpelled_denomOf 5 .tfuel 0 ?_ (denotes_denomOf rfl fun _ => rfl)
  exact ⟨by decide, _, _, _, rfl, by decide⟩

end Denom

end ThetaSubchain
