/-
Reading recursive length prefix encodings.

The decoder is strict: a single small byte must be its own encoding, and the length in a long
header has no leading zero and is at least 56.
-/
import ThetaSubchain.Lib.Rlp

namespace Rlp

open List

inductive Head where
  | byte (x : UInt8)
  | payload (isList : Bool) (n : Nat)

def readHead : List UInt8 → Option (Head × List UInt8)
  | [] => none
  | x :: rest =>
    if x.toNat < 0x80 then some (.byte x, rest)
    else
      let offset := if x.toNat < 0xc0 then 0x80 else 0xc0
      let isList := decide (0xc0 ≤ x.toNat)
      if x.toNat < offset + 56 then some (.payload isList (x.toNat - offset), rest)
      else
        let k := x.toNat - (offset + 55)
        if rest.length < k then none
        else match decodeUint (rest.take k) with
          | none => none
          | some n => if n < 56 then none else some (.payload isList n, rest.drop k)

mutual

def decodeItem : Nat → List UInt8 → Option (Item × List UInt8)
  | 0, _ => none
  | fuel + 1, bytes =>
    match readHead bytes with
    | none => none
    | some (.byte x, rest) => some (.str [x], rest)
    | some (.payload isList n, rest) =>
      if rest.length < n then none
      else if isList then
        (decodeItems fuel (rest.take n)).map fun xs => (.list xs, rest.drop n)
      else if n = 1 ∧ (rest.take n).headD 0 < 0x80 then none
      else some (.str (rest.take n), rest.drop n)

def decodeItems : Nat → List UInt8 → Option (List Item)
  | 0, _ => none
  | fuel + 1, bytes =>
    if bytes.isEmpty then some []
    else match decodeItem fuel bytes with
      | none => none
      | some (x, rest) => (decodeItems fuel rest).map fun xs => x :: xs

end

def decode (bytes : List UInt8) : Option Item :=
  match decodeItem (2 * bytes.length) bytes with
  | some (x, []) => some x
  | _ => none

theorem readHead_header {o n : Nat} (ho : o = 0x80 ∨ o = 0xc0) (hn : n < 2 ^ 64) (u : List UInt8) :
    readHead (header o n ++ u) = some (.payload (decide (o = 0xc0)) n, u) := by
  obtain ⟨hlow, hhigh, hshort⟩ := headerByte_range o hn
  have hbyte : (UInt8.ofNat (headerByte o n)).toNat = headerByte o n := by
    rw [UInt8.toNat_ofNat', Nat.mod_eq_of_lt]
    omega
  have hoffset : (if headerByte o n < 0xc0 then 0x80 else 0xc0) = o := by
    by_cases h : headerByte o n < 0xc0
    · rw [if_pos h]
      omega
    · rw [if_neg h]
      omega
  have hkind : decide (0xc0 ≤ headerByte o n) = decide (o = 0xc0) := by
    rw [decide_eq_decide]
    omega
  rw [header_eq, cons_append, readHead]
  dsimp only
  rw [hbyte, if_neg (by omega), hoffset, hkind]
  by_cases hs : n < 56
  · rw [if_pos (hshort.1 hs), if_pos hs, nil_append, headerByte, if_pos hs]
    congr 3
    omega
  · rw [if_neg (mt hshort.2 hs), if_neg hs]
    have hk : headerByte o n - (o + 55) = (beBytes n).length := by
      rw [headerByte, if_neg hs]
      omega
    rw [hk, length_append, if_neg (by omega), take_left, drop_left,
      decodeUint_beBytes]
    dsimp only
    rw [if_neg hs]

theorem decodeItem_encodeStr {b : List UInt8} (hb : b.length < 2 ^ 64) (fuel : Nat)
    (u : List UInt8) : decodeItem (fuel + 1) (encodeStr b ++ u) = some (.str b, u) := by
  rw [encodeStr]
  by_cases hsmall : b.length = 1 ∧ b.headD 0 < 0x80
  · obtain ⟨x, rfl⟩ := length_eq_one_iff.1 hsmall.1
    have hx : x.toNat < 0x80 := UInt8.lt_iff_toNat_lt.1 hsmall.2
    rw [if_pos hsmall, singleton_append, decodeItem, readHead, if_pos hx]
  · rw [if_neg hsmall, append_assoc, decodeItem, readHead_header (.inl rfl) hb]
    dsimp only
    rw [length_append, if_neg (by omega), if_neg (by decide), take_left, drop_left,
      if_neg hsmall]

mutual

theorem decodeItem_encode : ∀ (x : Item) (fuel : Nat) (u : List UInt8),
    (encode x).length < 2 ^ 64 → 2 * (encode x).length ≤ fuel →
    decodeItem fuel (encode x ++ u) = some (x, u)
  | .str b, fuel, u, hlen, hfuel => by
    rw [encode] at hlen hfuel ⊢
    have hb := length_le_encodeStr b
    have hpos : 0 < (encodeStr b).length :=
      length_pos_iff.2 fun h => encode_ne_nil (.str b) (by rw [encode]; exact h)
    obtain ⟨n, rfl⟩ : ∃ n, fuel = n + 1 := ⟨fuel - 1, by omega⟩
    exact decodeItem_encodeStr (by omega) n u
  | .list xs, fuel, u, hlen, hfuel => by
    rw [encode, length_append] at hlen hfuel
    have hpos := length_header_pos 0xc0 (encodeList xs).length
    obtain ⟨n, rfl⟩ : ∃ n, fuel = n + 1 := ⟨fuel - 1, by omega⟩
    rw [encode, append_assoc, decodeItem, readHead_header (.inr rfl) (by omega)]
    dsimp only
    rw [length_append, if_neg (by omega), if_pos (by decide), take_left, drop_left,
      decodeItems_encodeList xs n (by omega) (by omega)]
    rfl

theorem decodeItems_encodeList : ∀ (xs : List Item) (fuel : Nat),
    (encodeList xs).length < 2 ^ 64 → 2 * (encodeList xs).length + 1 ≤ fuel →
    decodeItems fuel (encodeList xs) = some xs
  | [], fuel, _, hfuel => by
    obtain ⟨n, rfl⟩ : ∃ n, fuel = n + 1 := ⟨fuel - 1, by omega⟩
    rw [encodeList, decodeItems]
    rfl
  | x :: xs, fuel, hlen, hfuel => by
    rw [encodeList, length_append] at hlen hfuel
    have hpos : 0 < (encode x).length := length_pos_iff.2 (encode_ne_nil x)
    obtain ⟨n, rfl⟩ : ∃ n, fuel = n + 1 := ⟨fuel - 1, by omega⟩
    have hne : (encode x ++ encodeList xs).isEmpty = false := by
      cases he : encode x with
      | nil => exact absurd he (encode_ne_nil x)
      | cons y ys => rfl
    rw [encodeList, decodeItems, hne, decodeItem_encode x n _ (by omega) (by omega)]
    dsimp only
    rw [decodeItems_encodeList xs n (by omega) (by omega)]
    rfl

end

variable {x : Item}

theorem decode_encode (h : (encode x).length < 2 ^ 64) : decode (encode x) = some x := by
  have hitem := decodeItem_encode x (2 * (encode x).length) [] h (le_refl _)
  rw [append_nil] at hitem
  rw [decode, hitem]

theorem beBytes_of_decodeUint {b : List UInt8} {n : Nat} (h : decodeUint b = some n) :
    beBytes n = b := by
  unfold decodeUint at h
  split at h
  · cases h
  next hhead =>
  rw [Option.some.injEq] at h
  have hlast : ∀ hne : b.reverse.map UInt8.toNat ≠ [],
      (b.reverse.map UInt8.toNat).getLast hne ≠ 0 := by
    intro hne hzero
    have hget := getLast?_eq_some_getLast hne
    rw [hzero, getLast?_map, getLast?_reverse, Option.map_eq_some_iff] at hget
    obtain ⟨x, hx, hx0⟩ := hget
    rw [UInt8.toNat_inj.1 (show x.toNat = (0 : UInt8).toNat from hx0)] at hx
    exact hhead hx
  have hlt : ∀ l ∈ b.reverse.map UInt8.toNat, l < 256 := by
    intro l hl
    obtain ⟨x, -, rfl⟩ := mem_map.1 hl
    exact x.toNat_lt
  rw [beBytes, ← h, toNat, Nat.digits_ofDigits 256 (by norm_num) _ hlt hlast, map_map]
  simp [Function.comp_def]

theorem readHead_cons {y : UInt8} {ys : List UInt8} {head : Head} {rest : List UInt8}
    (hy : ¬y.toNat < 0x80) (h : readHead (y :: ys) = some (head, rest)) :
    ∃ isList n, head = .payload isList n ∧
      y :: ys = header (if isList then 0xc0 else 0x80) n ++ rest := by
  rw [readHead, if_neg hy] at h
  dsimp only at h
  have hbound := y.toNat_lt
  generalize hoff : (if y.toNat < 0xc0 then 0x80 else 0xc0) = o at h
  have ho : (if decide (0xc0 ≤ y.toNat) = true then 0xc0 else 0x80) = o := by
    rw [← hoff]
    simp only [decide_eq_true_eq]
    split <;> split <;> omega
  have hrange : o ≤ y.toNat ∧ y.toNat < o + 64 := by
    rw [← hoff]
    split <;> omega
  have hbyte : ∀ m : Nat, m = y.toNat → UInt8.ofNat m = y := by
    rintro m rfl
    exact UInt8.ofNat_toNat
  by_cases hshort : y.toNat < o + 56
  · rw [if_pos hshort] at h
    cases h
    refine ⟨_, _, rfl, ?_⟩
    rw [ho, header, if_pos (by omega), hbyte _ (by omega)]
    rfl
  · rw [if_neg hshort] at h
    by_cases hlen : ys.length < y.toNat - (o + 55)
    · rw [if_pos hlen] at h
      cases h
    rw [if_neg hlen] at h
    cases hk : decodeUint (ys.take (y.toNat - (o + 55))) with
    | none =>
      rw [hk] at h
      cases h
    | some k =>
      rw [hk] at h
      dsimp only at h
      by_cases hsmall : k < 56
      · rw [if_pos hsmall] at h
        cases h
      rw [if_neg hsmall] at h
      cases h
      have hbe := beBytes_of_decodeUint hk
      have hbelen : (beBytes k).length = y.toNat - (o + 55) := by
        rw [hbe, length_take]
        omega
      refine ⟨_, _, rfl, ?_⟩
      rw [ho, header, if_neg hsmall, hbelen, hbyte _ (by omega), hbe, cons_append,
        take_append_drop]

theorem eq_of_readHead {bytes rest : List UInt8} {head : Head}
    (h : readHead bytes = some (head, rest)) :
    (∃ x, head = .byte x ∧ x < 0x80 ∧ bytes = x :: rest) ∨
      ∃ isList n, head = .payload isList n ∧
        bytes = header (if isList then 0xc0 else 0x80) n ++ rest := by
  cases bytes with
  | nil => cases h
  | cons y ys =>
    by_cases hy : y.toNat < 0x80
    · rw [readHead, if_pos hy] at h
      cases h
      exact .inl ⟨y, rfl, UInt8.lt_iff_toNat_lt.2 hy, rfl⟩
    · exact .inr (readHead_cons hy h)

mutual

theorem eq_encode_of_decodeItem : ∀ (fuel : Nat) {bytes rest : List UInt8} {x : Item},
    decodeItem fuel bytes = some (x, rest) → bytes = encode x ++ rest
  | 0, _, _, _, h => by cases h
  | fuel + 1, bytes, rest, x, h => by
    rw [decodeItem] at h
    cases hhead : readHead bytes with
    | none =>
      rw [hhead] at h
      cases h
    | some found =>
      obtain ⟨head, after⟩ := found
      rw [hhead] at h
      rcases eq_of_readHead hhead with ⟨y, rfl, hy, rfl⟩ | ⟨isList, n, rfl, rfl⟩
      · cases h
        rw [encode, encodeStr, if_pos ⟨rfl, hy⟩]
        rfl
      · dsimp only at h
        by_cases hlen : after.length < n
        · rw [if_pos hlen] at h
          cases h
        rw [if_neg hlen] at h
        have htake : (after.take n).length = n := by
          rw [length_take]
          omega
        cases isList with
        | true =>
          rw [if_pos rfl] at h
          obtain ⟨xs, hxs, hx⟩ := Option.map_eq_some_iff.1 h
          cases hx
          rw [encode, ← eq_encodeList_of_decodeItems fuel hxs, htake, append_assoc,
            take_append_drop]
          rfl
        | false =>
          rw [if_neg (by decide)] at h
          by_cases hsmall : n = 1 ∧ (after.take n).headD 0 < 0x80
          · rw [if_pos hsmall] at h
            cases h
          rw [if_neg hsmall] at h
          cases h
          rw [encode, encodeStr, htake, if_neg hsmall, append_assoc, take_append_drop]
          rfl

theorem eq_encodeList_of_decodeItems : ∀ (fuel : Nat) {bytes : List UInt8} {xs : List Item},
    decodeItems fuel bytes = some xs → bytes = encodeList xs
  | 0, _, _, h => by cases h
  | fuel + 1, bytes, xs, h => by
    rw [decodeItems] at h
    by_cases hempty : bytes.isEmpty
    · rw [if_pos hempty] at h
      cases h
      rw [encodeList]
      exact isEmpty_iff.1 hempty
    · rw [if_neg hempty] at h
      cases hitem : decodeItem fuel bytes with
      | none =>
        rw [hitem] at h
        cases h
      | some found =>
        obtain ⟨x, rest⟩ := found
        rw [hitem] at h
        obtain ⟨ys, hys, hxs⟩ := Option.map_eq_some_iff.1 h
        cases hxs
        rw [encodeList, ← eq_encodeList_of_decodeItems fuel hys]
        exact eq_encode_of_decodeItem fuel hitem

end

def readItem (bytes : List UInt8) : Option (Item × List UInt8) :=
  decodeItem (2 * bytes.length) bytes

theorem eq_encode_of_readItem {bytes rest : List UInt8} (h : readItem bytes = some (x, rest)) :
    bytes = encode x ++ rest :=
  eq_encode_of_decodeItem _ h

theorem readItem_encode (h : (encode x).length < 2 ^ 64) (rest : List UInt8) :
    readItem (encode x ++ rest) = some (x, rest) := by
  refine decodeItem_encode x _ rest h ?_
  rw [length_append]
  omega

end Rlp
