/-
Recursive length prefix encoding.

An encoded item can be cut off from any bytes that follow it, and the encoding is injective for
payloads of less than `2 ^ 64` bytes.
-/
import Mathlib.Data.Nat.Digits.Lemmas

namespace Rlp

open List

inductive Item where
  | str (b : List UInt8)
  | list (xs : List Item)

def beBytes (n : Nat) : List UInt8 := ((Nat.digits 256 n).map UInt8.ofNat).reverse

def fixedBytes : Nat → Nat → List UInt8
  | 0, _ => []
  | k + 1, n => fixedBytes k (n / 256) ++ [UInt8.ofNat n]

/-- The header of a payload of `n` bytes: `0x80` is the offset of a byte string and
`0xc0` that of a list. -/
def header (offset n : Nat) : List UInt8 :=
  if n < 56 then [UInt8.ofNat (offset + n)]
  else UInt8.ofNat (offset + 55 + (beBytes n).length) :: beBytes n

def encodeStr (b : List UInt8) : List UInt8 :=
  -- a single byte below 0x80 is its own encoding
  if b.length = 1 ∧ b.headD 0 < 0x80 then b else header 0x80 b.length ++ b

mutual

def encode : Item → List UInt8
  | .str b => encodeStr b
  | .list xs => header 0xc0 (encodeList xs).length ++ encodeList xs

def encodeList : List Item → List UInt8
  | [] => []
  | x :: xs => encode x ++ encodeList xs

end

def Item.uint (n : Nat) : Item := .str (beBytes n)

def Item.fixed (k n : Nat) : Item := .str (fixedBytes k n)

theorem map_toNat_beBytes (n : Nat) : ((beBytes n).reverse).map UInt8.toNat = Nat.digits 256 n := by
  unfold beBytes
  rw [reverse_reverse, map_map]
  conv_rhs => rw [← map_id (Nat.digits 256 n)]
  refine map_congr_left fun d hd => ?_
  have hlt := Nat.digits_lt_base (by norm_num) hd
  rw [Function.comp_apply, UInt8.toNat_ofNat', Nat.mod_eq_of_lt hlt, id]

theorem beBytes_injective : Function.Injective beBytes := by
  intro m n h
  have := map_toNat_beBytes m
  rw [h, map_toNat_beBytes n] at this
  exact (Nat.digits_inj_iff.1 this).symm

variable {n : Nat}

theorem length_beBytes_le_iff {k : Nat} : (beBytes n).length ≤ k ↔ n < 256 ^ k := by
  unfold beBytes
  rw [length_reverse, length_map, Nat.digits_length_le_iff (by norm_num)]

theorem length_beBytes_le (h : n < 2 ^ 64) : (beBytes n).length ≤ 8 :=
  length_beBytes_le_iff.2 (h.trans_eq (by norm_num))

theorem length_beBytes_pos (h : 0 < n) : 0 < (beBytes n).length := by
  unfold beBytes
  rw [length_reverse, length_map, length_pos_iff]
  exact Nat.digits_ne_nil_iff_ne_zero.2 h.ne'

theorem fixedBytes_inj {k m n : Nat} (hm : m < 256 ^ k) (hn : n < 256 ^ k)
    (h : fixedBytes k m = fixedBytes k n) : m = n := by
  induction k generalizing m n with
  | zero => simp only [pow_zero] at hm hn; omega
  | succ k ih =>
    rw [fixedBytes, fixedBytes] at h
    obtain ⟨hhigh, hlow⟩ := append_inj' h rfl
    have hdiv : m / 256 = n / 256 := by
      refine ih ?_ ?_ hhigh
      · exact Nat.div_lt_of_lt_mul (by rw [pow_succ] at hm; omega)
      · exact Nat.div_lt_of_lt_mul (by rw [pow_succ] at hn; omega)
    have hmod : m % 256 = n % 256 := by
      have := congrArg UInt8.toNat (cons.inj hlow).1
      rwa [UInt8.toNat_ofNat', UInt8.toNat_ofNat'] at this
    omega

theorem fixedBytes_zero (k : Nat) : fixedBytes k 0 = replicate k 0 := by
  induction k with
  | zero => rfl
  | succ k ih => rw [fixedBytes, Nat.zero_div, ih, replicate_succ']; rfl

@[simp] theorem length_fixedBytes (k n : Nat) : (fixedBytes k n).length = k := by
  induction k generalizing n with
  | zero => rfl
  | succ k ih => rw [fixedBytes, length_append, ih]; rfl

variable (b : List UInt8)

def toNat : Nat := Nat.ofDigits 256 (b.reverse.map UInt8.toNat)

def decodeUint : Option Nat := if b.head? = some 0 then none else some (toNat b)

theorem toNat_beBytes (n : Nat) : toNat (beBytes n) = n := by
  rw [toNat, map_toNat_beBytes, Nat.ofDigits_digits]

theorem head_beBytes_ne_zero (n : Nat) : (beBytes n).head? ≠ some 0 := by
  intro h
  rw [beBytes, head?_reverse, getLast?_map, Option.map_eq_some_iff] at h
  obtain ⟨d, hd, hzero⟩ := h
  have hmem := mem_of_getLast? hd
  have hne : Nat.digits 256 n ≠ [] := ne_nil_of_mem hmem
  have hn : n ≠ 0 := Nat.digits_ne_nil_iff_ne_zero.1 hne
  have hlast : d = (Nat.digits 256 n).getLast hne := by
    rw [getLast?_eq_some_getLast hne] at hd
    exact (Option.some.inj hd).symm
  have hlt := Nat.digits_lt_base (by norm_num) hmem
  have hd0 : d = 0 := by
    have := congrArg UInt8.toNat hzero
    rwa [UInt8.toNat_ofNat', Nat.mod_eq_of_lt hlt] at this
  exact Nat.getLast_digit_ne_zero 256 hn (hlast ▸ hd0)

@[simp] theorem decodeUint_beBytes (n : Nat) : decodeUint (beBytes n) = some n := by
  rw [decodeUint, if_neg (head_beBytes_ne_zero n), toNat_beBytes]

theorem toNat_concat (x : UInt8) : toNat (b ++ [x]) = x.toNat + 256 * toNat b := by
  rw [toNat, reverse_append, map_append, reverse_singleton, map_singleton,
    singleton_append, Nat.ofDigits_cons]
  rfl

theorem toNat_fixedBytes {k n : Nat} (h : n < 256 ^ k) : toNat (fixedBytes k n) = n := by
  induction k generalizing n with
  | zero =>
    rw [pow_zero] at h
    rw [fixedBytes, toNat]
    show 0 = n
    omega
  | succ k ih =>
    have hdiv : n / 256 < 256 ^ k := Nat.div_lt_of_lt_mul (by rw [pow_succ] at h; omega)
    rw [fixedBytes, toNat_concat, ih hdiv, UInt8.toNat_ofNat']
    show n % 256 + 256 * (n / 256) = n
    omega

theorem toNat_lt : toNat b < 256 ^ b.length := by
  induction b using reverseRecOn with
  | nil => exact Nat.one_pos
  | append_singleton b x ih =>
    have hx := x.toNat_lt
    rw [toNat_concat, length_append, length_singleton, pow_succ]
    omega

theorem fixedBytes_toNat : fixedBytes b.length (toNat b) = b := by
  induction b using reverseRecOn with
  | nil => rfl
  | append_singleton b x ih =>
    have hx := x.toNat_lt
    have hdiv : toNat (b ++ [x]) / 256 = toNat b := by
      rw [toNat_concat]
      omega
    have hlow : UInt8.ofNat (toNat (b ++ [x])) = x := by
      rw [← UInt8.toNat_inj, UInt8.toNat_ofNat', toNat_concat]
      omega
    rw [length_append, length_singleton, fixedBytes, hdiv, ih, hlow]

def headerByte (offset n : Nat) : Nat :=
  if n < 56 then offset + n else offset + 55 + (beBytes n).length

theorem header_eq (offset n : Nat) :
    header offset n =
      UInt8.ofNat (headerByte offset n) :: (if n < 56 then [] else beBytes n) := by
  unfold header headerByte
  split <;> rfl

theorem headerByte_range (offset : Nat) (h : n < 2 ^ 64) :
    offset ≤ headerByte offset n ∧ headerByte offset n ≤ offset + 63 ∧
      (n < 56 ↔ headerByte offset n < offset + 56) := by
  unfold headerByte
  split
  · omega
  · have h1 := length_beBytes_le h
    have h2 := length_beBytes_pos (n := n) (by omega)
    omega

variable {u v : List UInt8}

theorem header_append_inj {o p m n : Nat} (ho : o = 0x80 ∨ o = 0xc0) (hp : p = 0x80 ∨ p = 0xc0)
    (hm : m < 2 ^ 64) (hn : n < 2 ^ 64) (h : header o m ++ u = header p n ++ v) :
    o = p ∧ m = n ∧ u = v := by
  rw [header_eq, header_eq, cons_append, cons_append, cons.injEq] at h
  obtain ⟨hbyte, hrest⟩ := h
  obtain ⟨hm1, hm2, hm3⟩ := headerByte_range o hm
  obtain ⟨hn1, hn2, hn3⟩ := headerByte_range p hn
  have hbyte' : headerByte o m = headerByte p n := by
    have := congrArg UInt8.toNat hbyte
    rw [UInt8.toNat_ofNat', UInt8.toNat_ofNat'] at this
    omega
  have hop : o = p := by omega
  subst hop
  refine ⟨rfl, ?_⟩
  by_cases hsm : m < 56
  · have hsn : n < 56 := by omega
    simp only [hsm, hsn, if_true, nil_append] at hrest
    simp only [headerByte, hsm, hsn, if_true] at hbyte'
    exact ⟨by omega, hrest⟩
  · have hsn : ¬ n < 56 := by omega
    simp only [hsm, hsn, if_false] at hrest
    simp only [headerByte, hsm, hsn, if_false] at hbyte'
    obtain ⟨hbytes, huv⟩ := append_inj hrest (by omega)
    exact ⟨beBytes_injective hbytes, huv⟩

theorem header_ne_byte {o n : Nat} {x : UInt8} (ho : o = 0x80 ∨ o = 0xc0) (hn : n < 2 ^ 64)
    (hx : x < 0x80) : x :: u ≠ header o n ++ v := by
  intro h
  rw [header_eq, cons_append, cons.injEq] at h
  obtain ⟨h1, h2, _⟩ := headerByte_range o hn
  have hx' : x.toNat < 128 := UInt8.lt_iff_toNat_lt.1 hx
  have := congrArg UInt8.toNat h.1
  rw [UInt8.toNat_ofNat'] at this
  omega

theorem length_header_pos (offset n : Nat) : 0 < (header offset n).length := by
  rw [header_eq]
  simp

theorem encodeStr_cases (b : List UInt8) :
    (∃ x : UInt8, x < 0x80 ∧ b = [x] ∧ encodeStr b = [x]) ∨
      encodeStr b = header 0x80 b.length ++ b := by
  unfold encodeStr
  split
  · next h =>
    obtain ⟨x, rfl⟩ := length_eq_one_iff.1 h.1
    exact .inl ⟨x, by simpa using h.2, rfl, rfl⟩
  · exact .inr rfl

theorem length_le_encodeStr (b : List UInt8) : b.length ≤ (encodeStr b).length := by
  unfold encodeStr
  split
  · exact le_rfl
  · rw [length_append]; omega

theorem length_encodeStr_le {b : List UInt8} (h : b.length < 56) :
    (encodeStr b).length ≤ b.length + 1 := by
  unfold encodeStr
  split
  · omega
  · simp [header, h]

theorem length_encode_list_le {xs : List Item} (h : (encodeList xs).length < 2 ^ 64) :
    (encode (.list xs)).length ≤ (encodeList xs).length + 9 := by
  have hlen := length_beBytes_le h
  rw [encode, length_append, header]
  split <;> simp <;> omega

theorem encode_ne_nil (x : Item) : encode x ≠ [] := by
  intro h
  have hpos : 0 < (encode x).length := by
    cases x with
    | str b =>
      rw [encode]
      rcases encodeStr_cases b with ⟨x, _, _, h⟩ | h
      · simp [h]
      · rw [h, length_append]
        have := length_header_pos 0x80 b.length
        omega
    | list xs =>
      rw [encode, length_append]
      have := length_header_pos 0xc0 (encodeList xs).length
      omega
  rw [h] at hpos
  simp at hpos

theorem encodeStr_append_inj {b c u v : List UInt8} (hb : b.length < 2 ^ 64)
    (hc : c.length < 2 ^ 64) (h : encodeStr b ++ u = encodeStr c ++ v) : b = c ∧ u = v := by
  rcases encodeStr_cases b with ⟨x, hx, rfl, hbx⟩ | hbh
  · rcases encodeStr_cases c with ⟨y, hy, rfl, hcy⟩ | hch
    · rw [hbx, hcy] at h
      simpa using h
    · rw [hbx, hch, append_assoc] at h
      exact absurd h (header_ne_byte (.inl rfl) hc hx)
  · rcases encodeStr_cases c with ⟨y, hy, rfl, hcy⟩ | hch
    · rw [hbh, hcy, append_assoc] at h
      exact absurd h.symm (header_ne_byte (.inl rfl) hb hy)
    · rw [hbh, hch, append_assoc, append_assoc] at h
      obtain ⟨-, hlen, hrest⟩ := header_append_inj (.inl rfl) (.inl rfl) hb hc h
      exact append_inj hrest hlen

theorem encodeStr_append_ne {b : List UInt8} (hb : b.length < 2 ^ 64) (hn : n < 2 ^ 64) :
    encodeStr b ++ u ≠ header 0xc0 n ++ v := by
  intro h
  rcases encodeStr_cases b with ⟨x, hx, rfl, hbx⟩ | hbh
  · rw [hbx] at h
    exact header_ne_byte (.inr rfl) hn hx h
  · rw [hbh, append_assoc] at h
    obtain ⟨habs, -, -⟩ := header_append_inj (.inl rfl) (.inr rfl) hb hn h
    omega

mutual

theorem encode_append_inj : ∀ (x y : Item) (u v : List UInt8), (encode x).length < 2 ^ 64 →
    (encode y).length < 2 ^ 64 → encode x ++ u = encode y ++ v → x = y ∧ u = v
  | .str b, .str c, u, v, hx, hy, h => by
    simp only [encode] at hx hy h
    have hb := length_le_encodeStr b
    have hc := length_le_encodeStr c
    obtain ⟨hbc, huv⟩ := encodeStr_append_inj (by omega) (by omega) h
    exact ⟨by rw [hbc], huv⟩
  | .str b, .list ys, u, v, hx, hy, h => by
    simp only [encode, length_append] at hx hy
    simp only [encode, append_assoc] at h
    have hb := length_le_encodeStr b
    exact absurd h (encodeStr_append_ne (by omega) (by omega))
  | .list xs, .str c, u, v, hx, hy, h => by
    simp only [encode, length_append] at hx hy
    simp only [encode, append_assoc] at h
    have hc := length_le_encodeStr c
    exact absurd h.symm (encodeStr_append_ne (by omega) (by omega))
  | .list xs, .list ys, u, v, hx, hy, h => by
    simp only [encode, length_append] at hx hy
    simp only [encode, append_assoc] at h
    obtain ⟨-, hlen, hrest⟩ :=
      header_append_inj (.inr rfl) (.inr rfl) (by omega) (by omega) h
    obtain ⟨hpayload, huv⟩ := append_inj hrest hlen
    exact ⟨by rw [encodeList_inj xs ys (by omega) (by omega) hpayload], huv⟩

theorem encodeList_inj : ∀ (xs ys : List Item), (encodeList xs).length < 2 ^ 64 →
    (encodeList ys).length < 2 ^ 64 → encodeList xs = encodeList ys → xs = ys
  | [], [], _, _, _ => rfl
  | [], y :: ys, _, _, h => by
    rw [encodeList, encodeList] at h
    exact absurd (append_eq_nil_iff.1 h.symm).1 (encode_ne_nil y)
  | x :: xs, [], _, _, h => by
    rw [encodeList, encodeList] at h
    exact absurd (append_eq_nil_iff.1 h).1 (encode_ne_nil x)
  | x :: xs, y :: ys, hx, hy, h => by
    rw [encodeList, length_append] at hx hy
    rw [encodeList, encodeList] at h
    obtain ⟨hxy, hrest⟩ := encode_append_inj x y _ _ (by omega) (by omega) h
    rw [hxy, encodeList_inj xs ys (by omega) (by omega) hrest]

end

theorem encodeList_append (xs ys : List Item) :
    encodeList (xs ++ ys) = encodeList xs ++ encodeList ys := by
  induction xs with
  | nil => rfl
  | cons x xs ih => rw [cons_append, encodeList, encodeList, ih, append_assoc]

theorem length_encode_list_concat {xs : List Item} {b c : List UInt8} (h : b.length = c.length)
    (hlong : 1 < c.length) :
    (encode (.list (xs ++ [.str b]))).length = (encode (.list (xs ++ [.str c]))).length := by
  have hstr : (encodeStr b).length = (encodeStr c).length := by
    rw [encodeStr, if_neg (by omega), encodeStr, if_neg (by omega), h]
    simp [h]
  have hlist : (encodeList (xs ++ [.str b])).length = (encodeList (xs ++ [.str c])).length := by
    simp only [encodeList_append, encodeList, encode, length_append, hstr]
  rw [encode, encode, length_append, length_append, hlist]

theorem encode_inj {x y : Item} (hx : (encode x).length < 2 ^ 64)
    (hy : (encode y).length < 2 ^ 64) (h : encode x = encode y) : x = y :=
  (encode_append_inj x y [] [] hx hy (by simpa using h)).1

theorem length_encode_uint_le (h : n < 2 ^ 64) : (encode (.uint n)).length ≤ 9 := by
  have hlen := length_beBytes_le h
  rw [Item.uint, encode]
  rcases encodeStr_cases (beBytes n) with ⟨x, -, -, hx⟩ | hx
  · simp [hx]
  · rw [hx, header, if_pos (by omega), length_append, length_singleton]
    omega

theorem encode_uint_inj {m n : Nat} (hm : m < 2 ^ 64) (hn : n < 2 ^ 64)
    (h : encode (.uint m) = encode (.uint n)) : m = n := by
  have h1 := length_encode_uint_le hm
  have h2 := length_encode_uint_le hn
  have := encode_inj (by omega) (by omega) h
  rw [Item.uint, Item.uint, Item.str.injEq] at this
  exact beBytes_injective this

end Rlp
