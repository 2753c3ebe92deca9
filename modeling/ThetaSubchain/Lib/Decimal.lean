/-
Decimal numerals as ASCII bytes.

A numeral holds digits and possibly a leading minus sign, so numerals can be joined with
any other byte as a separator and taken apart again.
-/
import Mathlib.Data.Nat.Digits.Lemmas

namespace Decimal

open List

def ofNat (n : Nat) : List UInt8 :=
  if n = 0 then [48] else ((Nat.digits 10 n).map fun d => UInt8.ofNat (48 + d)).reverse

def ofInt : Int → List UInt8
  | .ofNat n => ofNat n
  | .negSucc n => 45 :: ofNat (n + 1)

theorem toNat_digit {d n : Nat} (h : d ∈ Nat.digits 10 n) :
    (UInt8.ofNat (48 + d)).toNat = 48 + d := by
  have hlt := Nat.digits_lt_base (by norm_num) h
  rw [UInt8.toNat_ofNat', Nat.mod_eq_of_lt (by omega)]

theorem digit_of_mem {n : Nat} {b : UInt8} (h : b ∈ ofNat n) : 48 ≤ b.toNat ∧ b.toNat ≤ 57 := by
  unfold ofNat at h
  split at h
  · rw [mem_singleton.1 h]
    decide
  · rw [mem_reverse, mem_map] at h
    obtain ⟨d, hd, rfl⟩ := h
    have hlt := Nat.digits_lt_base (by norm_num) hd
    rw [toNat_digit hd]
    omega

theorem length_ofNat_le {n k : Nat} (hk : 0 < k) (h : n < 10 ^ k) : (ofNat n).length ≤ k := by
  unfold ofNat
  split
  · exact hk
  · rw [length_reverse, length_map]
    exact (Nat.digits_length_le_iff (by norm_num) n).2 h

def value (b : List UInt8) : Nat := Nat.ofDigits 10 (b.reverse.map fun d => d.toNat - 48)

theorem value_ofNat (n : Nat) : value (ofNat n) = n := by
  unfold ofNat value
  split
  · next hn =>
    rw [hn]
    rfl
  · have hdigits : ((Nat.digits 10 n).map fun d => UInt8.ofNat (48 + d)).map
        (fun d => d.toNat - 48) = Nat.digits 10 n := by
      rw [map_map]
      conv_rhs => rw [← map_id (Nat.digits 10 n)]
      refine map_congr_left fun d hd => ?_
      rw [Function.comp_apply, toNat_digit hd, id]
      omega
    rw [reverse_reverse, hdigits]
    exact Nat.ofDigits_digits 10 n

theorem ofNat_injective : Function.Injective ofNat :=
  Function.LeftInverse.injective value_ofNat

theorem mem_ofInt {n : Int} {b : UInt8} (h : b ∈ ofInt n) :
    b = 45 ∨ 48 ≤ b.toNat ∧ b.toNat ≤ 57 := by
  cases n with
  | ofNat n => exact .inr (digit_of_mem h)
  | negSucc n =>
    rcases mem_cons.1 h with h | h
    · exact .inl h
    · exact .inr (digit_of_mem h)

theorem ofInt_injective : Function.Injective ofInt := by
  -- a minus sign is no digit
  have hsign : ∀ m n, ofNat m ≠ 45 :: ofNat n := by
    intro m n h
    have := digit_of_mem (h ▸ .head _ : (45 : UInt8) ∈ ofNat m)
    revert this
    decide
  intro m n h
  cases m with
  | ofNat m =>
    cases n with
    | ofNat n => exact congrArg Int.ofNat (ofNat_injective h)
    | negSucc n => exact absurd h (hsign m (n + 1))
  | negSucc m =>
    cases n with
    | ofNat n => exact absurd h.symm (hsign n (m + 1))
    | negSucc n =>
      have := ofNat_injective (cons.inj h).2
      exact congrArg Int.negSucc (by omega)

theorem append_sep_inj {α : Type*} {s : α} {a b x y : List α} (ha : s ∉ a) (hb : s ∉ b)
    (h : a ++ s :: x = b ++ s :: y) : a = b ∧ x = y := by
  induction a generalizing b with
  | nil =>
    cases b with
    | nil => exact ⟨rfl, (cons.inj h).2⟩
    | cons c b => exact absurd (by rw [(cons.inj h).1]; exact .head _) hb
  | cons d a ih =>
    cases b with
    | nil => exact absurd (by rw [← (cons.inj h).1]; exact .head _) ha
    | cons c b =>
      obtain ⟨hdc, hrest⟩ := cons.inj h
      obtain ⟨hab, hxy⟩ := ih (not_mem_of_not_mem_cons ha) (not_mem_of_not_mem_cons hb)
        hrest
      exact ⟨by rw [hdc, hab], hxy⟩

end Decimal
