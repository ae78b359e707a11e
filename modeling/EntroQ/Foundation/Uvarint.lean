import Mathlib

/-! # Variable-length integers

A number as bytes of seven bits each, the lowest first, every byte but the last with its high bit
set. A 64-bit number takes at most ten bytes. -/

namespace EntroQ.Foundation

def maxVarintLen64 : ℕ := 10

/-- `binary.AppendUvarint`, to nothing. -/
def uvarint (n : ℕ) : List UInt8 :=
  if n < 128 then [UInt8.ofNat n] else UInt8.ofNat (n % 128 + 128) :: uvarint (n / 128)
termination_by n
decreasing_by omega

/-- What the byte in place `i` does to the number read so far. -/
inductive UvarintStep
  | value (n : ℕ)
  | more (n : ℕ)
  | overflow
  deriving DecidableEq

/-- The bits of a byte lie above those of `n`, so that they are added. -/
def uvarintStep (i n : ℕ) (b : UInt8) : UvarintStep :=
  if b < 0x80 then
    if i = maxVarintLen64 - 1 ∧ b > 1 then .overflow else .value (n + b.toNat * 128 ^ i)
  else .more (n + b.toNat % 128 * 128 ^ i)

/-- A number at the start of the bytes, from place `i` on, and what follows it. -/
def decodeUvarintFrom (i n : ℕ) : List UInt8 → Option (ℕ × List UInt8)
  | [] => none
  | b :: bs =>
    if i = maxVarintLen64 then none
    else
      match uvarintStep i n b with
      | .value n => some (n, bs)
      | .more n => decodeUvarintFrom (i + 1) n bs
      | .overflow => none

/-- `binary.Uvarint`: nothing if the bytes end inside the number or it does not fit. -/
def decodeUvarint (bs : List UInt8) : Option (ℕ × List UInt8) := decodeUvarintFrom 0 0 bs

theorem toNat_ofNat_lt {n : ℕ} (h : n < 256) : (UInt8.ofNat n).toNat = n := by
  rw [UInt8.toNat_ofNat']
  exact Nat.mod_eq_of_lt h

/-- What is left of a number when it is read from place `i` on: it fits into 64 bits, and it is
not a superfluous zero. -/
structure UvarintRest (i n : ℕ) : Prop where
  fits : n * 128 ^ i < 2 ^ 64
  needed : i = 0 ∨ 0 < n

theorem UvarintRest.place_lt {i n : ℕ} (h : UvarintRest i n) : i < maxVarintLen64 := by
  rcases h.needed with rfl | hn
  · decide
  · by_contra hi
    have hpow : 128 ^ maxVarintLen64 ≤ 128 ^ i := Nat.pow_le_pow_right (by decide) (by omega)
    have hfits := h.fits
    have hle : 128 ^ i ≤ n * 128 ^ i := Nat.le_mul_of_pos_left _ hn
    have : (128 : ℕ) ^ maxVarintLen64 < 2 ^ 64 := by omega
    exact absurd this (by decide)

theorem UvarintRest.next {i n : ℕ} (h : UvarintRest i n) (hn : 128 ≤ n) :
    UvarintRest (i + 1) (n / 128) where
  fits := by
    have hle : n / 128 * 128 ^ (i + 1) ≤ n * 128 ^ i := by
      rw [pow_succ', ← mul_assoc]
      exact Nat.mul_le_mul_right _ (Nat.div_mul_le_self n 128)
    exact lt_of_le_of_lt hle h.fits
  needed := .inr (by omega)

/-- The first byte of a number, and what reading it comes to. -/
theorem uvarint_step {i n : ℕ} (h : UvarintRest i n) (m : ℕ) :
    (n < 128 ∧ ∃ b, uvarint n = [b] ∧ uvarintStep i m b = .value (m + n * 128 ^ i)) ∨
      (128 ≤ n ∧ ∃ b, uvarint n = b :: uvarint (n / 128) ∧
        uvarintStep i m b = .more (m + n % 128 * 128 ^ i)) := by
  by_cases hn : n < 128
  · refine .inl ⟨hn, UInt8.ofNat n, by rw [uvarint, if_pos hn], ?_⟩
    have hb : (UInt8.ofNat n).toNat = n := toNat_ofNat_lt (by omega)
    have hlt : UInt8.ofNat n < 0x80 := by
      rw [UInt8.lt_iff_toNat_lt, hb]
      exact hn
    have hlast : ¬(i = maxVarintLen64 - 1 ∧ UInt8.ofNat n > 1) := by
      rintro ⟨rfl, hgt⟩
      rw [gt_iff_lt, UInt8.lt_iff_toNat_lt, hb] at hgt
      have hfits := h.fits
      have hone : (1 : UInt8).toNat = 1 := rfl
      rw [hone] at hgt
      have hle : 2 * 128 ^ (maxVarintLen64 - 1) ≤ n * 128 ^ (maxVarintLen64 - 1) :=
        Nat.mul_le_mul_right _ hgt
      have : 2 * 128 ^ (maxVarintLen64 - 1) < 2 ^ 64 := lt_of_le_of_lt hle hfits
      exact absurd this (by decide)
    rw [uvarintStep, if_pos hlt, if_neg hlast, hb]
  · refine .inr ⟨by omega, UInt8.ofNat (n % 128 + 128), by rw [uvarint, if_neg hn], ?_⟩
    have hb : (UInt8.ofNat (n % 128 + 128)).toNat = n % 128 + 128 := toNat_ofNat_lt (by omega)
    have hlt : ¬UInt8.ofNat (n % 128 + 128) < 0x80 := by
      rw [UInt8.lt_iff_toNat_lt, hb]
      exact Nat.not_lt.mpr (Nat.le_add_left 128 _)
    rw [uvarintStep, if_neg hlt, hb, Nat.add_mod_right, Nat.mod_mod]

/-- The number put together from its lowest seven bits and the rest. -/
theorem uvarint_sum (i n m : ℕ) :
    m + n % 128 * 128 ^ i + n / 128 * 128 ^ (i + 1) = m + n * 128 ^ i := by
  have h : n * 128 ^ i = (128 * (n / 128) + n % 128) * 128 ^ i := by rw [Nat.div_add_mod]
  rw [h, pow_succ']
  ring

theorem decodeUvarintFrom_uvarint {i n : ℕ} (h : UvarintRest i n) (m : ℕ) (rest : List UInt8) :
    decodeUvarintFrom i m (uvarint n ++ rest) = some (m + n * 128 ^ i, rest) := by
  induction n using Nat.strong_induction_on generalizing i m with
  | _ n ih =>
    have hi : i ≠ maxVarintLen64 := Nat.ne_of_lt h.place_lt
    rcases uvarint_step h m with ⟨-, b, hu, hstep⟩ | ⟨hn, b, hu, hstep⟩
    · rw [hu, List.singleton_append, decodeUvarintFrom, if_neg hi, hstep]
    · rw [hu, List.cons_append, decodeUvarintFrom, if_neg hi, hstep]
      dsimp only
      rw [ih (n / 128) (by omega) (h.next hn), uvarint_sum]

theorem UvarintRest.start {n : ℕ} (h : n < 2 ^ 64) : UvarintRest 0 n where
  fits := by simpa using h
  needed := .inl rfl

/-- A number is read back, and what follows it is left. -/
theorem decodeUvarint_uvarint {n : ℕ} (h : n < 2 ^ 64) (rest : List UInt8) :
    decodeUvarint (uvarint n ++ rest) = some (n, rest) := by
  rw [decodeUvarint, decodeUvarintFrom_uvarint (.start h), Nat.zero_add, pow_zero, Nat.mul_one]

theorem uvarint_length_pos (n : ℕ) : 0 < (uvarint n).length := by
  rw [uvarint]
  split_ifs <;> simp

theorem uvarint_length_le {i n : ℕ} (h : UvarintRest i n) :
    (uvarint n).length + i ≤ maxVarintLen64 := by
  induction n using Nat.strong_induction_on generalizing i with
  | _ n ih =>
    have hi := h.place_lt
    rcases uvarint_step h 0 with ⟨-, b, hu, -⟩ | ⟨hn, b, hu, -⟩
    · rw [hu, List.length_singleton]
      omega
    · have := ih (n / 128) (by omega) (h.next hn)
      rw [hu, List.length_cons]
      omega

end EntroQ.Foundation
