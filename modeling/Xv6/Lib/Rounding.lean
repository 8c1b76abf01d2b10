import Mathlib.Data.Int.Log
import Mathlib.Data.Rat.Floor

/-!
# Rounding to floating point

A number is rounded to `p` significant bits, to the nearest and on a tie to the even one.  The
exponent is not bounded, so there is no overflow and no underflow.

## Main definitions

* `halfEven` — the nearest integer.
* `roundTo p` — the nearest number with `p` significant bits.

## Main results

* `roundTo_natCast` — small integers are not changed.
* `abs_roundTo_sub_le` — the relative error is `2 ^ (-p)` at most.
* `roundTo_lt_roundTo` — numbers that are further apart than the errors keep their order.
-/

namespace Xv6.Rounding

/-- The nearest integer, and of two the even one. -/
def halfEven (x : ℚ) : ℤ :=
  if x - ⌊x⌋ < 1 / 2 then ⌊x⌋
  else if 1 / 2 < x - ⌊x⌋ then ⌊x⌋ + 1
  else ⌊x⌋ + ⌊x⌋ % 2

/-- The distance of the numbers with `p` significant bits around `x`. -/
def ulp (p : ℕ) (x : ℚ) : ℚ := 2 ^ (Int.log 2 |x| - p + 1)

/-- The nearest number with `p` significant bits. -/
def roundTo (p : ℕ) (x : ℚ) : ℚ := halfEven (x / ulp p x) * ulp p x

variable {p : ℕ} {x y : ℚ}

theorem halfEven_intCast (m : ℤ) : halfEven m = m := by
  simp [halfEven]

theorem abs_halfEven_sub_le (x : ℚ) : |(halfEven x : ℚ) - x| ≤ 1 / 2 := by
  have hlow := Int.floor_le x
  have hhigh := Int.lt_floor_add_one x
  unfold halfEven
  split_ifs with h1 h2
  · rw [abs_le]
    constructor <;> linarith
  · push_cast
    rw [abs_le]
    constructor <;> linarith
  · -- a tie, which both neighbours are at the same distance from
    have htie : x - ⌊x⌋ = 1 / 2 := le_antisymm (not_lt.mp h2) (not_lt.mp h1)
    rcases Int.emod_two_eq_zero_or_one ⌊x⌋ with h | h
    · rw [h, abs_le]
      push_cast
      constructor <;> linarith
    · rw [h, abs_le]
      push_cast
      constructor <;> linarith

theorem ulp_pos (p : ℕ) (x : ℚ) : 0 < ulp p x := zpow_pos two_pos _

@[simp] theorem roundTo_zero (p : ℕ) : roundTo p 0 = 0 := by
  have h := halfEven_intCast 0
  rw [roundTo, zero_div]
  rw [Int.cast_zero] at h
  rw [h, Int.cast_zero, zero_mul]

/-- Integers of at most `p` bits are not rounded. -/
theorem roundTo_natCast {n : ℕ} (h : n < 2 ^ p) : roundTo p n = n := by
  rcases Nat.eq_zero_or_pos n with rfl | hn
  · exact roundTo_zero p
  have hlog : Int.log 2 |(n : ℚ)| < p := by
    rw [Nat.abs_cast, Int.log_natCast]
    exact_mod_cast Nat.log_lt_of_lt_pow hn.ne' h
  -- the distance is the inverse of a power of two
  obtain ⟨k, hk⟩ : ∃ k : ℕ, Int.log 2 |(n : ℚ)| - p + 1 = -k :=
    ⟨(p - 1 - Int.log 2 |(n : ℚ)|).toNat, by omega⟩
  have hulp : ulp p n = (2 ^ k)⁻¹ := by
    rw [ulp, hk, zpow_neg, zpow_natCast]
  have hint : (n : ℚ) / ulp p n = ((n * 2 ^ k : ℤ) : ℚ) := by
    rw [hulp, div_inv_eq_mul]
    push_cast
    rfl
  rw [roundTo, hint, halfEven_intCast, ← hint, div_mul_cancel₀ _ (ulp_pos p n).ne']

/-- **The relative error.** -/
theorem abs_roundTo_sub_le (p : ℕ) (hx : 0 ≤ x) : |roundTo p x - x| ≤ x / 2 ^ p := by
  rcases hx.eq_or_lt with rfl | hpos
  · simp
  have hu := ulp_pos p x
  have hdist : roundTo p x - x = (halfEven (x / ulp p x) - x / ulp p x) * ulp p x := by
    rw [sub_mul, div_mul_cancel₀ _ hu.ne', roundTo]
  have hulp : ulp p x / 2 ≤ x / 2 ^ p := by
    have hle : (2 : ℚ) ^ Int.log 2 |x| ≤ |x| :=
      Int.zpow_log_le_self one_lt_two (abs_pos.mpr hpos.ne')
    rw [abs_of_pos hpos] at hle
    rw [ulp, abs_of_pos hpos, zpow_add₀ two_ne_zero, zpow_sub₀ two_ne_zero, zpow_one,
      zpow_natCast, mul_div_assoc, div_self two_ne_zero, mul_one]
    exact div_le_div_of_nonneg_right hle (by positivity)
  calc |roundTo p x - x|
      = |(halfEven (x / ulp p x) : ℚ) - x / ulp p x| * ulp p x := by
        rw [hdist, abs_mul, abs_of_pos hu]
    _ ≤ 1 / 2 * ulp p x := mul_le_mul_of_nonneg_right (abs_halfEven_sub_le _) hu.le
    _ = ulp p x / 2 := by ring
    _ ≤ x / 2 ^ p := hulp

theorem roundTo_nonneg (p : ℕ) (hx : 0 ≤ x) : 0 ≤ roundTo p x := by
  have herr := (abs_le.mp (abs_roundTo_sub_le p hx)).1
  have hle : x / 2 ^ p ≤ x := div_le_self hx (one_le_pow₀ one_le_two)
  linarith

/-- **Order.**  Numbers that are further apart than the two errors together stay in order. -/
theorem roundTo_lt_roundTo (hx : 0 ≤ x) (hlt : x < y) (hxy : 2 * y < 2 ^ p * (y - x)) :
    roundTo p x < roundTo p y := by
  have hpow : (0 : ℚ) < 2 ^ p := by positivity
  have h1 := (abs_le.mp (abs_roundTo_sub_le p hx)).2
  have h2 := (abs_le.mp (abs_roundTo_sub_le p (hx.trans hlt.le))).1
  have hsum : x / 2 ^ p + y / 2 ^ p < y - x := by
    rw [← add_div, div_lt_iff₀ hpow]
    linarith
  linarith

end Xv6.Rounding
