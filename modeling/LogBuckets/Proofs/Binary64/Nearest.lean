import Mathlib.Algebra.Order.Field.Power
import Mathlib.Data.Int.Log
import Mathlib.Data.Rat.Floor
import Mathlib.Tactic.Linarith
import Mathlib.Tactic.Ring

/-!
# `LogBuckets.Proofs.Binary64.Nearest`: rounding rational numbers

An operation on binary64 numbers has an exact result, which is rational, and
answers with the binary64 number nearest to it. This file is about that step
alone, for results from 0 on, and knows of no floating point.

* `nearestInt`: the nearest integer, ties to the even one;
* `lastPlace`: how far the digits of a number go that are kept. There are 53 of
  them, but fewer for the smallest numbers, whose last place is `2 ^ -1074`;
* `rounded`: the nearest number with such digits. There is no largest one.

What is used of rounding is that it keeps the order (`rounded_mono`), moves a
number by half of its last place at the most (`abs_rounded_sub_le`), and does
not cross a number that has the digits itself (`rounded_le`, `le_rounded`).
-/

set_option autoImplicit false

namespace LogBuckets.Binary64

/-! ### To integers -/

/-- The integer nearest to `q`; of two that are equally near, the even one. -/
def nearestInt (q : ℚ) : ℤ :=
  if q < ⌊q⌋ + 1 / 2 then ⌊q⌋
  else if ⌊q⌋ + 1 / 2 < q then ⌊q⌋ + 1
  else ⌊q⌋ + ⌊q⌋ % 2

/-- No number is further than half a step from the nearest integer. -/
theorem abs_nearestInt_sub_le (q : ℚ) : |(nearestInt q : ℚ) - q| ≤ 1 / 2 := by
  have hlow := Int.floor_le q
  have hhigh := Int.lt_floor_add_one q
  rw [abs_le, nearestInt]
  split
  · constructor <;> linarith
  · split
    · push_cast
      constructor <;> linarith
    · -- In the middle, both neighbours are half a step away.
      have hparity : (0 : ℚ) ≤ (⌊q⌋ % 2 : ℤ) ∧ ((⌊q⌋ % 2 : ℤ) : ℚ) ≤ 1 := by
        constructor <;> norm_cast <;> omega
      rw [Int.cast_add]
      constructor <;> linarith

/-- An integer is the nearest one to itself. -/
theorem nearestInt_intCast (n : ℤ) : nearestInt n = n := by
  rw [nearestInt, Int.floor_intCast, if_pos (by linarith)]

/-- Rounding to integers keeps the order. Two numbers that were rounded past each other
would both be half a step off, and so be equal. -/
theorem nearestInt_mono {q r : ℚ} (hle : q ≤ r) : nearestInt q ≤ nearestInt r := by
  by_contra hlt
  have hq := (abs_le.1 (abs_nearestInt_sub_le q)).2
  have hr := (abs_le.1 (abs_nearestInt_sub_le r)).1
  have hstep : (nearestInt r : ℚ) + 1 ≤ nearestInt q := by exact_mod_cast Int.not_le.1 hlt
  -- Both are off by half, towards each other, so they come from one number.
  have hsame : q = r := by linarith
  rw [hsame] at hlt
  exact hlt (Int.le_refl _)

/-- A number is not rounded past an integer above it. -/
theorem nearestInt_le {q : ℚ} {n : ℤ} (h : q ≤ n) : nearestInt q ≤ n :=
  (nearestInt_mono h).trans_eq (nearestInt_intCast n)

/-- A number is not rounded past an integer below it. -/
theorem le_nearestInt {q : ℚ} {n : ℤ} (h : n ≤ q) : n ≤ nearestInt q :=
  (nearestInt_intCast n).symm.trans_le (nearestInt_mono h)

/-- Less than half a step above an integer, a number is not rounded past it. -/
theorem nearestInt_le_of_lt {q : ℚ} {n : ℤ} (h : q < n + 1 / 2) : nearestInt q ≤ n := by
  have hnear := (abs_le.1 (abs_nearestInt_sub_le q)).2
  have hlt : (nearestInt q : ℚ) < (n + 1 : ℤ) := by
    push_cast
    linarith
  exact Int.lt_add_one_iff.1 (Int.cast_lt.1 hlt)

/-! ### To 53 digits -/

/-- The exponent of the last digit that is kept of `q`. -/
def lastPlace (q : ℚ) : ℤ :=
  max (Int.log 2 q - 52) (-1074)

/-- The number nearest to `q` whose digits do not go past the last place; of two
that are equally near, the one with an even last digit. -/
def rounded (q : ℚ) : ℚ :=
  nearestInt (q / 2 ^ lastPlace q) * 2 ^ lastPlace q

/-- The exponent of the first digit, by the powers of two above the number. -/
theorem log_lt_iff {q : ℚ} (hq : 0 < q) (k : ℤ) : Int.log 2 q < k ↔ q < 2 ^ k := by
  rw [← Int.lt_zpow_iff_log_lt Nat.one_lt_two hq, Nat.cast_ofNat]

/-- The exponent of the first digit, by the powers of two below the number. -/
theorem le_log_iff {q : ℚ} (hq : 0 < q) (k : ℤ) : k ≤ Int.log 2 q ↔ 2 ^ k ≤ q := by
  rw [← Int.zpow_le_iff_le_log Nat.one_lt_two hq, Nat.cast_ofNat]

/-- A number below `2 ^ (j + 53)` keeps its digits down to place `j` at least. -/
theorem lastPlace_le {q : ℚ} (hq : 0 < q) {j : ℤ} (hj : -1074 ≤ j) (hfew : q < 2 ^ (j + 53)) :
    lastPlace q ≤ j := by
  have hlog := (log_lt_iff hq _).2 hfew
  rw [lastPlace]
  omega

/-- A larger number does not keep digits at smaller places. -/
theorem lastPlace_mono {q r : ℚ} (hq : 0 < q) (hle : q ≤ r) : lastPlace q ≤ lastPlace r := by
  have hlog := Int.log_mono_right (b := 2) hq hle
  rw [lastPlace, lastPlace]
  omega

/-- The digits that are kept are no more than 53. -/
theorem lt_two_pow_lastPlace {q : ℚ} (hq : 0 < q) : q < 2 ^ (lastPlace q + 53) := by
  rw [← log_lt_iff hq, lastPlace]
  omega

/-- The digits that are kept are 53, unless they go as far as digits can. -/
theorem two_pow_lastPlace_le {q : ℚ} (hq : 0 < q) :
    2 ^ (lastPlace q + 52) ≤ q ∨ lastPlace q = -1074 := by
  rw [← le_log_iff hq, lastPlace]
  omega

/-- The digits that are kept, as an integer, are no more than 53, or have carried
over to the first number of 54. -/
theorem nearestInt_digits_le {q : ℚ} (hq : 0 < q) :
    nearestInt (q / 2 ^ lastPlace q) ≤ (2 ^ 53 : ℕ) := by
  have hfew := lt_two_pow_lastPlace hq
  rw [add_comm, zpow_add₀ two_ne_zero] at hfew
  refine nearestInt_le ((div_le_iff₀ (by positivity)).2 ?_)
  exact_mod_cast hfew.le

/-- The digits that are kept, as an integer, are not fewer than 53, unless they go
as far as digits can. -/
theorem le_nearestInt_digits {q : ℚ} (hq : 0 < q) :
    (2 ^ 52 : ℕ) ≤ nearestInt (q / 2 ^ lastPlace q) ∨ lastPlace q = -1074 := by
  refine (two_pow_lastPlace_le hq).imp_left fun hlow => ?_
  rw [add_comm, zpow_add₀ two_ne_zero] at hlow
  refine le_nearestInt ((le_div_iff₀ (by positivity)).2 ?_)
  exact_mod_cast hlow

/-- There is nothing to round about 0. -/
theorem rounded_zero : rounded 0 = 0 := by
  rw [rounded, zero_div, ← Int.cast_zero, nearestInt_intCast, Int.cast_zero, zero_mul]

/-- A number that ends at place `j` ends at every place after it. -/
theorem mul_two_pow_eq (n : ℤ) {i j : ℤ} (hij : i ≤ j) :
    (n : ℚ) * 2 ^ j = (n * 2 ^ (j - i).toNat : ℤ) * 2 ^ i := by
  have hsplit : j = ((j - i).toNat : ℤ) + i := by omega
  conv_lhs => rw [hsplit, zpow_add₀ two_ne_zero, zpow_natCast]
  push_cast
  ring

/-- What is not above a number that has the digits is not rounded past it. -/
theorem rounded_le {q : ℚ} {n j : ℤ} (hq : 0 ≤ q) (hj : -1074 ≤ j) (hfew : q < 2 ^ (j + 53))
    (h : q ≤ n * 2 ^ j) : rounded q ≤ n * 2 ^ j := by
  rcases hq.eq_or_lt with rfl | hpos
  · rw [rounded_zero]
    exact h
  · rw [mul_two_pow_eq n (lastPlace_le hpos hj hfew)] at h ⊢
    rw [rounded, mul_le_mul_iff_of_pos_right (by positivity), Int.cast_le]
    exact nearestInt_le ((div_le_iff₀ (by positivity)).2 h)

/-- Powers of two have a single digit, so no number is rounded past one from below. -/
theorem rounded_le_two_pow {q : ℚ} (hq : 0 ≤ q) {k : ℕ} (h : q ≤ 2 ^ k) : rounded q ≤ 2 ^ k := by
  have hfew : q < 2 ^ ((k : ℤ) + 53) := by
    refine h.trans_lt ?_
    rw [← zpow_natCast]
    exact zpow_lt_zpow_right₀ one_lt_two (by omega)
  have hone := rounded_le (n := 1) (j := k) hq (by omega) hfew
  rw [Int.cast_one, one_mul, zpow_natCast] at hone
  exact hone h

/-- And so none reaches the next one by rounding. -/
theorem rounded_lt_two_pow {q : ℚ} (hq : 0 ≤ q) {k n : ℕ} (h : q ≤ 2 ^ k) (hk : k < n) :
    rounded q < 2 ^ n :=
  (rounded_le_two_pow hq h).trans_lt (pow_lt_pow_right₀ one_lt_two hk)

/-- What is not below a number that has the digits is not rounded past it. -/
theorem le_rounded {q : ℚ} {n j : ℤ} (hq : 0 < q) (hj : -1074 ≤ j) (hfew : q < 2 ^ (j + 53))
    (h : n * 2 ^ j ≤ q) : n * 2 ^ j ≤ rounded q := by
  rw [mul_two_pow_eq n (lastPlace_le hq hj hfew)] at h ⊢
  rw [rounded, mul_le_mul_iff_of_pos_right (by positivity), Int.cast_le]
  exact le_nearestInt ((le_div_iff₀ (by positivity)).2 h)

/-- What is less than half of the last place above a number is rounded to it or
to one below. -/
theorem rounded_le_of_lt {q : ℚ} {n j : ℤ} (hj : -1074 ≤ j) (hlow : 2 ^ (j + 52) ≤ q)
    (hhigh : q < 2 ^ (j + 53)) (h : q < (n + 1 / 2) * 2 ^ j) : rounded q ≤ n * 2 ^ j := by
  have hpos : 0 < q := lt_of_lt_of_le (by positivity) hlow
  have hlog := (le_log_iff hpos _).2 hlow
  have hplace : lastPlace q = j := by
    refine Int.le_antisymm (lastPlace_le hpos hj hhigh) ?_
    rw [lastPlace]
    omega
  rw [rounded, hplace, mul_le_mul_iff_of_pos_right (by positivity), Int.cast_le]
  exact nearestInt_le_of_lt ((div_lt_iff₀ (by positivity)).2 h)

/-- Rounding is off by half of the last place at the most. The place `j` may be any that
is not before the last one that is kept. -/
theorem abs_rounded_sub_le {q : ℚ} {j : ℤ} (hq : 0 ≤ q) (hj : -1074 ≤ j)
    (hfew : q < 2 ^ (j + 53)) : |rounded q - q| ≤ 2 ^ j / 2 := by
  rcases hq.eq_or_lt with rfl | hpos
  · rw [rounded_zero, sub_zero, abs_zero]
    positivity
  · have hscale : (0 : ℚ) < 2 ^ lastPlace q := by positivity
    -- Counted in last places, rounding is to the nearest integer.
    have hself : q = q / 2 ^ lastPlace q * 2 ^ lastPlace q := (div_mul_cancel₀ q hscale.ne').symm
    calc |rounded q - q|
        = |(nearestInt (q / 2 ^ lastPlace q) : ℚ) - q / 2 ^ lastPlace q| * 2 ^ lastPlace q := by
          rw [← abs_of_pos hscale, ← abs_mul, abs_of_pos hscale, sub_mul, ← hself, rounded]
      _ ≤ 1 / 2 * 2 ^ lastPlace q :=
          mul_le_mul_of_nonneg_right (abs_nearestInt_sub_le _) hscale.le
      _ ≤ 1 / 2 * 2 ^ j :=
          mul_le_mul_of_nonneg_left
            (zpow_le_zpow_right₀ one_le_two (lastPlace_le hpos hj hfew)) (by norm_num)
      _ = 2 ^ j / 2 := by ring

/-- Numbers from 0 on stay there. -/
theorem rounded_nonneg {q : ℚ} (hq : 0 ≤ q) : 0 ≤ rounded q := by
  have hint : 0 ≤ nearestInt (q / 2 ^ lastPlace q) := by
    refine le_nearestInt ?_
    rw [Int.cast_zero]
    positivity
  rw [rounded]
  exact mul_nonneg (Int.cast_nonneg hint) (by positivity)

/-- Rounding keeps the order. -/
theorem rounded_mono {q r : ℚ} (hq : 0 ≤ q) (hle : q ≤ r) : rounded q ≤ rounded r := by
  rcases hq.eq_or_lt with rfl | hpos
  · rw [rounded_zero]
    exact rounded_nonneg hle
  rcases (lastPlace_mono hpos hle).eq_or_lt with hplace | hplace
  · -- With the same last place, both are rounded to integers of it.
    rw [rounded, rounded, hplace, mul_le_mul_iff_of_pos_right (by positivity), Int.cast_le]
    exact nearestInt_mono (div_le_div_of_nonneg_right hle (by positivity))
  · -- With different last places there is a power of two between them.
    have hfirst : lastPlace r ≠ -1074 := by
      have : -1074 ≤ lastPlace q := le_max_right _ _
      omega
    have hr := (two_pow_lastPlace_le (hpos.trans_le hle)).resolve_right hfirst
    have hsplit : (2 : ℚ) ^ (lastPlace r + 52) = (2 ^ 52 : ℤ) * 2 ^ lastPlace r := by
      rw [zpow_add₀ two_ne_zero]
      push_cast
      ring
    have hmiddle : q ≤ 2 ^ (lastPlace r + 52) :=
      (lt_two_pow_lastPlace hpos).le.trans (zpow_le_zpow_right₀ one_le_two (by omega))
    -- The greater of the two has 53 digits down to its last place, so its rounding is not
    -- below that power, and the rounding of the smaller one is not above it.
    have hfew : r < 2 ^ (lastPlace r + 53) := lt_two_pow_lastPlace (hpos.trans_le hle)
    rw [hsplit] at hr hmiddle
    calc rounded q ≤ (2 ^ 52 : ℤ) * 2 ^ lastPlace r :=
          rounded_le hq (le_max_right _ _) (hle.trans_lt hfew) hmiddle
      _ ≤ rounded r := le_rounded (hpos.trans_le hle) (le_max_right _ _) hfew hr

/-- What has the digits is not moved. -/
theorem rounded_eq_self {n j : ℤ} (hn : 0 ≤ n) (hj : -1074 ≤ j) (hfew : n < 2 ^ 53) :
    rounded (n * 2 ^ j) = n * 2 ^ j := by
  rcases hn.eq_or_lt with rfl | hpos
  · rw [Int.cast_zero, zero_mul, rounded_zero]
  · have hq : (0 : ℚ) < n * 2 ^ j := mul_pos (Int.cast_pos.2 hpos) (by positivity)
    have hdigits : (n : ℚ) * 2 ^ j < 2 ^ (j + 53) := by
      have hcast : (n : ℚ) < 2 ^ 53 := by exact_mod_cast hfew
      rw [zpow_add₀ two_ne_zero, mul_comm]
      exact mul_lt_mul_of_pos_left hcast (by positivity)
    exact le_antisymm (rounded_le hq.le hj hdigits le_rfl) (le_rounded hq hj hdigits le_rfl)

/-- Integers of up to 53 digits are not moved. -/
theorem rounded_natCast {n : ℕ} (hn : n < 2 ^ 53) : rounded n = n := by
  have hself := rounded_eq_self (j := 0) (Int.natCast_nonneg n) (by decide) (by exact_mod_cast hn)
  rw [zpow_zero, mul_one, Int.cast_natCast] at hself
  exact hself

/-- No number is rounded past a power of two from above. -/
theorem two_pow_le_rounded {q : ℚ} {j : ℤ} (hj : -1074 ≤ j) (h : 2 ^ j ≤ q) :
    2 ^ j ≤ rounded q := by
  have hself := rounded_eq_self (n := 1) Int.one_nonneg hj (by decide)
  rw [Int.cast_one, one_mul] at hself
  rw [← hself]
  exact rounded_mono (by positivity) h

/-! ### Back from the rounded number -/

/-- What is below a power of two after rounding was below it before. -/
theorem lt_two_pow_of_rounded_lt {q : ℚ} {k : ℕ} (h : rounded q < 2 ^ k) : q < 2 ^ k := by
  by_contra hge
  rw [not_lt, ← zpow_natCast] at hge
  have hround := two_pow_le_rounded (by omega) hge
  rw [zpow_natCast] at hround
  exact absurd h (not_lt.2 hround)

/-- A number that is rounded up to a power of two is above the smaller ones. -/
theorem two_pow_lt_of_le_rounded {q : ℚ} {k n : ℕ} (hq : 0 ≤ q) (hk : k < n)
    (h : 2 ^ n ≤ rounded q) : 2 ^ k < q := by
  by_contra hle
  exact absurd h (not_le.2 (rounded_lt_two_pow hq (not_lt.1 hle) hk))

end LogBuckets.Binary64
