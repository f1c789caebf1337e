import LogBuckets.Proofs.Binary64.Arithmetic
import Mathlib.Algebra.Order.Floor.Semifield

/-!
# `LogBuckets.Proofs.Binary64`: binary64 numbers from 1 on

A binary64 number from 1 on is a significand of 53 binary digits times a
power of two, and so a whole number of steps of `2 ^ -52`. `IsNumber x m k`
says that `x` is `m * 2 ^ k` such steps. Counted in steps, everything about
these numbers is about natural numbers.

Rounding takes a number to one of its neighbours that 53 digits can
express, and never past another such number. Only the lower side is needed
here: what is expressed and not above the exact result is not above the
rounded one either.

* `isNumber_ofValue`: a word from 1 on, as a binary64 number;
* `IsNumber.mul_of_one_lt`: a factor above 1 does not make a number smaller,
  unless the product leaves the words;
* `IsNumber.toInt_toValue`: the integer part, back among the words.
-/

set_option autoImplicit false

namespace LogBuckets.Binary64

open Float.Model (UnpackedFloat)
open Float.Model.UnpackedFloat

/-! ### Steps and values -/

/-- `x` is `m * 2 ^ k` steps of `2 ^ -52`, with the 53 digits of a normal
number in `m`. -/
structure IsNumber (x : Float) (m k : Nat) : Prop where
  unpack_eq : ∃ h, x.toModel.unpack = .finite .positive m ((k : Int) - 52) h
  le_mantissa : 2 ^ 52 ≤ m
  mantissa_lt : m < 2 ^ 53

/-- So many steps, as a number. -/
def ofSteps (n : ℕ) : ℚ :=
  n / 2 ^ 52

/-- Numbers of steps compare as the numbers they make. -/
theorem ofSteps_le {n n' : ℕ} : ofSteps n ≤ ofSteps n' ↔ n ≤ n' := by
  rw [ofSteps, ofSteps, div_le_div_iff_of_pos_right (by positivity), Nat.cast_le]

/-- A significand times a power of two in steps, as a significand times a power of
two. -/
theorem ofSteps_mul_two_pow (m k : ℕ) : ofSteps (m * 2 ^ k) = m * 2 ^ ((k : ℤ) - 52) := by
  rw [zpow_sub₀ two_ne_zero, zpow_natCast, ofSteps]
  push_cast
  rw [mul_div_assoc]
  rfl

/-- A number that is counted in steps is the rational number that so many steps make. -/
theorem IsNumber.hasValue {x : Float} {m k : ℕ} (hx : IsNumber x m k) :
    HasValue x (ofSteps (m * 2 ^ k)) := by
  obtain ⟨h, hunpack⟩ := hx.unpack_eq
  rw [HasValue, hunpack, ofSteps_mul_two_pow]
  exact .finite h hx.mantissa_lt (by omega) (Or.inl hx.le_mantissa)

/-- Every number from 1 on is a number of steps. -/
theorem HasValue.isNumber {x : Float} {q : ℚ} (hx : HasValue x q) (hq : 1 ≤ q) :
    ∃ m k, IsNumber x m k ∧ q = ofSteps (m * 2 ^ k) := by
  rw [HasValue] at hx
  generalize hunpack : x.toModel.unpack = u at hx
  cases hx with
  | zero sign => exact absurd hq (by norm_num)
  | @finite m e h hfew hplace hfull =>
      have hexponent := neg_le_of_one_le hfew hq
      have hk : e = ((e + 52).toNat : ℤ) - 52 := by omega
      refine ⟨m, (e + 52).toNat, ⟨⟨h, ?_⟩, by omega, hfew⟩, ?_⟩
      · rw [hunpack, ← hk]
      · rw [ofSteps_mul_two_pow, ← hk]

/-- A whole number is so many times `2 ^ 52` steps. -/
theorem ofSteps_of_whole (n : ℕ) : ofSteps (n * 2 ^ 52) = n := by
  rw [ofSteps, Nat.cast_mul, Nat.cast_pow, Nat.cast_ofNat, mul_div_cancel_right₀ _ (by norm_num)]

/-- What 53 digits can express and is not above a number is not above the rounded
number either. -/
theorem ofSteps_le_rounded {a j : ℕ} (ha : a < 2 ^ 53) {q : ℚ} (hle : ofSteps (a * 2 ^ j) ≤ q) :
    ofSteps (a * 2 ^ j) ≤ rounded q := by
  have hself : rounded (ofSteps (a * 2 ^ j)) = ofSteps (a * 2 ^ j) := by
    have hdigits := rounded_eq_self (j := (j : ℤ) - 52) (Int.natCast_nonneg a) (by omega)
      (by exact_mod_cast ha)
    rw [Int.cast_natCast, ← ofSteps_mul_two_pow] at hdigits
    exact hdigits
  rw [← hself]
  exact rounded_mono (div_nonneg (Nat.cast_nonneg _) (by norm_num)) hle

/-! ### Words, products and integer parts -/

/-- A word from 1 on is a number, not below anything that 53 digits can express
and that is not above the word. -/
theorem isNumber_ofValue {v : Int64} (hv : 1 ≤ v.toInt) :
    ∃ m k, IsNumber (ofValue v) m k ∧
      ∀ a j, a < 2 ^ 53 → a * 2 ^ j ≤ v.toInt.toNat * 2 ^ 52 → a * 2 ^ j ≤ m * 2 ^ k := by
  have hword := v.toInt_lt
  have hle : 0 ≤ v := by
    rw [Int64.le_iff_toInt_le, Int64.toInt_zero]
    omega
  -- A word from 0 on is the same unsigned word, so it is a count.
  have hcount : ofValue v = ofCount v.toInt.toNat := by
    have hnat : v.toUInt64 = v.toInt.toNat.toUInt64 := by
      rw [← UInt64.toNat_inj, Int64.toNat_toUInt64_of_le hle, ← Int64.toNat_toInt]
      exact (UInt64.toNat_ofNat_of_lt' (by rw [UInt64.size]; omega)).symm
    rw [ofValue, ofCount, hnat]
  have hvalue : HasValue (ofValue v) (rounded v.toInt.toNat) :=
    hcount ▸ hasValue_ofCount (by omega)
  generalize hn : v.toInt.toNat = n at hvalue ⊢
  -- Rounding does not go below a number that 53 digits can express.
  have hleast : ∀ a j, a < 2 ^ 53 → a * 2 ^ j ≤ n * 2 ^ 52 → ofSteps (a * 2 ^ j) ≤ rounded n := by
    intro a j ha hexact
    refine ofSteps_le_rounded ha ?_
    rw [← ofSteps_of_whole n]
    exact ofSteps_le.2 hexact
  have hone : 1 ≤ rounded n := by
    have hfirst := hleast 1 52 (by decide) (Nat.mul_le_mul_right _ (by omega))
    rw [ofSteps_of_whole, Nat.cast_one] at hfirst
    exact hfirst
  obtain ⟨m, k, hnumber, heq⟩ := hvalue.isNumber hone
  refine ⟨m, k, hnumber, ?_⟩
  intro a j ha hexact
  rw [← ofSteps_le, ← heq]
  exact hleast a j ha hexact

/-- A factor above 1 takes a number past the words, or to a number that is not
below it. -/
theorem IsNumber.mul_of_one_lt {x y : Float} {m k : Nat} (hx : IsNumber x m k) (hy : 1.0 < y)
    (hend : ¬ (9223372036854775808.0 : Float) ≤ x * y) :
    ∃ m' k', IsNumber (x * y) m' k' ∧ m * 2 ^ k ≤ m' * 2 ^ k' := by
  -- Infinity is past the words, so the product is a number.
  have hinfinity : (x * y).toModel.unpack ≠ .infinity .positive := by
    intro hunpack
    refine hend ?_
    rw [le_iff_compare, hunpack]
    rfl
  have hone : HasValue 1.0 ((2 ^ 52 : ℕ) * 2 ^ (-52 : ℤ)) :=
    hasValue_of_unpack_eq (h := by decide) rfl
  -- An infinite factor would leave an infinite product.
  rcases hone.value_of_lt hy with huy | ⟨r, huy, hr⟩
  · refine absurd ?_ hinfinity
    obtain ⟨h, hux⟩ := hx.unpack_eq
    have hproduct : UnpackedFloat.mul .binary64 x.toModel.unpack y.toModel.unpack
        = .infinity .positive := by
      rw [hux, huy]
      rfl
    show unpack .binary64 (pack .binary64
      (UnpackedFloat.mul .binary64 x.toModel.unpack y.toModel.unpack)) = _
    rw [hproduct]
    rfl
  · norm_num at hr
    have hproduct := Stores.mul hx.hasValue huy
    -- A product that is too large would be infinite as well.
    have hmax : rounded (ofSteps (m * 2 ^ k) * r) < 2 ^ 1024 := by
      by_contra hlarge
      exact hinfinity (hproduct.unpack_pack_of_large (not_lt.1 hlarge))
    have hsteps : (0 : ℚ) ≤ ofSteps (m * 2 ^ k) := div_nonneg (Nat.cast_nonneg _) (by norm_num)
    have hgrown : ofSteps (m * 2 ^ k) ≤ rounded (ofSteps (m * 2 ^ k) * r) :=
      ofSteps_le_rounded hx.mantissa_lt (le_mul_of_one_le_right hsteps hr.le)
    have hfirst : 1 ≤ ofSteps (m * 2 ^ k) := by
      have hone := ofSteps_le.2
        (hx.le_mantissa.trans (Nat.le_mul_of_pos_right m (Nat.two_pow_pos k)))
      rw [← Nat.one_mul (2 ^ 52), ofSteps_of_whole, Nat.cast_one] at hone
      exact hone
    obtain ⟨m', k', hnumber, heq⟩ :=
      (hx.hasValue.mul huy hmax).isNumber (hfirst.trans hgrown)
    refine ⟨m', k', hnumber, ?_⟩
    rw [← ofSteps_le, ← heq]
    exact hgrown

/-- The integer part of a number below the end of the words is a word. -/
theorem IsNumber.toInt_toValue {x : Float} {m k : Nat} (hx : IsNumber x m k)
    (hend : ¬ (9223372036854775808.0 : Float) ≤ x) :
    (toValue x).toInt = (m * 2 ^ k / 2 ^ 52 : Nat) := by
  have hbound : HasValue 9223372036854775808.0 ((2 ^ 52 : ℕ) * 2 ^ (11 : ℤ)) :=
    hasValue_of_unpack_eq (h := by decide) rfl
  rw [hbound.le_iff hx.hasValue, not_le] at hend
  have hcount := hx.hasValue.toCount_eq
  -- Steps are `2 ^ (-52)`, so the integer part is the quotient by `2 ^ 52`.
  have hfloor : ⌊ofSteps (m * 2 ^ k)⌋₊ = m * 2 ^ k / 2 ^ 52 := by
    have hdiv := Nat.floor_div_eq_div (K := ℚ) (m * 2 ^ k) (2 ^ 52)
    rw [Nat.cast_pow, Nat.cast_ofNat] at hdiv
    exact hdiv
  have hlt : m * 2 ^ k / 2 ^ 52 < 2 ^ 63 := by
    rw [← hfloor, Nat.floor_lt (div_nonneg (Nat.cast_nonneg _) (by norm_num))]
    norm_num at hend ⊢
    exact hend
  rw [hfloor] at hcount
  generalize m * 2 ^ k / 2 ^ 52 = n at hcount hlt
  -- The integer part is below `2 ^ 63`, so no bound cuts it.
  have hword : x.toUInt64 = UInt64.ofNat n := by
    rw [← UInt64.toNat_inj, UInt64.toNat_ofNat_of_lt' (by rw [UInt64.size]; omega)]
    have hcut : min (2 ^ 64 - 1) n = n := by omega
    exact hcount.trans hcut
  rw [toValue, hword, UInt64.toInt64_ofNat']
  exact Int64.toInt_ofNat_of_lt hlt

end LogBuckets.Binary64
