import LogBuckets.Binary64
import Mathlib.Algebra.Order.Field.Power
import Mathlib.Data.Fintype.EquivFin
import Mathlib.Data.Rat.Floor
import Mathlib.Tactic.Linarith
import Mathlib.Tactic.Ring

/-!
# `LogBuckets.Proofs.Binary64.Stored`: binary64 numbers as rational numbers

A binary64 number from 0 on, other than infinity, is a significand of up to 53
binary digits times a power of two. `Stores u q` says that the unpacked number
`u` is the rational number `q`, and that its digits are those that it is stored
with: 53 of them, unless the last one has the least exponent there is.
`HasValue x q` says the same of a number as it is stored.

* `stores_of_unpack_eq`: what is unpacked from storage has such digits;
* `Stores.unpack_pack`: what has such digits and is not too large comes back
  from storage as it was;
* `HasValue.lt_iff`, `HasValue.le_iff`: the order of the numbers is that of the
  rational numbers;
* `HasValue.two_pow_exponent`: the exponent bits tell the powers of two that a
  number lies between;
* `HasValue.unique`: no number above 0 is stored in two ways.
-/

set_option autoImplicit false

namespace LogBuckets.Binary64

open Float.Model (Format totalExponent UnpackedFloat)
open Float.Model.UnpackedFloat

/-- `u` is the number `q`, from 0 on, with the digits that it is stored with. -/
inductive Stores : UnpackedFloat → ℚ → Prop
  | zero (sign : Sign) : Stores (.zero sign) 0
  | finite {m : ℕ} {e : ℤ} (h : 0 < m) (hfew : m < 2 ^ 53) (hplace : -1074 ≤ e)
      (hfull : 2 ^ 52 ≤ m ∨ e = -1074) : Stores (.finite .positive m e h) (m * 2 ^ e)

/-- `x` is the number `q`, from 0 on. -/
def HasValue (x : Float) (q : ℚ) : Prop :=
  Stores x.toModel.unpack q

/-- The numbers that are spoken of here are from 0 on. -/
theorem Stores.nonneg {u : UnpackedFloat} {q : ℚ} (h : Stores u q) : 0 ≤ q := by
  cases h with
  | zero sign => exact le_rfl
  | finite h hfew hplace hfull => positivity

/-- There are two zeros. -/
theorem Stores.eq_zero {u : UnpackedFloat} (h : Stores u 0) : ∃ sign, u = .zero sign := by
  generalize hq : (0 : ℚ) = q at h
  cases h with
  | zero sign => exact ⟨sign, rfl⟩
  | @finite m e h hfew hplace hfull =>
      have hpos : (0 : ℚ) < m * 2 ^ e := by positivity
      exact absurd hq hpos.ne

/-! ### Out of storage and into it -/

/-- The place of the first digit, by the powers of two around the number. -/
theorem log2_eq_of_bounds {m n : ℕ} (hlow : 2 ^ n ≤ m) (hhigh : m < 2 ^ (n + 1)) :
    m.log2 = n := by
  have hpos := Nat.two_pow_pos n
  exact (Nat.log2_eq_iff (by omega)).2 ⟨hlow, hhigh⟩

/-- The leading digit is not stored. -/
theorem toNat_one_append (b : BitVec 52) : (1#1 ++ b).toNat = 2 ^ 52 + b.toNat := by
  rw [BitVec.toNat_append, ← Nat.shiftLeft_add_eq_or_of_lt b.isLt, Nat.shiftLeft_eq]
  rfl

/-- What is unpacked from storage: the exponent bits tell whether there is a number at
all, and whether its leading digit is 0. -/
theorem unpack_eq (b : BitVec Format.binary64.numBits) :
    unpack .binary64 b =
      if unpackExponent b = -1#11 then
        if unpackMantissa b = 0#52 then .infinity (Sign.ofBitVec (unpackSign b)) else .notANumber
      else if unpackExponent b = 0#11 then
        if h : unpackMantissa b = 0#52 then .zero (Sign.ofBitVec (unpackSign b))
        else .finite (Sign.ofBitVec (unpackSign b)) (unpackMantissa b).toNat
          ((unpackExponent b).toNat - 1075 + 1)
          (Nat.pos_of_ne_zero fun hzero => h (BitVec.eq_of_toNat_eq hzero))
      else .finite (Sign.ofBitVec (unpackSign b)) (1#1 ++ unpackMantissa b).toNat
        ((unpackExponent b).toNat - 1075)
        (by rw [toNat_one_append]; omega) :=
  rfl

/-- What a number is packed into: infinity if its exponent is too large, and no exponent
bits if it has fewer than 53 digits. -/
theorem pack_finite {m : ℕ} {e : ℤ} (h : 0 < m) :
    pack .binary64 (.finite .positive m e h) =
      if 2 ^ 11 ≤ (e + 1023 + 52).toNat + 1 then packedInfinity .binary64 .positive
      else if m.log2 + 1 = 53 then
        packComponents .binary64 .positive (BitVec.ofNat 11 (e + 1023 + 52).toNat)
          (BitVec.ofNat 52 m)
      else packComponents .binary64 .positive 0#11 (BitVec.ofNat 52 m) :=
  rfl

/-- The parts in storage of a number other than 0 and infinity. The leading digit is
stored unless the exponent bits are all 0. -/
theorem parts_of_unpack_eq {b : BitVec Format.binary64.numBits} {sign : Sign} {m : ℕ} {e : ℤ}
    {h : 0 < m} (hb : unpack .binary64 b = .finite sign m e h) :
    Sign.ofBitVec (unpackSign b) = sign ∧
    (((unpackExponent b).toNat = 0 ∧ m = (unpackMantissa b).toNat ∧ e = -1074) ∨
     ((unpackExponent b).toNat ≠ 0 ∧ m = 2 ^ 52 + (unpackMantissa b).toNat ∧
      e = (unpackExponent b).toNat - 1075)) := by
  rw [unpack_eq] at hb
  -- Three kinds of exponent bits: all set, none set, and any others. Only the last two are
  -- those of a number.
  by_cases hall : unpackExponent b = -1#11
  · rw [if_pos hall] at hb
    by_cases hdigits : unpackMantissa b = 0#52
    · rw [if_pos hdigits] at hb
      cases hb
    · rw [if_neg hdigits] at hb
      cases hb
  rw [if_neg hall] at hb
  by_cases hleast : unpackExponent b = 0#11
  · rw [if_pos hleast] at hb
    by_cases hdigits : unpackMantissa b = 0#52
    · rw [dif_pos hdigits] at hb
      cases hb
    · rw [dif_neg hdigits] at hb
      obtain ⟨hsign, rfl, rfl⟩ := UnpackedFloat.finite.inj hb
      have hexponent : (unpackExponent b).toNat = 0 := by
        rw [hleast]
        rfl
      exact ⟨hsign, Or.inl ⟨hexponent, rfl, by omega⟩⟩
  · rw [if_neg hleast] at hb
    obtain ⟨hsign, rfl, rfl⟩ := UnpackedFloat.finite.inj hb
    have hexponent : (unpackExponent b).toNat ≠ 0 := by
      intro hzero
      exact hleast (BitVec.eq_of_toNat_eq hzero)
    exact ⟨hsign, Or.inr ⟨hexponent, toNat_one_append _, by omega⟩⟩

/-- All exponent bits of infinity are set. -/
theorem unpackExponent_of_infinity {b : BitVec Format.binary64.numBits} {sign : Sign}
    (hb : unpack .binary64 b = .infinity sign) : unpackExponent b = -1#11 := by
  by_contra hall
  rw [unpack_eq, if_neg hall] at hb
  by_cases hleast : unpackExponent b = 0#11
  · rw [if_pos hleast] at hb
    by_cases hdigits : unpackMantissa b = 0#52
    · rw [dif_pos hdigits] at hb
      cases hb
    · rw [dif_neg hdigits] at hb
      cases hb
  · rw [if_neg hleast] at hb
    cases hb

/-- What is in storage has no more than 53 digits, and 53 unless it has the least
exponent. -/
theorem stores_of_unpack_eq {b : BitVec Format.binary64.numBits} {m : ℕ} {e : ℤ} {h : 0 < m}
    (hb : unpack .binary64 b = .finite .positive m e h) :
    Stores (.finite .positive m e h) (m * 2 ^ e) := by
  have hdigits : (unpackMantissa b).toNat < 2 ^ 52 := (unpackMantissa b).isLt
  obtain ⟨-, ⟨hleast, hm, he⟩ | ⟨hordinary, hm, he⟩⟩ := parts_of_unpack_eq hb
  · exact .finite h (by omega) (by omega) (Or.inr he)
  · exact .finite h (by omega) (by omega) (Or.inl (by omega))

/-- A positive number that comes out of storage is its significand times its power of
two. -/
theorem hasValue_of_unpack_eq {x : Float} {m : ℕ} {e : ℤ} {h : 0 < m}
    (hx : x.toModel.unpack = .finite .positive m e h) : HasValue x (m * 2 ^ e) := by
  rw [HasValue, hx]
  exact stores_of_unpack_eq hx

/-- The sign goes into storage and comes out as it was. For the other two parts the
library says so. -/
theorem ofBitVec_unpackSign_packComponents (sign : Sign) (exponent : BitVec 11)
    (mantissa : BitVec 52) :
    Sign.ofBitVec (unpackSign (packComponents .binary64 sign exponent mantissa)) = sign := by
  have hbit : unpackSign (packComponents .binary64 sign exponent mantissa) = sign.toBitVec := by
    show BitVec.extractLsb' 63 1 (sign.toBitVec ++ exponent ++ mantissa) = sign.toBitVec
    rw [BitVec.extractLsb'_append_eq_of_le (by omega),
      BitVec.extractLsb'_append_eq_of_le (by omega)]
    cases sign <;> rfl
  rw [hbit]
  cases sign <;> rfl

/-- A number of 53 digits is stored as it is, or as infinity if its exponent is
too large. -/
theorem unpack_pack_of_full {m : ℕ} {e : ℤ} (h : 0 < m) (hlow : 2 ^ 52 ≤ m) (hhigh : m < 2 ^ 53)
    (hplace : -1074 ≤ e) :
    unpack .binary64 (pack .binary64 (.finite .positive m e h))
      = if e ≤ 971 then .finite .positive m e h else .infinity .positive := by
  have hlog : m.log2 = 52 := log2_eq_of_bounds hlow hhigh
  -- In storage, the least exponent of a number with 53 digits is 1 and not 0.
  obtain ⟨k, hk⟩ : ∃ k : ℕ, e = k - 1074 := ⟨(e + 1074).toNat, by omega⟩
  have hbiased : (e + 1023 + 52).toNat = k + 1 := by omega
  rw [pack_finite, hlog, hbiased]
  by_cases hmax : e ≤ 971
  · have hexponent : (BitVec.ofNat 11 (k + 1)).toNat = k + 1 := by
      rw [BitVec.toNat_ofNat]
      omega
    have hordinary : BitVec.ofNat 11 (k + 1) ≠ -1#11 ∧ BitVec.ofNat 11 (k + 1) ≠ 0#11 := by
      rw [ne_eq, ne_eq, ← BitVec.toNat_inj, ← BitVec.toNat_inj, hexponent]
      simp
      omega
    have hmantissa : (1#1 ++ BitVec.ofNat 52 m).toNat = m := by
      rw [toNat_one_append, BitVec.toNat_ofNat]
      omega
    rw [if_pos hmax, if_neg (by omega), if_pos rfl, unpack_eq, unpackExponent_packComponents,
      if_neg hordinary.1, if_neg hordinary.2, UnpackedFloat.finite.injEq,
      ofBitVec_unpackSign_packComponents, unpackMantissa_packComponents, hmantissa, hexponent]
    exact ⟨rfl, rfl, by omega⟩
  · -- The exponent in storage would be that of infinity, or larger.
    rw [if_neg hmax, if_pos (by omega)]
    rfl

/-- A number with the least exponent and fewer digits is stored as it is. -/
theorem unpack_pack_of_least {m : ℕ} (h : 0 < m) (hhigh : m < 2 ^ 52) :
    unpack .binary64 (pack .binary64 (.finite .positive m (-1074) h))
      = .finite .positive m (-1074) h := by
  have hlog : m.log2 < 52 := (Nat.log2_lt (by omega)).2 hhigh
  have hmantissa : (BitVec.ofNat 52 m).toNat = m := by
    rw [BitVec.toNat_ofNat]
    omega
  -- Without exponent bits, only the other bits tell the number from 0.
  have hnonzero : BitVec.ofNat 52 m ≠ 0#52 := by
    rw [ne_eq, ← BitVec.toNat_inj, hmantissa]
    exact Nat.ne_of_gt h
  rw [pack_finite, if_neg (by decide), if_neg (by omega), unpack_eq,
    unpackExponent_packComponents, if_neg (by decide), if_pos rfl,
    unpackMantissa_packComponents, dif_neg hnonzero, UnpackedFloat.finite.injEq,
    ofBitVec_unpackSign_packComponents]
  exact ⟨rfl, hmantissa, rfl⟩

/-- Digits that are those of storage come back as they were, unless the number
is too large. -/
theorem Stores.unpack_pack {u : UnpackedFloat} {q : ℚ} (h : Stores u q) (hmax : q < 2 ^ 1024) :
    unpack .binary64 (pack .binary64 u) = u := by
  cases h with
  | zero sign => cases sign <;> rfl
  | @finite m e h hfew hplace hfull =>
      by_cases hlow : 2 ^ 52 ≤ m
      · -- The exponent is not too large, or the number would come to `2 ^ 1024`.
        have hexponent : e ≤ 971 := by
          by_contra hlarge
          refine absurd hmax (not_lt.2 ?_)
          have hm : (2 : ℚ) ^ 52 ≤ m := by exact_mod_cast hlow
          calc (2 : ℚ) ^ 1024 = 2 ^ 52 * 2 ^ 972 := pow_add 2 52 972
            _ = 2 ^ 52 * 2 ^ ((972 : ℕ) : ℤ) := by rw [zpow_natCast]
            _ ≤ (m : ℚ) * 2 ^ e :=
              mul_le_mul hm (zpow_le_zpow_right₀ one_le_two (by omega)) (by positivity)
                (by positivity)
        rw [unpack_pack_of_full h hlow hfew hplace, if_pos hexponent]
      · obtain rfl := hfull.resolve_left hlow
        exact unpack_pack_of_least h (by omega)

/-- So a number that is not too large is the same after it was stored. -/
theorem Stores.stored {u : UnpackedFloat} {q : ℚ} (h : Stores u q) (hmax : q < 2 ^ 1024) :
    Stores (unpack .binary64 (pack .binary64 u)) q := by
  rw [h.unpack_pack hmax]
  exact h

/-- What is too large becomes infinity. -/
theorem Stores.unpack_pack_of_large {u : UnpackedFloat} {q : ℚ} (h : Stores u q)
    (hmax : 2 ^ 1024 ≤ q) : unpack .binary64 (pack .binary64 u) = .infinity .positive := by
  cases h with
  | zero sign => exact absurd hmax (not_le.2 (by positivity))
  | @finite m e h hfew hplace hfull =>
      -- 53 digits with an exponent up to 971 stay below `2 ^ 1024`.
      have hexponent : ¬ e ≤ 971 := by
        intro hsmall
        refine absurd hmax (not_le.2 ?_)
        have hm : (m : ℚ) < 2 ^ 53 := by exact_mod_cast hfew
        calc (m : ℚ) * 2 ^ e < 2 ^ 53 * 2 ^ e := mul_lt_mul_of_pos_right hm (by positivity)
          _ ≤ 2 ^ 53 * 2 ^ ((971 : ℕ) : ℤ) :=
            mul_le_mul_of_nonneg_left (zpow_le_zpow_right₀ one_le_two hsmall) (by positivity)
          _ = 2 ^ 53 * 2 ^ 971 := by rw [zpow_natCast]
          _ = 2 ^ 1024 := (pow_add 2 53 971).symm
      rw [unpack_pack_of_full h (by omega) hfew hplace, if_neg hexponent]

/-! ### The exponent bits -/

/-- The exponent bits of a number, as a number. -/
def storedExponent (x : Float) : ℕ :=
  let bits : BitVec Format.binary64.numBits := x.toModel.toBits.toBitVec
  (unpackExponent bits).toNat

/-- The exponent bits, as `exponent` picks them out of the 64. -/
theorem toNat_toBits_and (x : Float) : (x.toBits >>> 52 &&& 0x7ff).toNat = storedExponent x := by
  show x.toBits.toNat >>> 52 &&& (2 ^ 11 - 1) = x.toBits.toNat >>> 52 % 2 ^ 11
  exact Nat.and_two_pow_sub_one_eq_mod _ 11

/-- The exponent that is read off a number is that of its bits, less the bias. -/
theorem exponent_eq (x : Float) : exponent x = storedExponent x - 1023 := by
  unfold exponent
  exact congrArg (fun bits => bits - 1023) (toNat_toBits_and x)

/-- For infinity, `exponent` answers one more than any number has. -/
theorem exponent_of_infinity {x : Float} {sign : Sign} (hx : x.toModel.unpack = .infinity sign) :
    exponent x = 1024 := by
  have hb : unpack .binary64 x.toModel.toBits.toBitVec = .infinity sign := hx
  have hstored : storedExponent x = 2047 := by
    rw [storedExponent, unpackExponent_of_infinity hb]
    rfl
  rw [exponent_eq, hstored]

/-! ### The order -/

/-- The order of the numbers is that of what they are unpacked to. -/
theorem lt_iff_compare (x y : Float) :
    x < y ↔ x.toModel.unpack.compare y.toModel.unpack = some .lt := by
  show decide ((x.toModel.unpack.compare y.toModel.unpack == some .lt) = true) = true ↔ _
  rw [decide_eq_true_iff, beq_iff_eq]

/-- The order with equality, in the same way. -/
theorem le_iff_compare (x y : Float) :
    x ≤ y ↔ (x.toModel.unpack.compare y.toModel.unpack).any (·.isLE) = true := by
  show decide ((x.toModel.unpack.compare y.toModel.unpack).any (·.isLE) = true) = true ↔ _
  rw [decide_eq_true_iff]

/-- Of two numbers, the one with the smaller exponent is smaller, if the other
one has all its digits. -/
theorem mul_two_pow_lt {m m' : ℕ} {e e' : ℤ} (hfew : m < 2 ^ 53) (hfull : 2 ^ 52 ≤ m')
    (hlt : e < e') : (m : ℚ) * 2 ^ e < m' * 2 ^ e' := by
  have hm : (m : ℚ) < 2 ^ 53 := by exact_mod_cast hfew
  have hm' : (2 : ℚ) ^ 52 ≤ m' := by exact_mod_cast hfull
  calc (m : ℚ) * 2 ^ e < 2 ^ 53 * 2 ^ e := mul_lt_mul_of_pos_right hm (by positivity)
    _ = 2 ^ 52 * 2 ^ (e + 1) := by
      rw [zpow_add_one₀ two_ne_zero]
      ring
    _ ≤ m' * 2 ^ e' :=
      mul_le_mul hm' (zpow_le_zpow_right₀ one_le_two hlt) (by positivity) (by positivity)

/-- Unpacked numbers compare as the rational numbers they are. The exponents are
compared first, which is right because only the least exponent leaves digits unused. -/
theorem Stores.compare_eq {u v : UnpackedFloat} {q r : ℚ} (hu : Stores u q) (hv : Stores v r) :
    u.compare v = some (compare q r) := by
  cases hu with
  | zero sign =>
      cases hv with
      | zero sign' => rw [compare_eq_iff_eq.2 rfl]; rfl
      | finite h' hfew' hplace' hfull' =>
          rw [compare_lt_iff_lt.2 (by positivity)]
          rfl
  | @finite m e h hfew hplace hfull =>
      cases hv with
      | zero sign =>
          rw [compare_gt_iff_gt.2 (by positivity)]
          rfl
      | @finite m' e' h' hfew' hplace' hfull' =>
          show some ((compare e e').then (compare m m')) = _
          -- The lesser exponent is that of the lesser number, as the other one has 53
          -- digits.
          rcases lt_trichotomy e e' with hlt | rfl | hgt
          · rw [compare_lt_iff_lt.2 hlt,
              compare_lt_iff_lt.2 (mul_two_pow_lt hfew (by omega) hlt)]
            rfl
          · rw [compare_eq_iff_eq.2 (rfl : e = e)]
            have hscale : (0 : ℚ) < 2 ^ e := by positivity
            show some (compare m m') = _
            rcases lt_trichotomy m m' with hlt | rfl | hgt
            · rw [compare_lt_iff_lt.2 hlt, compare_lt_iff_lt.2
                (mul_lt_mul_of_pos_right (Nat.cast_lt.2 hlt) hscale)]
            · rw [compare_eq_iff_eq.2 (rfl : m = m), compare_eq_iff_eq.2 rfl]
            · rw [compare_gt_iff_gt.2 hgt, compare_gt_iff_gt.2
                (mul_lt_mul_of_pos_right (Nat.cast_lt.2 hgt) hscale)]
          · rw [compare_gt_iff_gt.2 hgt,
              compare_gt_iff_gt.2 (mul_two_pow_lt hfew' (by omega) hgt)]
            rfl

/-- Stored numbers are ordered as rational numbers. -/
theorem HasValue.lt_iff {x y : Float} {q r : ℚ} (hx : HasValue x q) (hy : HasValue y r) :
    x < y ↔ q < r := by
  rw [lt_iff_compare, hx.compare_eq hy, Option.some.injEq, compare_lt_iff_lt]

/-- Stored numbers are ordered as rational numbers, equality included. -/
theorem HasValue.le_iff {x y : Float} {q r : ℚ} (hx : HasValue x q) (hy : HasValue y r) :
    x ≤ y ↔ q ≤ r := by
  rw [le_iff_compare, hx.compare_eq hy, Option.any_some, ← Ordering.ne_gt_iff_isLE]
  exact compare_le_iff_le

/-- A number is one number only. -/
theorem HasValue.value_unique {x : Float} {q r : ℚ} (hq : HasValue x q) (hr : HasValue x r) :
    q = r := by
  have hself : x ≤ x := (hq.le_iff hq).2 le_rfl
  exact le_antisymm ((hq.le_iff hr).1 hself) ((hr.le_iff hq).1 hself)

/-- The order of stored numbers is transitive, as that of rational numbers is. -/
theorem HasValue.le_trans {x y z : Float} {q r s : ℚ} (hx : HasValue x q) (hy : HasValue y r)
    (hz : HasValue z s) (hxy : x ≤ y) (hyz : y ≤ z) : x ≤ z :=
  (hx.le_iff hz).2 (((hx.le_iff hy).1 hxy).trans ((hy.le_iff hz).1 hyz))

/-- From 1 on, no digit is past place -52. -/
theorem neg_le_of_one_le {m : ℕ} {e : ℤ} (hfew : m < 2 ^ 53) (hone : (1 : ℚ) ≤ m * 2 ^ e) :
    -52 ≤ e := by
  by_contra hlt
  have hless : (m : ℚ) * 2 ^ e < (2 ^ 52 : ℕ) * 2 ^ (-52 : ℤ) :=
    mul_two_pow_lt hfew le_rfl (by omega)
  norm_num at hless
  linarith

/-- From 1 on, the exponent is that of the greatest power of two that the number has
come to. -/
theorem HasValue.two_pow_exponent {x : Float} {q : ℚ} (hx : HasValue x q) (hq : 1 ≤ q) :
    2 ^ exponent x ≤ q ∧ q < 2 ^ (exponent x + 1) := by
  rw [HasValue] at hx
  generalize hunpack : x.toModel.unpack = u at hx
  cases hx with
  | zero sign => exact absurd hq (by norm_num)
  | @finite m e h hfew hplace hfull =>
      have hexponent := neg_le_of_one_le hfew hq
      have hstored : (storedExponent x : ℤ) = e + 1075 := by
        obtain ⟨-, hparts⟩ := parts_of_unpack_eq hunpack
        rw [storedExponent]
        omega
      -- A number from 1 on has 53 digits, and begins 52 places before its last.
      obtain ⟨k, hk⟩ : ∃ k : ℕ, e = (k : ℤ) - 52 := ⟨(e + 52).toNat, by omega⟩
      have hself : exponent x = k := by
        rw [exponent_eq]
        omega
      have hlow : (2 : ℚ) ^ 52 ≤ m := by exact_mod_cast (by omega : 2 ^ 52 ≤ m)
      have hhigh : (m : ℚ) < 2 ^ 53 := by exact_mod_cast hfew
      have hscale : (0 : ℚ) < 2 ^ k / 2 ^ 52 := by positivity
      have hvalue : (m : ℚ) * 2 ^ e = m * (2 ^ k / 2 ^ 52) := by
        rw [hk, zpow_sub₀ two_ne_zero, zpow_natCast]
        rfl
      rw [hself, hvalue]
      constructor
      · calc (2 : ℚ) ^ k = 2 ^ 52 * (2 ^ k / 2 ^ 52) := by ring
          _ ≤ m * (2 ^ k / 2 ^ 52) := mul_le_mul_of_nonneg_right hlow hscale.le
      · calc (m : ℚ) * (2 ^ k / 2 ^ 52) < 2 ^ 53 * (2 ^ k / 2 ^ 52) :=
              mul_lt_mul_of_pos_right hhigh hscale
          _ = 2 ^ (k + 1) := by ring

/-! ### One form for each number -/

/-- Storage is decided by its three parts. -/
theorem eq_of_parts_eq {b b' : BitVec Format.binary64.numBits}
    (hsign : unpackSign b = unpackSign b')
    (hexponent : (unpackExponent b).toNat = (unpackExponent b').toNat)
    (hmantissa : (unpackMantissa b).toNat = (unpackMantissa b').toNat) : b = b' := by
  have hsign' : b.toNat >>> 63 % 2 ^ 1 = b'.toNat >>> 63 % 2 ^ 1 := congrArg BitVec.toNat hsign
  have hexponent' : b.toNat >>> 52 % 2 ^ 11 = b'.toNat >>> 52 % 2 ^ 11 := hexponent
  have hmantissa' : b.toNat >>> 0 % 2 ^ 52 = b'.toNat >>> 0 % 2 ^ 52 := hmantissa
  have hb : b.toNat < 2 ^ 64 := b.isLt
  have hb' : b'.toNat < 2 ^ 64 := b'.isLt
  rw [Nat.shiftRight_eq_div_pow, Nat.shiftRight_eq_div_pow] at hsign' hexponent' hmantissa'
  refine BitVec.eq_of_toNat_eq ?_
  omega

/-- The sign bit of a positive number is not set. -/
theorem unpackSign_of_positive {b : BitVec Format.binary64.numBits}
    (hb : Sign.ofBitVec (unpackSign b) = .positive) : unpackSign b = 0#1 := by
  by_contra hone
  rw [Sign.ofBitVec, if_neg hone] at hb
  exact absurd hb (by simp)

/-- A positive number comes out of one pattern of bits only. -/
theorem eq_of_unpack_eq {b b' : BitVec Format.binary64.numBits} {m : ℕ} {e : ℤ} {h : 0 < m}
    (hb : unpack .binary64 b = .finite .positive m e h)
    (hb' : unpack .binary64 b' = .finite .positive m e h) : b = b' := by
  have hdigits : (unpackMantissa b).toNat < 2 ^ 52 := (unpackMantissa b).isLt
  have hdigits' : (unpackMantissa b').toNat < 2 ^ 52 := (unpackMantissa b').isLt
  obtain ⟨hsign, hparts⟩ := parts_of_unpack_eq hb
  obtain ⟨hsign', hparts'⟩ := parts_of_unpack_eq hb'
  refine eq_of_parts_eq ?_ (by omega) (by omega)
  rw [unpackSign_of_positive hsign, unpackSign_of_positive hsign']

/-- The digits that a number above 0 is stored with are its own. -/
theorem Stores.unique {u v : UnpackedFloat} {q r : ℚ} (hu : Stores u q) (hv : Stores v r)
    (heq : q = r) (hq : 0 < q) : u = v := by
  cases hu with
  | zero sign => exact absurd hq (lt_irrefl 0)
  | @finite m e h hfew hplace hfull =>
      cases hv with
      | zero sign => exact absurd (heq ▸ hq) (lt_irrefl 0)
      | @finite m' e' h' hfew' hplace' hfull' =>
          -- Different exponents would be those of different numbers.
          rcases lt_trichotomy e e' with hlt | rfl | hgt
          · exact absurd heq (mul_two_pow_lt hfew (by omega) hlt).ne
          · rw [mul_left_inj' (by positivity), Nat.cast_inj] at heq
            subst heq
            rfl
          · exact absurd heq (mul_two_pow_lt hfew' (by omega) hgt).ne'

/-- Numbers with the same bits are the same. -/
theorem eq_of_toBits_eq {x y : Float} (h : x.toModel.toBits = y.toModel.toBits) : x = y := by
  obtain ⟨⟨xbits, xvalid⟩⟩ := x
  obtain ⟨⟨ybits, yvalid⟩⟩ := y
  obtain rfl : xbits = ybits := h
  rfl

/-- There are only so many binary64 numbers. -/
instance finite_float : Finite Float :=
  Finite.of_injective (fun x : Float => x.toModel.toBits.toFin) fun _ _ h =>
    eq_of_toBits_eq (UInt64.toFin_inj.1 h)

/-- So a number above 0 is stored in one way. -/
theorem HasValue.unique {x y : Float} {q : ℚ} (hx : HasValue x q) (hy : HasValue y q)
    (hq : 0 < q) : x = y := by
  have hunpack : x.toModel.unpack = y.toModel.unpack := Stores.unique hx hy rfl hq
  rw [HasValue] at hx
  generalize hu : x.toModel.unpack = u at hx hunpack
  cases hx with
  | zero sign => exact absurd hq (lt_irrefl 0)
  | finite h hfew hplace hfull =>
      exact eq_of_toBits_eq (UInt64.eq_of_toBitVec_eq (eq_of_unpack_eq hu hunpack.symm))

/-- Above a number there are only numbers and infinity. -/
theorem HasValue.value_of_lt {x y : Float} {q : ℚ} (hx : HasValue x q) (hlt : x < y) :
    y.toModel.unpack = .infinity .positive ∨ ∃ r, HasValue y r ∧ q < r := by
  have hvalue : ∀ r, HasValue y r → ∃ r, HasValue y r ∧ q < r :=
    fun r hy => ⟨r, hy, (hx.lt_iff hy).1 hlt⟩
  rw [lt_iff_compare] at hlt
  rw [HasValue] at hx
  generalize x.toModel.unpack = u at hx hlt
  cases hunpack : y.toModel.unpack with
  -- Whatever else may be in storage is not above a number.
  | infinity sign =>
      cases sign with
      | positive => exact Or.inl rfl
      | negative =>
          rw [hunpack] at hlt
          cases hx <;> cases hlt
  | notANumber =>
      rw [hunpack] at hlt
      cases hx <;> cases hlt
  | zero sign =>
      refine Or.inr (hvalue 0 ?_)
      rw [HasValue, hunpack]
      exact .zero sign
  | finite sign m e h =>
      cases sign with
      | positive => exact Or.inr (hvalue _ (hasValue_of_unpack_eq hunpack))
      | negative =>
          rw [hunpack] at hlt
          cases hx <;> cases hlt

/-! ### Some numbers -/

/-- The literal 0. -/
theorem hasValue_zero : HasValue 0.0 0 := by
  have hunpack : (0.0 : Float).toModel.unpack = .zero .positive := rfl
  rw [HasValue, hunpack]
  exact .zero .positive

/-- The literal 0.5 is exact. -/
theorem hasValue_half : HasValue 0.5 (1 / 2) := by
  have hvalue : HasValue 0.5 ((2 ^ 52 : ℕ) * 2 ^ (-53 : ℤ)) :=
    hasValue_of_unpack_eq (h := by decide) rfl
  norm_num at hvalue ⊢
  exact hvalue

/-- The literal 100 is exact. -/
theorem hasValue_hundred : HasValue 100.0 100 := by
  have hvalue : HasValue 100.0 ((100 * 2 ^ 46 : ℕ) * 2 ^ (-46 : ℤ)) :=
    hasValue_of_unpack_eq (h := by decide) rfl
  norm_num at hvalue ⊢
  exact hvalue

end LogBuckets.Binary64
