import LogBuckets.Proofs.Binary64.Nearest
import LogBuckets.Proofs.Binary64.Stored

/-!
# `LogBuckets.Proofs.Binary64.Arithmetic`: operations are exact results, rounded

A binary64 operation works out the digits of its result one or more places
further than they are kept. Of what comes after, it only keeps two bits, which
tell on which side of the middle to the next significand the exact result is.
`Shows em q` says that a significand with these bits is right for `q`; dropping
more digits keeps it so (`Shows.shiftRight`), and rounding by it is rounding `q`
(`Shows.roundedMantissa_eq`).

So every operation on numbers from 0 on answers with its exact result, rounded:

* `HasValue.mul`, `HasValue.div`, `HasValue.add`, `HasValue.sub`, as long as the
  result is not too large;
* `hasValue_ofCount`: a count as a binary64 number;
* `HasValue.toCount_eq`: its integer part, back among the counts.
-/

set_option autoImplicit false

namespace LogBuckets.Binary64

open Float.Model (Format totalExponent UnpackedFloat)
open Float.Model.UnpackedFloat

/-! ### Digits that are dropped -/

/-- The significand is the integer part of `q`. The round bit tells whether `q`
has come as far as the middle to the next integer, and the sticky bit whether it
is past what the other two make. -/
def Shows : ExtendedMantissa → ℚ → Prop
  | ⟨m, false, false⟩, q => q = m
  | ⟨m, false, true⟩, q => m < q ∧ q < m + 1 / 2
  | ⟨m, true, false⟩, q => q = m + 1 / 2
  | ⟨m, true, true⟩, q => m + 1 / 2 < q ∧ q < m + 1

variable {em : ExtendedMantissa} {q : ℚ}

/-- The two bits are only about the fraction: the significand is the integer part. -/
theorem Shows.floor_eq (h : Shows em q) : ⌊q⌋ = em.mantissa := by
  obtain ⟨m, round, sticky⟩ := em
  rw [Int.floor_eq_iff, Int.cast_natCast]
  cases round <;> cases sticky <;> grind [Shows]

/-- Rounding by the bits is rounding the number that they show. -/
theorem Shows.roundedMantissa_eq (h : Shows em q) : (em.roundedMantissa : ℤ) = nearestInt q := by
  have hfloor := h.floor_eq
  obtain ⟨m, round, sticky⟩ := em
  rw [nearestInt, hfloor, Int.cast_natCast]
  -- The round bit and the sticky bit tell how the fraction compares to one half.
  cases round <;> cases sticky
  · have hexact : q = m := h
    rw [if_pos (by linarith)]
    rfl
  · rw [if_pos h.2]
    rfl
  · have hmiddle : q = m + 1 / 2 := h
    rw [if_neg (by linarith), if_neg (by linarith)]
    exact Int.natCast_add m (m % 2)
  · rw [if_neg (not_lt.2 h.1.le), if_pos h.1]
    rfl

/-- Dropping a digit passes it on to the round bit. -/
theorem Shows.shiftRightOne (h : Shows em q) : Shows em.shiftRightOne (q / 2) := by
  obtain ⟨m, round, sticky⟩ := em
  -- The digit that is dropped is 0 or 1, and the bits after it are joined in the sticky
  -- bit.
  rcases Nat.even_or_odd' m with ⟨a, rfl | rfl⟩
  · have hshift : ExtendedMantissa.shiftRightOne ⟨2 * a, round, sticky⟩
        = ⟨a, false, round || sticky⟩ := by
      simp [ExtendedMantissa.shiftRightOne]
    rw [hshift]
    cases round <;> cases sticky <;> grind [Shows]
  · have hshift : ExtendedMantissa.shiftRightOne ⟨2 * a + 1, round, sticky⟩
        = ⟨a, true, round || sticky⟩ := by
      simp [ExtendedMantissa.shiftRightOne]
      omega
    rw [hshift]
    cases round <;> cases sticky <;> grind [Shows]

/-- Dropping digits one by one keeps the bits right for what is left. -/
theorem Shows.shiftRight (h : Shows em q) (n : ℕ) : Shows (em >>> n) (q / 2 ^ n) := by
  show Shows (n.repeat ExtendedMantissa.shiftRightOne em) (q / 2 ^ n)
  induction n with
  | zero =>
      rw [pow_zero, div_one]
      exact h
  | succ n ih =>
      rw [pow_succ, ← div_div]
      exact ih.shiftRightOne

/-- An integer shows itself, with neither bit set. -/
theorem shows_natCast (m : ℕ) : Shows (.ofMantissaAndAccuracy m .exact) m :=
  rfl

/-- A quotient of integers, with the remainder compared to the middle. -/
theorem shows_quotient (n : ℕ) {d : ℕ} (hd : 0 < d) :
    Shows (.ofMantissaAndAccuracy (n / d) (accuracyOfFraction (n % d) d)) (n / d) := by
  have hpos : (0 : ℚ) < d := Nat.cast_pos.2 hd
  have hsplit : (n : ℚ) / d = (n / d : ℕ) + (n % d : ℕ) / d := by
    rw [eq_comm, ← mul_left_inj' hpos.ne', add_mul, div_mul_cancel₀ _ hpos.ne',
      div_mul_cancel₀ _ hpos.ne']
    exact_mod_cast Nat.div_add_mod' n d
  have hless : n % d < d := Nat.mod_lt n hd
  rw [hsplit]
  generalize n / d = k
  generalize n % d = r at hless ⊢
  rw [accuracyOfFraction]
  split
  · next hzero =>
      rw [hzero, Nat.cast_zero, zero_div, add_zero]
      exact shows_natCast k
  · next hnonzero =>
      have hr : (0 : ℚ) < r := Nat.cast_pos.2 (Nat.pos_of_ne_zero hnonzero)
      have hone : (r : ℚ) / d < 1 := (div_lt_one hpos).2 (Nat.cast_lt.2 hless)
      have hsome : 0 < (r : ℚ) / d := div_pos hr hpos
      -- The fraction is below, at or above the middle as twice the remainder is to the
      -- divisor.
      rcases lt_trichotomy (2 * r) d with hlt | heq | hgt
      · have hhalf : (r : ℚ) / d < 1 / 2 := by
          rw [div_lt_div_iff₀ hpos two_pos, mul_comm, one_mul]
          exact_mod_cast hlt
        rw [compare_lt_iff_lt.2 hlt]
        exact ⟨by linarith, by linarith⟩
      · have hhalf : (r : ℚ) / d = 1 / 2 := by
          rw [div_eq_div_iff hpos.ne' two_ne_zero, mul_comm, one_mul]
          exact_mod_cast heq
        rw [compare_eq_iff_eq.2 heq]
        show _ = (k : ℚ) + 1 / 2
        rw [hhalf]
      · have hhalf : 1 / 2 < (r : ℚ) / d := by
          rw [div_lt_div_iff₀ two_pos hpos, one_mul, mul_comm]
          exact_mod_cast hgt
        rw [compare_gt_iff_gt.2 hgt]
        exact ⟨by linarith, by linarith⟩

/-! ### Rounding -/

/-- The last place that a result is rounded to: 53 digits from its first one on, or the
least place there is. -/
theorem targetExponent_eq (total : ℤ) :
    Format.binary64.targetExponent total = max (total - 53) (-1074) :=
  rfl

/-- The digits at hand tell the last place of the number, unless there are none,
and the number is below the least last place of all. -/
theorem targetExponent_eq_lastPlace (hq : 0 < q) {m : ℕ} {e : ℤ} (hfloor : ⌊q / 2 ^ e⌋ = m)
    (hm : 0 < m ∨ e ≤ -1074) :
    Format.binary64.targetExponent (totalExponent m e) = lastPlace q := by
  obtain ⟨hlow, hhigh⟩ := Int.floor_eq_iff.1 hfloor
  have hscale : (0 : ℚ) < 2 ^ e := by positivity
  rw [le_div_iff₀ hscale] at hlow
  rw [div_lt_iff₀ hscale] at hhigh
  rw [targetExponent_eq, totalExponent, lastPlace]
  rcases Nat.eq_zero_or_pos m with rfl | hpos
  · -- Without digits, the number begins below place `e`, which is not above the least last
    -- place.
    have hlog : Int.log 2 q < e := (log_lt_iff hq e).2 (by simpa using hhigh)
    have hzero : Nat.log2 0 = 0 := rfl
    omega
  · have hself : ((2 ^ m.log2 : ℕ) : ℚ) ≤ m := Nat.cast_le.2 (Nat.log2_self_le (by omega))
    have hnext : ((m + 1 : ℕ) : ℚ) ≤ (2 ^ (m.log2 + 1) : ℕ) := Nat.cast_le.2 Nat.lt_log2_self
    push_cast at hself hnext hlow hhigh
    -- With digits, the first of them is where the number begins.
    have hle : (m.log2 : ℤ) + e ≤ Int.log 2 q := by
      rw [le_log_iff hq, zpow_add₀ two_ne_zero, zpow_natCast]
      exact (mul_le_mul_of_nonneg_right hself hscale.le).trans hlow
    have hlt : Int.log 2 q < (m.log2 : ℤ) + 1 + e := by
      rw [log_lt_iff hq, zpow_add₀ two_ne_zero]
      exact hhigh.trans_le (mul_le_mul_of_nonneg_right (by exact_mod_cast hnext) hscale.le)
    omega

/-- Rounding may carry over to digit number 54. The second shift drops it, as
the digit that it drops is 0. -/
theorem stores_carry {m : ℕ} {e : ℤ} (hm : m ≤ 2 ^ 53) (hplace : -1074 ≤ e)
    (hfull : 2 ^ 52 ≤ m ∨ e = -1074) :
    let shifted := shiftToTargetExponent .binary64 m e .exact
    Stores
      (if h : shifted.1.mantissa = 0 then .zero .positive
        else .finite .positive shifted.1.mantissa shifted.2 (Nat.pos_of_ne_zero h))
      (m * 2 ^ e) := by
  intro shifted
  rcases hm.eq_or_lt with rfl | hlt
  · have hshifted : shifted = (⟨2 ^ 52, false, false⟩, e + 1) := by
      have htarget : Format.binary64.targetExponent (totalExponent (2 ^ 53) e) = e + 1 := by
        rw [targetExponent_eq, totalExponent, Nat.log2_two_pow]
        omega
      have hone : (e + 1 - e).toNat = 1 := by omega
      show shiftToTargetExponent .binary64 (2 ^ 53) e .exact = _
      rw [shiftToTargetExponent, htarget, shiftToExponent, hone]
      rfl
    have hvalue : ((2 ^ 53 : ℕ) : ℚ) * 2 ^ e = (2 ^ 52 : ℕ) * 2 ^ (e + 1) := by
      rw [zpow_add_one₀ two_ne_zero]
      push_cast
      ring
    rw [hshifted, hvalue]
    exact .finite (m := 2 ^ 52) (by decide) (by decide) (by omega) (Or.inl le_rfl)
  · have hshifted : shifted = (⟨m, false, false⟩, e) := by
      have htarget : Format.binary64.targetExponent (totalExponent m e) ≤ e := by
        have hlog : m.log2 < 53 := by
          rcases Nat.eq_zero_or_pos m with rfl | hpos
          · decide
          · exact (Nat.log2_lt (by omega)).2 hlt
        rw [targetExponent_eq, totalExponent]
        omega
      have hnone : (Format.binary64.targetExponent (totalExponent m e) - e).toNat = 0 := by omega
      show shiftToTargetExponent .binary64 m e .exact = _
      rw [shiftToTargetExponent, shiftToExponent, hnone, Nat.cast_zero, add_zero]
      rfl
    rw [hshifted]
    show Stores (if h : m = 0 then .zero .positive else .finite .positive m e _) (m * 2 ^ e)
    by_cases hzero : m = 0
    · rw [dif_pos hzero, hzero, Nat.cast_zero, zero_mul]
      exact .zero .positive
    · rw [dif_neg hzero]
      exact .finite _ hlt hplace hfull

/-- Rounding digits that are right for `q` is rounding `q`, if they go as far as
the last place. -/
theorem stores_roundWithAccuracy (hq : 0 < q) {m : ℕ} {e : ℤ} {accuracy : Accuracy}
    (hshow : Shows (.ofMantissaAndAccuracy m accuracy) (q / 2 ^ e)) (he : e ≤ lastPlace q)
    (hm : 0 < m ∨ e ≤ -1074) :
    Stores (roundWithAccuracy .binary64 .positive m e accuracy) (rounded q) := by
  have hmantissa : (ExtendedMantissa.ofMantissaAndAccuracy m accuracy).mantissa = m := by
    cases accuracy with
    | exact => rfl
    | inexact order => cases order <;> rfl
  have htarget := targetExponent_eq_lastPlace hq (hmantissa ▸ hshow.floor_eq) hm
  -- The first shift leaves the digits down to the last place.
  obtain ⟨em, hfirst, hkept⟩ : ∃ em, shiftToTargetExponent .binary64 m e accuracy
      = (em, lastPlace q) ∧ Shows em (q / 2 ^ lastPlace q) := by
    have hdown : e + ((lastPlace q - e).toNat : ℤ) = lastPlace q := by omega
    refine ⟨ExtendedMantissa.ofMantissaAndAccuracy m accuracy >>> (lastPlace q - e).toNat,
      ?_, ?_⟩
    · rw [shiftToTargetExponent, htarget, shiftToExponent, hdown]
    · have hshift := hshow.shiftRight (lastPlace q - e).toNat
      rw [div_div, ← zpow_natCast, ← zpow_add₀ two_ne_zero, hdown] at hshift
      exact hshift
  have hround := hkept.roundedMantissa_eq
  have hrounded : rounded q = (em.roundedMantissa : ℚ) * 2 ^ lastPlace q := by
    rw [rounded, ← hround, Int.cast_natCast]
  -- So many digits may be one too many, by the carry.
  have hmost : em.roundedMantissa ≤ 2 ^ 53 := by
    have hdigits := nearestInt_digits_le hq
    omega
  have hfull : 2 ^ 52 ≤ em.roundedMantissa ∨ lastPlace q = -1074 := by
    have hdigits := le_nearestInt_digits hq
    omega
  rw [hrounded]
  have hcarry := stores_carry hmost (le_max_right _ _) hfull
  rw [roundWithAccuracy, hfirst]
  exact hcarry

/-- A significand of any length is first made long enough. -/
theorem stores_round {m : ℕ} (hm : 0 < m) (e : ℤ) :
    Stores (UnpackedFloat.round .binary64 .positive m e) (rounded (m * 2 ^ e)) := by
  have hq : (0 : ℚ) < m * 2 ^ e := mul_pos (Nat.cast_pos.2 hm) (by positivity)
  have hfloor : ⌊(m : ℚ) * 2 ^ e / 2 ^ e⌋ = m := by
    rw [mul_div_cancel_right₀ _ (by positivity), Int.floor_natCast]
  have htarget := targetExponent_eq_lastPlace hq hfloor (Or.inl hm)
  rw [UnpackedFloat.round, htarget, decreaseExponent, Nat.shiftLeft_eq]
  -- The significand is shifted up to the last place, or is long enough already.
  generalize hup : (e - lastPlace (m * 2 ^ e)).toNat = up
  refine stores_roundWithAccuracy hq ?_ (by omega) (Or.inl (by positivity))
  have hvalue : (m : ℚ) * 2 ^ e / 2 ^ (e - up) = (m * 2 ^ up : ℕ) := by
    rw [div_eq_iff (by positivity)]
    push_cast
    rw [mul_assoc, ← zpow_natCast, ← zpow_add₀ two_ne_zero, add_sub_cancel]
  rw [hvalue]
  exact shows_natCast _

/-! ### Operations -/

variable {u v : UnpackedFloat} {r : ℚ}

/-- One of two factors has 53 digits, or the exponents are small: either way their
product has digits down to its last place. -/
theorem add_le_targetExponent {m m' : ℕ} {e e' : ℤ} (h : 0 < m) (h' : 0 < m')
    (hfull : 2 ^ 52 ≤ m ∨ e = -1074) (hfull' : 2 ^ 52 ≤ m' ∨ e' = -1074) :
    e + e' ≤ Format.binary64.targetExponent (totalExponent (m * m') (e + e')) := by
  have hm : m * m' ≠ 0 := (Nat.mul_pos h h').ne'
  have hlog : 52 ≤ (m * m').log2 ∨ e + e' ≤ -1074 := by
    rcases hfull with hlow | rfl
    · exact Or.inl ((Nat.le_log2 hm).2 (hlow.trans (Nat.le_mul_of_pos_right m h')))
    · rcases hfull' with hlow' | rfl
      · exact Or.inl ((Nat.le_log2 hm).2 (hlow'.trans (Nat.le_mul_of_pos_left m' h)))
      · exact Or.inr (by omega)
  rw [targetExponent_eq, totalExponent]
  omega

/-- A product is the exact one, rounded. It has at most twice the digits, so all of them
are worked out. -/
theorem Stores.mul (hu : Stores u q) (hv : Stores v r) :
    Stores (UnpackedFloat.mul .binary64 u v) (rounded (q * r)) := by
  cases hu with
  | zero sign =>
      rw [zero_mul, rounded_zero]
      cases hv with
      | zero sign' => exact .zero _
      | finite h' hfew' hplace' hfull' => exact .zero _
  | @finite m e h hfew hplace hfull =>
      cases hv with
      | zero sign' =>
          rw [mul_zero, rounded_zero]
          exact .zero _
      | @finite m' e' h' hfew' hplace' hfull' =>
          have hq : (0 : ℚ) < m * 2 ^ e * (m' * 2 ^ e') := by positivity
          -- Multiplied as integers, the significands lose nothing.
          have hexact : (m : ℚ) * 2 ^ e * (m' * 2 ^ e') / 2 ^ (e + e') = (m * m' : ℕ) := by
            rw [div_eq_iff (by positivity), zpow_add₀ two_ne_zero]
            push_cast
            ring
          have hpos := Or.inl (b := e + e' ≤ -1074) (Nat.mul_pos h h')
          have htarget := targetExponent_eq_lastPlace hq
            (by rw [hexact, Int.floor_natCast]) hpos
          refine stores_roundWithAccuracy hq (hexact ▸ shows_natCast _) ?_ hpos
          rw [← htarget]
          exact add_le_targetExponent h h' hfull hfull'

/-- A quotient begins no more than one place below where the exponents say. -/
theorem log2_sub_log2_le {m m' : ℕ} (h : 0 < m) (h' : 0 < m') (e e' : ℤ) :
    (m.log2 + e) - (m'.log2 + e') - 1 ≤ Int.log 2 ((m : ℚ) * 2 ^ e / (m' * 2 ^ e')) := by
  have hself : (2 : ℚ) ^ m.log2 ≤ m := by exact_mod_cast Nat.log2_self_le (by omega)
  have hnext : (m' : ℚ) ≤ 2 ^ (m'.log2 + 1) := by exact_mod_cast (Nat.lt_log2_self (n := m')).le
  -- The dividend is no less than its first digit, and the divisor is less than twice its
  -- own.
  rw [le_log_iff (by positivity), le_div_iff₀ (by positivity)]
  calc (2 : ℚ) ^ ((m.log2 + e) - (m'.log2 + e') - 1) * (m' * 2 ^ e')
      ≤ 2 ^ ((m.log2 + e) - (m'.log2 + e') - 1) * (2 ^ (m'.log2 + 1) * 2 ^ e') := by gcongr
    _ = 2 ^ m.log2 * 2 ^ e := by
      rw [← zpow_natCast, ← zpow_natCast, ← zpow_add₀ two_ne_zero, ← zpow_add₀ two_ne_zero,
        ← zpow_add₀ two_ne_zero]
      congr 1
      push_cast
      ring
    _ ≤ m * 2 ^ e := by gcongr

/-- A quotient is the exact one, rounded. Its digits are worked out past the last place
that is kept, and the remainder tells what comes after. -/
theorem Stores.div (hu : Stores u q) (hv : Stores v r) (hr : 0 < r) :
    Stores (UnpackedFloat.div .binary64 u v) (rounded (q / r)) := by
  cases hv with
  | zero sign => exact absurd hr (lt_irrefl 0)
  | @finite m' e' h' hfew' hplace' hfull' =>
      cases hu with
      | zero sign =>
          rw [zero_div, rounded_zero]
          exact .zero _
      | @finite m e h hfew hplace hfull =>
          have hq : (0 : ℚ) < m * 2 ^ e / (m' * 2 ^ e') := by positivity
          have hlog := log2_sub_log2_le h h' e e'
          -- `t` is where the digits of the quotient are to end.
          generalize ht : min (e - e') (Format.binary64.targetExponent
            (totalExponent m e - totalExponent m' e')) = t
          generalize hs : (e - e' - t).toNat = s
          have hexact : (m : ℚ) * 2 ^ e / (m' * 2 ^ e') / 2 ^ t = (m * 2 ^ s : ℕ) / (m' : ℕ) := by
            have hsum : e = s + t + e' := by omega
            rw [hsum, zpow_add₀ two_ne_zero, zpow_add₀ two_ne_zero, zpow_natCast]
            push_cast
            field_simp
          have hshow := shows_quotient (m * 2 ^ s) h'
          rw [← hexact] at hshow
          have hunfold : UnpackedFloat.div .binary64 (.finite .positive m e h)
              (.finite .positive m' e' h') = roundWithAccuracy .binary64 .positive
                (m * 2 ^ s / m') t (accuracyOfFraction (m * 2 ^ s % m') m') := by
            rw [← Nat.shiftLeft_eq, ← hs, ← ht]
            rfl
          rw [targetExponent_eq, totalExponent, totalExponent] at ht
          rw [hunfold]
          refine stores_roundWithAccuracy hq hshow ?_ ?_
          · rw [lastPlace]
            omega
          · -- Without digits at `t` the quotient is below them.
            rcases Nat.eq_zero_or_pos (m * 2 ^ s / m') with hzero | hpos
            · have hless : (m * 2 ^ s : ℕ) < (m' : ℚ) := by
                exact_mod_cast (Nat.div_eq_zero_iff_lt h').1 hzero
              have hbelow : (m : ℚ) * 2 ^ e / (m' * 2 ^ e') / 2 ^ t < 1 := by
                rw [hexact, div_lt_one (by positivity)]
                exact hless
              rw [div_lt_one (by positivity), ← log_lt_iff hq] at hbelow
              exact Or.inr (by omega)
            · exact Or.inl hpos

/-- A number that has the digits is not moved. -/
theorem Stores.rounded_eq (hu : Stores u q) : rounded q = q := by
  cases hu with
  | zero sign => exact rounded_zero
  | @finite m e h hfew hplace hfull =>
      have hself := rounded_eq_self (Int.natCast_nonneg m) hplace (by exact_mod_cast hfew)
      rw [Int.cast_natCast] at hself
      exact hself

/-- Writing a number with a smaller exponent appends zeros and does not change it. -/
theorem decreaseExponent_fst (m : ℕ) {e t : ℤ} (ht : t ≤ e) :
    ((decreaseExponent m e t).1 : ℚ) * 2 ^ t = m * 2 ^ e := by
  have hsum : e = ((e - t).toNat : ℤ) + t := by omega
  rw [decreaseExponent, Nat.shiftLeft_eq]
  conv_rhs => rw [hsum, zpow_add₀ two_ne_zero, zpow_natCast]
  push_cast
  ring

/-- A sum is the exact one, rounded. Both summands are written out down to the last
digit of either one before they are added. -/
theorem Stores.add (hu : Stores u q) (hv : Stores v r) :
    Stores (UnpackedFloat.add .binary64 u v) (rounded (q + r)) := by
  cases hu with
  | zero sign =>
      rw [zero_add, hv.rounded_eq]
      -- One summand is 0, and the other has few enough digits to stay as it is.
      cases hv with
      | zero sign' =>
          show Stores (if (sign == sign') = true then .zero sign else .zero .positive) 0
          split <;> exact .zero _
      | finite h' hfew' hplace' hfull' => exact .finite h' hfew' hplace' hfull'
  | @finite m e h hfew hplace hfull =>
      cases hv with
      | zero sign' =>
          rw [add_zero, (Stores.finite h hfew hplace hfull).rounded_eq]
          exact .finite h hfew hplace hfull
      | @finite m' e' h' hfew' hplace' hfull' =>
          -- Down to the same place, both are integers, and so is their sum.
          have hleft := decreaseExponent_fst m (Int.min_le_left e e')
          have hright := decreaseExponent_fst m' (Int.min_le_right e e')
          show Stores (UnpackedFloat.normalize .binary64
            ((decreaseExponent m e (min e e')).1 + (decreaseExponent m' e' (min e e')).1)
            (min e e') .positive) _
          have hpos : 0 < (decreaseExponent m e (min e e')).1 := by
            rw [decreaseExponent, Nat.shiftLeft_eq]
            positivity
          generalize (decreaseExponent m e (min e e')).1 = a at hleft hpos ⊢
          generalize (decreaseExponent m' e' (min e e')).1 = b at hright ⊢
          have hgt : compare ((a : ℤ) + b) 0 = .gt := Int.compare_eq_gt.2 (by omega)
          have hsum : ((a + b : ℕ) : ℚ) * 2 ^ min e e' = m * 2 ^ e + m' * 2 ^ e' := by
            rw [Nat.cast_add, add_mul, hleft, hright]
          rw [UnpackedFloat.normalize, hgt, ← hsum]
          exact stores_round (by omega) (min e e')

/-- A difference that is not negative is the exact one, rounded, in the same way. -/
theorem Stores.sub (hu : Stores u q) (hv : Stores v r) (hle : r ≤ q) :
    Stores (UnpackedFloat.sub .binary64 u v) (rounded (q - r)) := by
  cases hv with
  | zero sign' =>
      rw [sub_zero, hu.rounded_eq]
      cases hu with
      | zero sign =>
          show Stores (if (sign == -sign') = true then .zero sign else .zero .positive) 0
          split <;> exact .zero _
      | finite h hfew hplace hfull => exact .finite h hfew hplace hfull
  | @finite m' e' h' hfew' hplace' hfull' =>
      cases hu with
      | zero sign => exact absurd hle (not_le.2 (by positivity))
      | @finite m e h hfew hplace hfull =>
          have hleft := decreaseExponent_fst m (Int.min_le_left e e')
          have hright := decreaseExponent_fst m' (Int.min_le_right e e')
          show Stores (UnpackedFloat.normalize .binary64
            ((decreaseExponent m e (min e e')).1 - (decreaseExponent m' e' (min e e')).1)
            (min e e') .positive) _
          generalize (decreaseExponent m e (min e e')).1 = a at hleft ⊢
          generalize (decreaseExponent m' e' (min e e')).1 = b at hright ⊢
          have hscale : (0 : ℚ) < 2 ^ min e e' := by positivity
          -- Integers again, and in the same order as the two numbers.
          rw [← hleft, ← hright, mul_le_mul_iff_of_pos_right hscale, Nat.cast_le] at hle
          rw [← hleft, ← hright, ← sub_mul]
          rcases hle.eq_or_lt with rfl | hlt
          · -- Equal numbers leave a 0 without digits.
            rw [Int.sub_self, sub_self, zero_mul, rounded_zero]
            exact .zero .positive
          · have hgt : compare ((a : ℤ) - b) 0 = .gt := Int.compare_eq_gt.2 (by omega)
            have hnat : ((a : ℤ) - b).toNat = a - b := by omega
            have hdiff : (a : ℚ) - b = (a - b : ℕ) := (Nat.cast_sub hle).symm
            rw [UnpackedFloat.normalize, hgt, hdiff]
            show Stores (UnpackedFloat.round .binary64 .positive ((a : ℤ) - b).toNat _) _
            rw [hnat]
            exact stores_round (by omega) (min e e')

/-! ### Numbers in storage -/

variable {x y : Float}

/-- The product of two numbers as they are stored, unless it is too large. -/
theorem HasValue.mul (hx : HasValue x q) (hy : HasValue y r)
    (hmax : rounded (q * r) < 2 ^ 1024) : HasValue (x * y) (rounded (q * r)) :=
  (Stores.mul hx hy).stored hmax

/-- The quotient of two numbers as they are stored, unless it is too large. -/
theorem HasValue.div (hx : HasValue x q) (hy : HasValue y r) (hr : 0 < r)
    (hmax : rounded (q / r) < 2 ^ 1024) : HasValue (x / y) (rounded (q / r)) :=
  (Stores.div hx hy hr).stored hmax

/-- The sum of two numbers as they are stored, unless it is too large. -/
theorem HasValue.add (hx : HasValue x q) (hy : HasValue y r)
    (hmax : rounded (q + r) < 2 ^ 1024) : HasValue (x + y) (rounded (q + r)) :=
  (Stores.add hx hy).stored hmax

/-- The difference of two numbers as they are stored, if it is not negative. -/
theorem HasValue.sub (hx : HasValue x q) (hy : HasValue y r) (hle : r ≤ q)
    (hmax : rounded (q - r) < 2 ^ 1024) : HasValue (x - y) (rounded (q - r)) :=
  (Stores.sub hx hy hle).stored hmax

/-- A quotient may be too large, and it is if the divisor is 0. -/
theorem HasValue.div_cases (hx : HasValue x q) (hy : HasValue y r) (hq : 0 < q) :
    (0 < r ∧ HasValue (x / y) (rounded (q / r))) ∨
    ((∃ sign, (x / y).toModel.unpack = .infinity sign) ∧ r * 2 ^ 1023 ≤ q) := by
  rcases (Stores.nonneg hy).eq_or_lt with rfl | hr
  · -- A number divided by 0 is infinity, with the sign of the 0.
    refine Or.inr ⟨?_, by rw [zero_mul]; exact hq.le⟩
    obtain ⟨sign, hzero⟩ := Stores.eq_zero hy
    show ∃ sign, unpack .binary64 (pack .binary64
      (UnpackedFloat.div .binary64 x.toModel.unpack y.toModel.unpack)) = .infinity sign
    rw [HasValue] at hx
    generalize x.toModel.unpack = u at hx ⊢
    rw [hzero]
    cases hx with
    | zero => exact absurd hq (lt_irrefl 0)
    | @finite m e h hfew hplace hfull =>
        have hquotient : UnpackedFloat.div .binary64 (.finite .positive m e h) (.zero sign)
            = .infinity sign := by
          cases sign <;> rfl
        refine ⟨sign, ?_⟩
        rw [hquotient]
        cases sign <;> rfl
  · rcases lt_or_ge (rounded (q / r)) (2 ^ 1024) with hmax | hlarge
    · exact Or.inl ⟨hr, hx.div hy hr hmax⟩
    · refine Or.inr ⟨⟨_, (Stores.div hx hy hr).unpack_pack_of_large hlarge⟩, ?_⟩
      -- A quotient that is rounded to `2 ^ 1024` or more was above `2 ^ 1023`.
      have hquotient := two_pow_lt_of_le_rounded (div_pos hq hr).le (by decide : 1023 < 1024) hlarge
      rw [lt_div_iff₀ hr, mul_comm] at hquotient
      exact hquotient.le

/-! ### Counts -/

/-- A count becomes the nearest binary64 number. None is too large for that. -/
theorem hasValue_ofCount {n : ℕ} (hn : n < 2 ^ 64) : HasValue (ofCount n) (rounded n) := by
  have hword : n.toUInt64.toNat = n := UInt64.toNat_ofNat_of_lt' hn
  have hnormal : Stores (UnpackedFloat.normalize .binary64 (n : ℤ) 0 .positive) (rounded n) := by
    rcases Nat.eq_zero_or_pos n with rfl | hpos
    · rw [Nat.cast_zero, Nat.cast_zero, rounded_zero]
      exact .zero .positive
    · have hgt : compare (n : ℤ) 0 = .gt := Int.compare_eq_gt.2 (by omega)
      have hround := stores_round hpos 0
      rw [zpow_zero, mul_one] at hround
      rw [UnpackedFloat.normalize, hgt]
      exact hround
  have hword' : (n : ℚ) ≤ 2 ^ 64 := by exact_mod_cast hn.le
  have hmax : rounded n < 2 ^ 1024 :=
    (rounded_le_two_pow (Nat.cast_nonneg n) hword').trans_lt
      (pow_lt_pow_right₀ one_lt_two (by decide))
  show Stores (unpack .binary64 (pack .binary64
    (UnpackedFloat.normalize .binary64 (n.toUInt64.toNat : ℤ) 0 .positive))) _
  rw [hword]
  exact hnormal.stored hmax

/-- The integer part of a number that is not infinite. The bounds are for the others. -/
theorem Stores.toInt_eq (hu : Stores u q) (low high : ℤ) : u.toInt low high = ⌊q⌋ := by
  cases hu with
  | zero sign => rw [Int.floor_zero]; rfl
  | @finite m e h hfew hplace hfull =>
      -- Whole numbers are given the digits down to the units, the others are
      -- left those above.
      have hshow := (shows_natCast (decreaseExponent m e 0).1).shiftRight
        (0 - (decreaseExponent m e 0).2).toNat
      have hexact : ((decreaseExponent m e 0).1 : ℚ) / 2 ^ (0 - (decreaseExponent m e 0).2).toNat
          = m * 2 ^ e := by
        have hplaces : e = ((e - 0).toNat : ℤ) - ((0 - (e - (e - 0).toNat)).toNat : ℤ) := by omega
        show ((m <<< (e - 0).toNat : ℕ) : ℚ) / 2 ^ (0 - (e - (e - 0).toNat)).toNat = m * 2 ^ e
        conv_rhs => rw [hplaces, zpow_sub₀ two_ne_zero, zpow_natCast, zpow_natCast]
        rw [Nat.shiftLeft_eq, ← mul_div_assoc]
        push_cast
        rfl
      rw [hexact] at hshow
      exact hshow.floor_eq.symm

/-- The integer part of a number, cut at the greatest count. -/
theorem HasValue.toCount_eq (hx : HasValue x q) : toCount x = min (2 ^ 64 - 1) ⌊q⌋₊ := by
  have hint := Stores.toInt_eq hx 0 (UInt64.size - 1)
  show (UInt64.ofNatClamp (x.toModel.unpack.toInt 0 (UInt64.size - 1)).toNat).toNat = _
  rw [hint, Int.floor_toNat, UInt64.ofNatClamp]
  have hsize : UInt64.size = 2 ^ 64 := rfl
  -- The number of the word is the integer part, or that is past all words.
  split
  · next hless =>
      rw [UInt64.toNat_ofNatLT]
      omega
  · next hmost =>
      rw [UInt64.toNat_ofNatLT]
      omega

end LogBuckets.Binary64
