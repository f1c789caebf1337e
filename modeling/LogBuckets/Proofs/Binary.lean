import LogBuckets.Bits
import LogBuckets.Word
import Mathlib.Algebra.Ring.Int.Defs
import Mathlib.Algebra.Ring.Nat

/-!
# `LogBuckets.Proofs.Binary`: binary digits, shifts and powers of two

`LogBuckets.Bits` counts binary digits and `LogBuckets.Word` shifts them.
Everything that is proved about layouts takes the two as arithmetic with
powers of two, and needs no more of them than this:

* `bitLength_le_iff`, `lt_bitLength_iff` and `ceilLog2_le_iff`: how many
  digits a number has, and which power of two reaches it;
* `toInt_shiftDown`: shifting down by `k` is the floor of a division by
  `2 ^ k`, for negative words too;
* `toInt_shiftUp`: shifting up by `k` multiplies by `2 ^ k`, as long as
  the product is a word;
* `toInt_addCapped`: the exact sum, cut off at the least and the
  greatest word.
-/

set_option autoImplicit false

namespace LogBuckets

/-- Exactly the numbers below `2 ^ k` have no more than `k` binary digits. -/
theorem bitLength_le_iff {n k : Nat} : bitLength n ≤ k ↔ n < 2 ^ k := by
  unfold bitLength
  split
  · next h => simp only [h, Nat.zero_le, Nat.two_pow_pos]
  · next h => rw [← Nat.log2_lt h]; omega

/-- The other side of `bitLength_le_iff`: the digit at `2 ^ k` is reached. -/
theorem lt_bitLength_iff {n k : Nat} : k < bitLength n ↔ 2 ^ k ≤ n := by
  rw [← Nat.not_le, bitLength_le_iff, Nat.not_lt]

/-- From `ceilLog2 n` on, and not before, `2 ^ k` reaches `n`. -/
theorem ceilLog2_le_iff {n k : Nat} : ceilLog2 n ≤ k ↔ n ≤ 2 ^ k := by
  have := Nat.two_pow_pos k
  rw [ceilLog2, bitLength_le_iff]
  omega

namespace Word

/-- A shift amount below 64 is taken as it is. -/
theorem toNat_smod_ofNat {k : Nat} (h : k < 64) :
    ((Int64.ofNat k).toBitVec.smod 64).toNat = k := by
  have key : ∀ j < 64, ((Int64.ofNat j).toBitVec.smod 64).toNat = j := by decide
  exact key k h

/-- Shifting down divides and rounds down. The shift is arithmetic, so the quotient of a
negative word is rounded down too, not towards 0. -/
theorem toInt_shiftDown (v : Int64) {k : Nat} (h : k < 64) :
    (shiftDown v k).toInt = v.toInt / 2 ^ k := by
  rw [shiftDown, ← Int64.toInt_toBitVec, Int64.toBitVec_shiftRight, BitVec.sshiftRight_eq',
    toNat_smod_ofNat h, BitVec.toInt_sshiftRight, Int64.toInt_toBitVec,
    Int.shiftRight_eq_div_pow]
  simp

/-- Shifting up multiplies, and wraps as words do. -/
theorem toInt_shiftUp_bmod (v : Int64) {k : Nat} (h : k < 64) :
    (shiftUp v k).toInt = (v.toInt * 2 ^ k).bmod (2 ^ 64) := by
  rw [shiftUp, ← Int64.toInt_toBitVec, Int64.toBitVec_shiftLeft, BitVec.shiftLeft_eq',
    toNat_smod_ofNat h, BitVec.toInt_shiftLeft, Nat.shiftLeft_eq, ← Int64.toInt_toBitVec,
    BitVec.toInt_eq_toNat_bmod]
  rw [Int.natCast_mul, Int.bmod_mul_bmod]
  simp

/-- Shifting up multiplies, as long as the product is a word. -/
theorem toInt_shiftUp (v : Int64) {k : Nat} (h : k < 64)
    (low : -2 ^ 63 ≤ v.toInt * 2 ^ k) (high : v.toInt * 2 ^ k < 2 ^ 63) :
    (shiftUp v k).toInt = v.toInt * 2 ^ k := by
  rw [toInt_shiftUp_bmod v h]
  exact Int.bmod_eq_of_le (by simpa using low) (by simpa using high)

/-- A capped sum is the exact sum, cut off at the ends of the words. -/
theorem toInt_addCapped (a b : Int64) :
    (addCapped a b).toInt = max (-2 ^ 63) (min (2 ^ 63 - 1) (a.toInt + b.toInt)) := by
  have ha := a.le_toInt
  have ha' := a.toInt_lt
  have hb := b.le_toInt
  have hb' := b.toInt_lt
  simp only [addCapped, Int64.le_iff_toInt_le, Int64.lt_iff_toInt_lt, Int64.toInt_add,
    Int64.toInt_zero]
  -- The wrapped sum is the exact one, or off by `2 ^ 64` to either side.
  have hs : (a.toInt + b.toInt).bmod (2 ^ 64) =
      if a.toInt + b.toInt < -2 ^ 63 then a.toInt + b.toInt + 2 ^ 64
      else if 2 ^ 63 ≤ a.toInt + b.toInt then a.toInt + b.toInt - 2 ^ 64
      else a.toInt + b.toInt := by
    split
    · rw [← Int.add_bmod_right]; exact Int.bmod_eq_of_le (by omega) (by omega)
    · split
      · rw [← Int.sub_bmod_right]; exact Int.bmod_eq_of_le (by omega) (by omega)
      · exact Int.bmod_eq_of_le (by omega) (by omega)
  have hmax : Int64.maxValue.toInt = 2 ^ 63 - 1 := by decide
  have hmin : Int64.minValue.toInt = -2 ^ 63 := by decide
  split <;> split <;> simp only [Int64.toInt_add, hs, hmax, hmin] at * <;> omega

end Word

end LogBuckets
