import LogBuckets.Proofs.Layout.Construction
import LogBuckets.Proofs.Layout.Floor

/-!
# `LogBuckets.Proofs.Layout.Safety`: index functions are exact for every word

The functions from values to slots run on words, and are asked for words that no
slot holds: negative ones, and those past the last slot. Here is why none of them
ever leaves the words on the way.

All of it comes from the digits of a word. There are at most 64 of them, and the
magnitudes of a layout leave room for an offset besides the shift by the bucket
(`bucketOf_add_le`). So an offset is small on both sides of 0
(`neg_halfCount_le_toInt_offsetIn`, `toInt_offsetIn_lt`), and what is added to it
is small too. The multiple of a width above a word is still no more than `2 ^ 63`
(`toInt_slotFloor_add_le`), so only the end of a slot can be one too many, and that
sum is made to stop.

* `maskedBucketOf_eq`: filling in the bits of the first bucket is another way of
  letting no bucket be below the first;
* `widthBucketOf_eq`: no offset is past the slots of its bucket, so looking for
  that changes nothing;
* `safeAt`: every step for every word.
-/

set_option autoImplicit false

namespace LogBuckets

/-! ### Sums that are words -/

namespace Word

variable {a b : Int64} {i j : Int}

/-- A sum that is a word is not wrapped. -/
theorem toInt_add_of_exact (ha : a.toInt = i) (hb : b.toInt = j) (low : -2 ^ 63 ≤ i + j)
    (high : i + j < 2 ^ 63) : (a + b).toInt = i + j := by
  rw [Int64.toInt_add, ha, hb]
  exact Int.bmod_eq_of_le low high

/-- Nor is a difference that is a word. -/
theorem toInt_sub_of_exact (ha : a.toInt = i) (hb : b.toInt = j) (low : -2 ^ 63 ≤ i - j)
    (high : i - j < 2 ^ 63) : (a - b).toInt = i - j := by
  rw [Int64.toInt_sub, ha, hb]
  exact Int.bmod_eq_of_le low high

end Word

/-- Joined bits have as many digits as the longer of the two numbers. -/
theorem bitLength_or (m n : Nat) : bitLength (m ||| n) = max (bitLength m) (bitLength n) := by
  apply Nat.le_antisymm
  · rw [bitLength_le_iff]
    apply Nat.or_lt_two_pow
    · exact bitLength_le_iff.1 (Nat.le_max_left _ _)
    · exact bitLength_le_iff.1 (Nat.le_max_right _ _)
  · have hlt : m ||| n < 2 ^ bitLength (m ||| n) := bitLength_le_iff.1 (Nat.le_refl _)
    apply Nat.max_le.2
    constructor
    · exact bitLength_le_iff.2 (Nat.lt_of_le_of_lt Nat.left_le_or hlt)
    · exact bitLength_le_iff.2 (Nat.lt_of_le_of_lt Nat.right_le_or hlt)

namespace Layout

/-! ### The bucket -/

/-- The first bucket has slots. -/
theorem firstCount_pos (g : Layout) : 0 < g.firstCount := by
  have hhalf := g.halfCount_pos
  rw [firstCount_eq]
  omega

/-- The bucket of a value, with the bits of the first bucket filled in. -/
def maskedBucketOf (g : Layout) (v : Int64) : Nat :=
  bitLength (v ||| Int64.ofNat g.firstMask).toUInt64.toNat - (g.unitMagnitude + g.halfMagnitude + 1)

/-- The filled in bits have as many digits as the values of the first bucket, and
these are taken off. -/
theorem maskedBucketOf_eq (g : Layout) (v : Int64) : g.maskedBucketOf v = g.bucketOf v := by
  obtain ⟨-, hmask, hword⟩ := g.fits.firstMask
  -- The mask is a word that is not negative, so the bits filled in are its bits.
  have hbits : (Int64.ofNat g.firstMask).toUInt64.toNat = g.firstMask := by
    have hint : (Int64.ofNat g.firstMask).toInt = g.firstMask := Int64.toInt_ofNat_of_lt hword
    rw [toNat_toUInt64_of_nonneg (by omega), hint, Int.toNat_natCast]
  have hjoin : (v ||| Int64.ofNat g.firstMask).toUInt64.toNat
      = v.toUInt64.toNat ||| g.firstMask := by
    rw [Int64.toUInt64_or, UInt64.toNat_or, hbits]
  have hdigits : bitLength g.firstMask ≤ g.unitMagnitude + g.halfMagnitude + 1 := by
    rw [bitLength_le_iff, hmask]
    calc (g.firstCount - 1) * 2 ^ g.unitMagnitude < g.firstCount * 2 ^ g.unitMagnitude :=
          Nat.mul_lt_mul_of_pos_right (Nat.sub_lt g.firstCount_pos Nat.one_pos) (Nat.two_pow_pos _)
      _ = 2 ^ (g.unitMagnitude + g.halfMagnitude + 1) := by
        rw [firstCount_eq, halfCount_eq]
        ring
  -- Joined, there are as many digits as in the longer of the two.
  rw [maskedBucketOf, bucketOf, hjoin, bitLength_or]
  omega

/-! ### The offset -/

variable (g : Layout) (v : Int64)

/-- The offset is a quotient, rounded down, for negative words too. -/
theorem toInt_offsetIn :
    (g.offsetIn (g.bucketOf v) v).toInt = v.toInt / 2 ^ (g.bucketOf v + g.unitMagnitude) := by
  have hshift := g.bucketOf_add_le v
  rw [offsetIn, Word.toInt_shiftDown v (by omega)]

/-- No offset is past the slots that the first bucket has. Negative words have negative
offsets. -/
theorem toInt_offsetIn_lt : (g.offsetIn (g.bucketOf v) v).toInt < g.firstCount := by
  by_cases hv : 0 ≤ v.toInt
  · have hplace := (g.isPlace_bucketFor v.toInt.toNat).1
    rw [toInt_offsetIn_of_nonneg g hv]
    exact_mod_cast hplace
  · have hneg : v.toInt / 2 ^ (g.bucketOf v + g.unitMagnitude) < 0 :=
      Int.ediv_neg_of_neg_of_pos (Int.not_le.1 hv) (Int.pow_pos (by decide))
    rw [toInt_offsetIn]
    omega

/-- All negative words are cut into `2 ^ halfMagnitude` slots, from the least word up
to 0. -/
theorem neg_halfCount_le_toInt_offsetIn :
    -(g.halfCount : Int) ≤ (g.offsetIn (g.bucketOf v) v).toInt := by
  by_cases hv : 0 ≤ v.toInt
  · rw [toInt_offsetIn_of_nonneg g hv]
    have hcount : 0 ≤ (g.halfCount : Int) := Int.natCast_nonneg _
    exact Int.le_trans (Int.neg_nonpos_of_nonneg hcount) (Int.natCast_nonneg _)
  · have hpos : (0 : Int) < 2 ^ (63 - g.halfMagnitude) := Int.pow_pos (by decide)
    have hhalf := g.halfMagnitude_le
    -- The least word is `2 ^ halfMagnitude` widths below 0.
    have hleast : -(2 ^ g.halfMagnitude) * 2 ^ (63 - g.halfMagnitude) = (-2 ^ 63 : Int) := by
      rw [Int.neg_mul, ← Int.pow_add, Nat.add_sub_cancel' (by omega)]
    -- A negative word has all 64 digits, so it is in the last bucket there can be.
    rw [toInt_offsetIn, bucketOf_of_neg g (Int.not_le.1 hv), halfCount_eq,
      Int.le_ediv_iff_mul_le hpos]
    push_cast
    rw [hleast]
    exact v.le_toInt

/-- The offset tells the value up to a width. -/
theorem toInt_offsetIn_bounds :
    (g.offsetIn (g.bucketOf v) v).toInt * 2 ^ (g.bucketOf v + g.unitMagnitude) ≤ v.toInt ∧
      v.toInt < ((g.offsetIn (g.bucketOf v) v).toInt + 1)
        * 2 ^ (g.bucketOf v + g.unitMagnitude) := by
  have hpos : (0 : Int) < 2 ^ (g.bucketOf v + g.unitMagnitude) := Int.pow_pos (by decide)
  rw [toInt_offsetIn]
  exact ⟨Int.ediv_mul_le _ hpos.ne', Int.lt_ediv_add_one_mul_self _ hpos⟩

/-- In all buckets but the first, values are in the upper half. -/
theorem bucketOf_eq_zero_or_halfCount_le (hv : 0 ≤ v.toInt) :
    g.bucketOf v = 0 ∨ (g.halfCount : Int) ≤ (g.offsetIn (g.bucketOf v) v).toInt := by
  have hplace := (g.isPlace_bucketFor v.toInt.toNat).2
  rw [toInt_offsetIn_of_nonneg g hv, bucketOf_of_nonneg g hv]
  exact_mod_cast hplace

/-! ### The position -/

/-- There are fewer than 64 buckets, of at most `2 ^ 17` slots each. -/
theorem succ_bucketOf_mul_le : (g.bucketOf v + 1) * 2 ^ g.halfMagnitude ≤ 64 * 2 ^ 17 := by
  have hshift := g.bucketOf_add_le v
  have hhalf := g.halfCount_le
  rw [halfCount_eq] at hhalf
  exact Nat.mul_le_mul (by omega) hhalf

/-- One more than a bucket is still a word. -/
theorem toInt_succ_bucketOf : (Int64.ofNat (g.bucketOf v) + 1).toInt = g.bucketOf v + 1 := by
  have hshift := g.bucketOf_add_le v
  have hbucket : (Int64.ofNat (g.bucketOf v)).toInt = g.bucketOf v :=
    Int64.toInt_ofNat_of_lt (by omega)
  exact Word.toInt_add_of_exact hbucket Int64.toInt_one (by omega) (by omega)

/-- So is the number that the slots of a bucket are counted from. -/
theorem toInt_base :
    (Int64.ofNat ((g.bucketOf v + 1) <<< g.halfMagnitude)).toInt
      = (g.bucketOf v + 1) * 2 ^ g.halfMagnitude := by
  have hbase := g.succ_bucketOf_mul_le v
  rw [Nat.shiftLeft_eq, Int64.toInt_ofNat_of_lt (by omega)]
  push_cast
  rfl

/-- It makes no difference whether the word is shifted or the number. -/
theorem shiftUp_succ_bucketOf :
    Word.shiftUp (Int64.ofNat (g.bucketOf v) + 1) g.halfMagnitude
      = Int64.ofNat ((g.bucketOf v + 1) <<< g.halfMagnitude) := by
  have hhalf := g.halfMagnitude_le
  have hbase : ((g.bucketOf v : Int) + 1) * 2 ^ g.halfMagnitude ≤ 64 * 2 ^ 17 := by
    exact_mod_cast g.succ_bucketOf_mul_le v
  have hpos : (0 : Int) < 2 ^ g.halfMagnitude := Int.pow_pos (by decide)
  have hnonneg : 0 ≤ ((g.bucketOf v : Int) + 1) * 2 ^ g.halfMagnitude :=
    Int.mul_nonneg (by omega) hpos.le
  -- Both are the exact product, which is below `2 ^ 63`.
  rw [← Int64.toInt_inj, toInt_base, Word.toInt_shiftUp, toInt_succ_bucketOf]
  · omega
  · rw [toInt_succ_bucketOf]
    omega
  · rw [toInt_succ_bucketOf]
    omega

/-- Half a bucket can be taken off every offset, down to twice that below 0. -/
theorem toInt_offsetIn_sub :
    (g.offsetIn (g.bucketOf v) v - Int64.ofNat g.halfCount).toInt
      = (g.offsetIn (g.bucketOf v) v).toInt - g.halfCount := by
  have hhalf := g.halfCount_le
  have hfirst := g.firstCount_eq
  have hlow := g.neg_halfCount_le_toInt_offsetIn v
  have hhigh := g.toInt_offsetIn_lt v
  have hcount : (Int64.ofNat g.halfCount).toInt = g.halfCount :=
    Int64.toInt_ofNat_of_lt (by omega)
  exact Word.toInt_sub_of_exact rfl hcount (by omega) (by omega)

/-- The number of a place is exact for negative words too, and then says how far the
place is below the first slot of their bucket. -/
theorem toInt_position_eq :
    (g.position (g.bucketOf v) (g.offsetIn (g.bucketOf v) v)).toInt
      = (g.bucketOf v + 1) * 2 ^ g.halfMagnitude
        + ((g.offsetIn (g.bucketOf v) v).toInt - g.halfCount) := by
  have hhalf := g.halfCount_le
  have hfirst := g.firstCount_eq
  have hlow := g.neg_halfCount_le_toInt_offsetIn v
  have hhigh := g.toInt_offsetIn_lt v
  have hbase : ((g.bucketOf v : Int) + 1) * 2 ^ g.halfMagnitude ≤ 64 * 2 ^ 17 := by
    exact_mod_cast g.succ_bucketOf_mul_le v
  have hnonneg : 0 ≤ ((g.bucketOf v : Int) + 1) * 2 ^ g.halfMagnitude :=
    Int.mul_nonneg (by omega) (Int.pow_pos (by decide)).le
  -- The base is from 0 up to `2 ^ 23` and the rest no further than `2 ^ 18` from 0, so the
  -- sum is a word.
  rw [position]
  exact Word.toInt_add_of_exact (g.toInt_base v) (g.toInt_offsetIn_sub v) (by omega) (by omega)

/-! ### The width -/

/-- The bucket whose width is taken for the slot of a value: the next one, if the
offset is past the slots that a bucket has. -/
def widthBucketOf : Nat :=
  if Int64.ofNat g.firstCount ≤ g.offsetIn (g.bucketOf v) v then g.bucketOf v + 1
  else g.bucketOf v

/-- No offset is past the slots of its bucket, so the next bucket is never taken. -/
theorem widthBucketOf_eq : g.widthBucketOf v = g.bucketOf v := by
  have hlt := g.toInt_offsetIn_lt v
  have hcount : (Int64.ofNat g.firstCount).toInt = g.firstCount :=
    Int64.toInt_ofNat_of_lt g.fits.firstCount.2.2
  rw [widthBucketOf, if_neg]
  rw [Int64.le_iff_toInt_le, hcount]
  omega

/-- A width is a word, because the offsets of a bucket fit besides it. -/
theorem toInt_slotWidth_eq :
    (g.slotWidth v).toInt = 2 ^ (g.bucketOf v + g.unitMagnitude) := by
  have hshift := g.bucketOf_add_le v
  have hhalf := g.four_le_halfMagnitude
  have hword : (2 : Int) ^ (g.bucketOf v + g.unitMagnitude) < 2 ^ 63 :=
    Int.pow_lt_pow_of_lt (by decide) (by omega)
  have hpos : (0 : Int) < 2 ^ (g.bucketOf v + g.unitMagnitude) := Int.pow_pos (by decide)
  rw [slotWidth, Nat.add_comm, Word.toInt_shiftUp 1 (by omega), Int64.toInt_one, Int.one_mul]
  · rw [Int64.toInt_one]; omega
  · rw [Int64.toInt_one]; omega

/-- No width is 0, nor wrapped to a negative word. -/
theorem toInt_slotWidth_pos : 0 < (g.slotWidth v).toInt := by
  rw [toInt_slotWidth_eq]
  exact Int.pow_pos (by decide)

/-- The next multiple of the width is a word, or one more than the greatest. -/
theorem toInt_slotFloor_add_le :
    (g.slotFloor v).toInt + (g.slotWidth v).toInt ≤ 2 ^ 63 := by
  have hshift := g.bucketOf_add_le v
  have hword := v.toInt_lt
  rw [toInt_slotFloor_eq, toInt_slotWidth_eq]
  generalize hk : g.bucketOf v + g.unitMagnitude = k at hshift
  have hpos : (0 : Int) < 2 ^ k := Int.pow_pos (by decide)
  have hsplit : (2 ^ 63 : Int) = 2 ^ (63 - k) * 2 ^ k := by
    rw [← Int.pow_add, Nat.sub_add_cancel (by omega)]
  rw [hsplit] at hword ⊢
  -- The greatest word is below a multiple of the width, and the quotient below its factor.
  have hquot : v.toInt / 2 ^ k < 2 ^ (63 - k) := (Int.ediv_lt_iff_lt_mul hpos).2 hword
  calc v.toInt / 2 ^ k * 2 ^ k + 2 ^ k = (v.toInt / 2 ^ k + 1) * 2 ^ k := by ring
    _ ≤ 2 ^ (63 - k) * 2 ^ k := Int.mul_le_mul_of_nonneg_right hquot hpos.le

/-- The end of a slot is the exact sum, or the greatest word if that is one too many. -/
theorem toInt_slotEnd_eq :
    (g.slotEnd v).toInt = min (2 ^ 63 - 1) ((g.slotFloor v).toInt + (g.slotWidth v).toInt) := by
  have hleast := (g.slotFloor v).le_toInt
  have hwidth := g.toInt_slotWidth_pos v
  rw [slotEnd, Word.toInt_addCapped]
  omega

/-- A slot does not end at the least word, so there is a word before its end. -/
theorem toInt_slotCeiling_eq : (g.slotCeiling v).toInt = (g.slotEnd v).toInt - 1 := by
  have hleast := (g.slotFloor v).le_toInt
  have hgreatest := (g.slotEnd v).toInt_lt
  have hend := g.toInt_slotEnd_eq v
  have hwidth := g.toInt_slotWidth_pos v
  rw [slotCeiling]
  exact Word.toInt_sub_of_exact rfl Int64.toInt_one (by omega) (by omega)

/-- Half a width above the floor there is always a word. -/
theorem toInt_slotMiddle_eq :
    (g.slotMiddle v).toInt = (g.slotFloor v).toInt + (g.slotWidth v).toInt / 2 := by
  have hleast := (g.slotFloor v).le_toInt
  have hend := g.toInt_slotFloor_add_le v
  have hwidth := g.toInt_slotWidth_pos v
  rw [slotMiddle, Word.toInt_addCapped, Word.toInt_shiftDown _ (by decide)]
  omega

/-! ### Every step -/

/-- The functions from a value to its slot, step by step, with the bucket and the
offset of the value. Every shift is by fewer digits than a word has, and every number
on the way is the exact integer. -/
structure SafeAt (bucket : Nat) (offset : Int64) : Prop where
  /-- The bucket, with the bits of the first bucket filled in. -/
  masked_eq : g.maskedBucketOf v = bucket
  /-- The shift down to the offset, which is also the shift back up to the floor. -/
  shift_lt : bucket + g.unitMagnitude < 64
  offset_eq : offset.toInt = v.toInt / 2 ^ (bucket + g.unitMagnitude)
  floor_eq : (g.slotFloor v).toInt = offset.toInt * 2 ^ (bucket + g.unitMagnitude)
  /-- The shift of a number of buckets to a number of slots, and the sum before it. -/
  base_shift_lt : g.halfMagnitude < 64
  base_count_eq : (Int64.ofNat bucket + 1).toInt = bucket + 1
  base_word_eq : Word.shiftUp (Int64.ofNat bucket + 1) g.halfMagnitude
    = Int64.ofNat ((bucket + 1) <<< g.halfMagnitude)
  base_eq : (Int64.ofNat ((bucket + 1) <<< g.halfMagnitude)).toInt
    = (bucket + 1) * 2 ^ g.halfMagnitude
  /-- What is added to it, and the sum. -/
  rest_eq : (offset - Int64.ofNat g.halfCount).toInt = offset.toInt - g.halfCount
  position_eq : (g.position bucket offset).toInt
    = (bucket + 1) * 2 ^ g.halfMagnitude + (offset.toInt - g.halfCount)
  /-- The shift to the width. The bucket after that of the value is never taken for it. -/
  width_shift_lt : g.unitMagnitude + g.widthBucketOf v < 64
  width_bucket_eq : g.widthBucketOf v = bucket
  width_word_eq : Word.shiftUp 1 (g.unitMagnitude + g.widthBucketOf v) = g.slotWidth v
  width_eq : (g.slotWidth v).toInt = 2 ^ (bucket + g.unitMagnitude)
  /-- The sum at the end of a slot is the only one that is made to stop at the greatest
  word. What is taken off it is a word. -/
  end_eq : (g.slotEnd v).toInt
    = min (2 ^ 63 - 1) ((g.slotFloor v).toInt + (g.slotWidth v).toInt)
  ceiling_eq : (g.slotCeiling v).toInt = (g.slotEnd v).toInt - 1
  /-- The sum at the middle is made to stop as well, but never has to. -/
  middle_eq : (g.slotMiddle v).toInt = (g.slotFloor v).toInt + (g.slotWidth v).toInt / 2
  /-- No offset is past the slots of the first bucket. -/
  offset_lt : offset.toInt < g.firstCount
  /-- A value from 0 on is in the upper half of its bucket, if that is not the first
  one, and the offset is the slot of that width that holds the value. -/
  upper_half : 0 ≤ v.toInt → bucket = 0 ∨ (g.halfCount : Int) ≤ offset.toInt
  holds : 0 ≤ v.toInt → offset.toInt * 2 ^ (bucket + g.unitMagnitude) ≤ v.toInt ∧
    v.toInt < (offset.toInt + 1) * 2 ^ (bucket + g.unitMagnitude)

/-- Every layout finds the slot of every word without leaving the words. -/
theorem safeAt : g.SafeAt v (g.bucketOf v) (g.offsetIn (g.bucketOf v) v) where
  masked_eq := g.maskedBucketOf_eq v
  shift_lt := by
    have hshift := g.bucketOf_add_le v
    have hhalf := g.four_le_halfMagnitude
    omega
  offset_eq := g.toInt_offsetIn v
  floor_eq := by rw [toInt_slotFloor_eq, toInt_offsetIn]
  base_shift_lt := by
    have hhalf := g.halfMagnitude_le
    omega
  base_count_eq := g.toInt_succ_bucketOf v
  base_word_eq := g.shiftUp_succ_bucketOf v
  base_eq := g.toInt_base v
  rest_eq := g.toInt_offsetIn_sub v
  position_eq := g.toInt_position_eq v
  width_shift_lt := by
    have hshift := g.bucketOf_add_le v
    have hhalf := g.four_le_halfMagnitude
    rw [widthBucketOf_eq]
    omega
  width_bucket_eq := g.widthBucketOf_eq v
  width_word_eq := by rw [widthBucketOf_eq, slotWidth]
  width_eq := g.toInt_slotWidth_eq v
  end_eq := g.toInt_slotEnd_eq v
  ceiling_eq := g.toInt_slotCeiling_eq v
  middle_eq := g.toInt_slotMiddle_eq v
  offset_lt := g.toInt_offsetIn_lt v
  upper_half := g.bucketOf_eq_zero_or_halfCount_le v
  holds _ := g.toInt_offsetIn_bounds v

end Layout

end LogBuckets
