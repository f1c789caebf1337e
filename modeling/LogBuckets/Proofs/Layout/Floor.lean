import LogBuckets.Proofs.Layout.Spans

/-!
# `LogBuckets.Proofs.Layout.Floor`: rounding any word down to its slot

`Layout.slotFloor` is asked for words that no slot of the layout holds: value
levels run past the last slot, and a caller may pass a negative word. Buckets go
on past the last one, so from 0 on the floor is where a slot of the grid begins
(`toInt_slotFloor_of_nonneg`). All negative words have 64 binary digits, hence
one bucket and one width (`bucketOf_of_neg`), and their floors are the multiples
of that width.

* `toInt_slotFloor_eq`: on either side of 0 the floor of a word is an integer
  quotient times the divisor, and leaves the words for none of them;
* `slotFloor_le`, `slotFloor_slotFloor`, `slotFloor_mono`, `nonneg_slotFloor_iff`:
  so it is not above the word, stays where it is, keeps the order across all
  bucket boundaries and across 0, and keeps the sign;
* `slotFloor_rounds_down`: all of it.
-/

set_option autoImplicit false

namespace LogBuckets.Layout

variable {g : Layout} {v w : Int64}

/-! ### Negative words -/

/-- The highest of 64 digits is the sign. -/
theorem bitLength_of_neg (hv : v.toInt < 0) : bitLength v.toUInt64.toNat = 64 := by
  have hword := v.le_toInt
  have hlt : v.toUInt64.toNat < 2 ^ 64 := v.toUInt64.toNat_lt
  have hsign : v.toInt = if 2 * v.toUInt64.toNat < 2 ^ 64 then (v.toUInt64.toNat : Int)
      else (v.toUInt64.toNat : Int) - (2 ^ 64 : Nat) :=
    BitVec.toInt_eq_toNat_cond v.toBitVec
  have hhigh : 2 ^ 63 ≤ v.toUInt64.toNat := by
    split at hsign
    · omega
    · omega
  exact Nat.le_antisymm (bitLength_le_iff.2 hlt) (lt_bitLength_iff.2 hhigh)

/-- So all negative words share a bucket, the one of the widest slots there are. -/
theorem bucketOf_of_neg (g : Layout) (hv : v.toInt < 0) :
    g.bucketOf v + g.unitMagnitude = 63 - g.halfMagnitude := by
  have hmagnitude := g.magnitude_le
  rw [bucketOf, bitLength_of_neg hv]
  omega

/-! ### The floor as a quotient -/

/-- The floor of a word is worked out without overflow. -/
theorem toInt_slotFloor_eq (g : Layout) (v : Int64) :
    (g.slotFloor v).toInt = v.toInt / 2 ^ (g.bucketOf v + g.unitMagnitude)
      * 2 ^ (g.bucketOf v + g.unitMagnitude) := by
  have hshift := g.bucketOf_add_le v
  have hleast := v.le_toInt
  have hword := v.toInt_lt
  generalize hk : g.bucketOf v + g.unitMagnitude = k at hshift
  have hk63 : k ≤ 63 := by omega
  have hpos : (0 : Int) < 2 ^ k := Int.pow_pos (by decide)
  have hle : v.toInt / 2 ^ k * 2 ^ k ≤ v.toInt := Int.ediv_mul_le _ hpos.ne'
  -- The least word is a multiple of the width as well.
  have hge : -2 ^ 63 ≤ v.toInt / 2 ^ k * 2 ^ k := by
    have hsplit : (-2 ^ 63 : Int) = -2 ^ (63 - k) * 2 ^ k := by
      rw [Int.neg_mul, ← Int.pow_add, Nat.sub_add_cancel hk63]
    rw [hsplit] at hleast ⊢
    exact Int.mul_le_mul_of_nonneg_right ((Int.le_ediv_iff_mul_le hpos).2 hleast) hpos.le
  have hoffset : (g.offsetIn (g.bucketOf v) v).toInt = v.toInt / 2 ^ k := by
    rw [offsetIn, hk, Word.toInt_shiftDown v (by omega)]
  rw [slotFloor, hk, Word.toInt_shiftUp _ (by omega) (by rw [hoffset]; exact hge)
    (by rw [hoffset]; omega), hoffset]

/-- No slot begins above a value in it. -/
theorem slotFloor_le (g : Layout) (v : Int64) : g.slotFloor v ≤ v := by
  rw [Int64.le_iff_toInt_le, toInt_slotFloor_eq]
  exact Int.ediv_mul_le _ (Int.pow_pos (by decide)).ne'

/-- Rounding down does not cross 0. -/
theorem nonneg_slotFloor_iff (g : Layout) (v : Int64) :
    0 ≤ (g.slotFloor v).toInt ↔ 0 ≤ v.toInt := by
  have hle := Int64.le_iff_toInt_le.1 (g.slotFloor_le v)
  constructor
  · intro h
    omega
  · intro h
    rw [toInt_slotFloor_of_nonneg g h]
    exact Int.natCast_nonneg _

/-! ### Order -/

/-- The slots of the grid are in order and so are the multiples of one width, and 0
is a floor itself. -/
theorem slotFloor_mono (g : Layout) (hle : v ≤ w) : g.slotFloor v ≤ g.slotFloor w := by
  rw [Int64.le_iff_toInt_le] at hle ⊢
  by_cases hw : 0 ≤ w.toInt
  · rw [toInt_slotFloor_of_nonneg g hw]
    by_cases hv : 0 ≤ v.toInt
    · have hnat : v.toInt.toNat ≤ w.toInt.toNat := by omega
      rw [toInt_slotFloor_of_nonneg g hv, Int.ofNat_le]
      exact g.start_strictMono.monotone (g.number_mono hnat)
    · have hneg := mt (g.nonneg_slotFloor_iff v).1 hv
      omega
  · -- Negative words are all cut into slots of one width.
    have hv : v.toInt < 0 := by omega
    rw [toInt_slotFloor_eq, toInt_slotFloor_eq, bucketOf_of_neg g hv,
      bucketOf_of_neg g (Int.not_le.1 hw)]
    have hpos : (0 : Int) < 2 ^ (63 - g.halfMagnitude) := Int.pow_pos (by decide)
    exact Int.mul_le_mul_of_nonneg_right (Int.ediv_le_ediv hpos hle) hpos.le

/-- A slot begins at its own floor. -/
theorem slotFloor_slotFloor (g : Layout) (v : Int64) :
    g.slotFloor (g.slotFloor v) = g.slotFloor v := by
  have hsign := g.nonneg_slotFloor_iff v
  rw [← Int64.toInt_inj]
  by_cases hv : 0 ≤ v.toInt
  · have hfloor := toInt_slotFloor_of_nonneg g hv
    -- The least value of a slot is in that slot.
    have hslot : g.number (g.start (g.number v.toInt.toNat)) = g.number v.toInt.toNat := by
      rw [number_eq_iff]
      exact ⟨Nat.le_refl _, g.start_strictMono (Nat.lt_succ_self _)⟩
    rw [toInt_slotFloor_of_nonneg g (hsign.2 hv), hfloor, Int.toNat_natCast, hslot]
  · have hneg : (g.slotFloor v).toInt < 0 := Int.not_le.1 (mt hsign.1 hv)
    -- A negative floor is a multiple of the one width, so it is its own floor.
    have hpos : (0 : Int) < 2 ^ (63 - g.halfMagnitude) := Int.pow_pos (by decide)
    rw [toInt_slotFloor_eq g (g.slotFloor v), bucketOf_of_neg g hneg, toInt_slotFloor_eq g v,
      bucketOf_of_neg g (Int.not_le.1 hv), Int.mul_ediv_cancel _ hpos.ne']

/-- Rounding down to a slot, for all words, those past the last slot and below 0
included:

1. the floor of a word is not above it;
2. rounding down again changes nothing;
3. the order of words is kept;
4. exactly the words from 0 on have floors from 0 on;
5. the floor is the word divided by a power of two, rounded down, times that power:
   the slot width of the bucket that the digits of the word select. -/
theorem slotFloor_rounds_down (g : Layout) :
    (∀ v, g.slotFloor v ≤ v) ∧
    (∀ v, g.slotFloor (g.slotFloor v) = g.slotFloor v) ∧
    (∀ v w, v ≤ w → g.slotFloor v ≤ g.slotFloor w) ∧
    (∀ v : Int64, 0 ≤ v ↔ 0 ≤ g.slotFloor v) ∧
    ∀ v, (g.slotFloor v).toInt = v.toInt / 2 ^ (g.bucketOf v + g.unitMagnitude)
      * 2 ^ (g.bucketOf v + g.unitMagnitude) := by
  refine ⟨g.slotFloor_le, g.slotFloor_slotFloor, ?_, ?_, g.toInt_slotFloor_eq⟩
  · intro v w hle
    exact g.slotFloor_mono hle
  · intro v
    rw [Int64.le_iff_toInt_le, Int64.le_iff_toInt_le, Int64.toInt_zero]
    exact (g.nonneg_slotFloor_iff v).symm

end LogBuckets.Layout
