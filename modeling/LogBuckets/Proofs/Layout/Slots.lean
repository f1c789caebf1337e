import LogBuckets.Layout.Slots
import LogBuckets.Proofs.Layout.Grid

/-!
# `LogBuckets.Proofs.Layout.Slots`: words land on the grid

`Layout.slot?` takes a word to a slot number by its binary digits and a
shift down, `Layout.valueAt` takes a slot number back by a split into row
and column and a shift up. `Proofs.Layout.Grid` lays the same slots out
in natural numbers. Here the two meet:

* `toInt_valueAt`: a slot's least value is `start`, whenever that is a
  word. No bit is lost on the way;
* `slot?_eq_some_iff`: a word's slot is the one whose range on the grid
  holds it;
* `slot?_roundTrip`: slot numbers and least values of slots are inverse
  to each other over the whole layout, and the words that have a slot are
  those from 0 up to `bound`.

All statements about single words are over the words from 0 on. What the
slots of negative words are is not a question of the grid.
-/

set_option autoImplicit false

namespace LogBuckets.Layout

/-! ### The bucket of a word -/

/-- From 0 on, words with and without sign are the same numbers. -/
theorem toNat_toUInt64_of_nonneg {v : Int64} (h : 0 ≤ v.toInt) :
    v.toUInt64.toNat = v.toInt.toNat := by
  have hle : 0 ≤ v := by rwa [Int64.le_iff_toInt_le, Int64.toInt_zero]
  rw [Int64.toNat_toUInt64_of_le hle, Int64.toNat_toInt]

/-- The bucket that is found for a word is that of the exact grid. -/
theorem bucketOf_of_nonneg (g : Layout) {v : Int64} (h : 0 ≤ v.toInt) :
    g.bucketOf v = g.bucketFor v.toInt.toNat := by
  rw [bucketOf, bucketFor, toNat_toUInt64_of_nonneg h]

/-- Every shift by a word's bucket and the unit magnitude stays below 64,
with room for the digits of an offset. -/
theorem bucketOf_add_le (g : Layout) (v : Int64) :
    g.bucketOf v + g.unitMagnitude + g.halfMagnitude ≤ 63 := by
  have hmagnitude := g.magnitude_le
  have hdigits : bitLength v.toUInt64.toNat ≤ 64 := by
    rw [bitLength_le_iff]
    exact v.toUInt64.toNat_lt
  rw [bucketOf]
  omega

/-- So is the offset of the word in its bucket. -/
theorem toInt_offsetIn_of_nonneg (g : Layout) {v : Int64} (h : 0 ≤ v.toInt) :
    (g.offsetIn (g.bucketOf v) v).toInt
      = (v.toInt.toNat / 2 ^ (g.bucketFor v.toInt.toNat + g.unitMagnitude) : Nat) := by
  have hshift := g.bucketOf_add_le v
  rw [offsetIn, Word.toInt_shiftDown v (by omega), bucketOf_of_nonneg g h]
  push_cast
  rw [Int.toNat_of_nonneg h]

/-! ### From words to slots -/

/-- The halves of a bucket are few, so the number of a place is exact. -/
theorem toInt_position (g : Layout) {bucket offset : Nat} {o : Int64}
    (hplace : g.IsPlace bucket offset) (hbucket : bucket ≤ 63) (ho : o.toInt = offset) :
    (g.position bucket o).toInt = (bucket * g.halfCount + offset : Nat) := by
  have hhalf := g.halfCount_le
  have hoffset := hplace.1
  rw [firstCount_eq] at hoffset
  have hbase : (bucket + 1) * g.halfCount ≤ 64 * 2 ^ 17 := Nat.mul_le_mul (by omega) hhalf
  have hbaseInt : (Int64.ofNat ((bucket + 1) <<< g.halfMagnitude)).toInt
      = ((bucket + 1) * g.halfCount : Nat) := by
    rw [Nat.shiftLeft_eq, ← halfCount_eq, Int64.toInt_ofNat_of_lt (by omega)]
  have hhalfInt : (Int64.ofNat g.halfCount).toInt = g.halfCount :=
    Int64.toInt_ofNat_of_lt (by omega)
  have hdiff : (o - Int64.ofNat g.halfCount).toInt = offset - g.halfCount := by
    rw [Int64.toInt_sub, ho, hhalfInt]
    exact Int.bmod_eq_of_le (by omega) (by omega)
  -- The base counts half a bucket too many and the offset takes it back.
  rw [position, Int64.toInt_add, hbaseInt, hdiff, Int.bmod_eq_of_le (by omega) (by omega),
    Nat.add_mul]
  omega

/-- The position that is worked out from both is the slot number of the exact grid. -/
theorem toInt_position_of_nonneg (g : Layout) {v : Int64} (h : 0 ≤ v.toInt) :
    (g.position (g.bucketOf v) (g.offsetIn (g.bucketOf v) v)).toInt
      = g.number v.toInt.toNat := by
  have hbucket := g.bucketOf_add_le v
  have hplace := g.isPlace_bucketFor v.toInt.toNat
  rw [← bucketOf_of_nonneg g h] at hplace
  rw [toInt_position g hplace (by omega)
      (by rw [toInt_offsetIn_of_nonneg g h, bucketOf_of_nonneg g h]),
    number, bucketOf_of_nonneg g h]

/-- The slot of a word from 0 on is the slot of its number, as far as the
layout goes. -/
theorem slot?_of_nonneg (g : Layout) {v : Int64} (h : 0 ≤ v.toInt) :
    g.slot? v
      = if g.number v.toInt.toNat < g.slotCount then some (g.number v.toInt.toNat)
        else none := by
  have hindex := toInt_position_of_nonneg g h
  have hnat : (g.position (g.bucketOf v) (g.offsetIn (g.bucketOf v) v)).toNatClampNeg
      = g.number v.toInt.toNat := by
    rw [← Int64.toNat_toInt, hindex, Int.toNat_natCast]
  -- Neither the word nor the number of its place is negative, so both guards let it
  -- through.
  have hv : ¬ v < 0 := by rw [Int64.lt_iff_toInt_lt, Int64.toInt_zero]; omega
  have hpos : ¬ g.position (g.bucketOf v) (g.offsetIn (g.bucketOf v) v) < 0 := by
    rw [Int64.lt_iff_toInt_lt, Int64.toInt_zero, hindex]
    omega
  simp only [slot?, if_neg hv, if_neg hpos, hnat]

/-- Negative words have no slot. -/
theorem slot?_of_neg (g : Layout) {v : Int64} (h : v.toInt < 0) : g.slot? v = none := by
  have hv : v < 0 := by rwa [Int64.lt_iff_toInt_lt, Int64.toInt_zero]
  rw [slot?, if_pos hv]

/-- A word has slot `i` exactly if the layout has such a slot and its range
holds the word. -/
theorem slot?_eq_some_iff (g : Layout) (v : Int64) (i : Nat) :
    g.slot? v = some i
      ↔ i < g.slotCount ∧ (g.start i : Int) ≤ v.toInt ∧ v.toInt < g.start (i + 1) := by
  by_cases h : 0 ≤ v.toInt
  · have hrange := g.number_eq_iff v.toInt.toNat i
    rw [slot?_of_nonneg g h]
    -- The number of the word is `i` exactly if the range of slot `i` holds it.
    constructor
    · intro hsome
      split at hsome
      · next hlt =>
          have hnumber := Option.some.inj hsome
          have := hrange.1 hnumber
          exact ⟨hnumber ▸ hlt, by omega, by omega⟩
      · exact absurd hsome (by simp)
    · rintro ⟨hlt, hle, hend⟩
      have hnumber := hrange.2 ⟨by omega, by omega⟩
      rw [hnumber, if_pos hlt]
  · rw [slot?_of_neg g (by omega)]
    constructor
    · intro hsome
      exact absurd hsome (by simp)
    · rintro ⟨-, hle, -⟩
      omega

/-- The words that have a slot are those from 0 up to `bound`. -/
theorem isSome_slot?_iff (g : Layout) (v : Int64) :
    (g.slot? v).isSome ↔ 0 ≤ v.toInt ∧ v.toInt < g.bound := by
  by_cases h : 0 ≤ v.toInt
  · have hlt := g.number_lt_slotCount_iff v.toInt.toNat
    rw [slot?_of_nonneg g h]
    split
    · next hin => exact ⟨fun _ => ⟨h, by have := hlt.1 hin; omega⟩, fun _ => rfl⟩
    · next hout =>
        refine ⟨fun hsome => absurd hsome (by simp), fun hin => ?_⟩
        exact absurd (hlt.2 (by omega)) hout
  · rw [slot?_of_neg g (by omega)]
    refine ⟨fun hsome => absurd hsome (by simp), fun hin => absurd hin.1 h⟩

/-- A slot that is found is one of the layout. -/
theorem slot?_lt_slotCount {g : Layout} {v : Int64} {i : Nat} (h : g.slot? v = some i) :
    i < g.slotCount :=
  ((g.slot?_eq_some_iff v i).1 h).1

/-! ### From slots to words -/

/-- Row and column are bucket and offset: the first two rows are the first
bucket, and from the second row on a column counts from half a bucket. -/
theorem valueAt_eq (g : Layout) (i : Nat) :
    g.valueAt i
      = if 63 ≤ g.bucketAt i + g.unitMagnitude then Int64.maxValue
        else Word.shiftUp (Int64.ofNat (g.offsetAt i)) (g.bucketAt i + g.unitMagnitude) := by
  have hrow : i >>> g.halfMagnitude = i / g.halfCount := by
    rw [Nat.shiftRight_eq_div_pow, halfCount_eq]
  have hoffset : (if i / g.halfCount = 0 then i % g.halfCount
      else i % g.halfCount + g.halfCount) = g.offsetAt i := by
    have hdiv := Nat.div_add_mod i g.halfCount
    rw [offsetAt, bucketAt]
    cases hcase : i / g.halfCount with
    | zero =>
        rw [hcase, Nat.mul_zero] at hdiv
        rw [if_pos rfl, Nat.zero_sub, Nat.zero_mul]
        omega
    | succ row =>
        rw [hcase, Nat.mul_succ, Nat.mul_comm] at hdiv
        rw [if_neg (Nat.succ_ne_zero row), Nat.add_sub_cancel]
        omega
  simp only [valueAt, hrow, hoffset]
  rfl

/-- A slot that begins at a word has its shift below 63: only the very
first slot has offset 0, and it is in the first bucket. -/
theorem bucketAt_add_lt {g : Layout} {i : Nat} (h : g.start i < 2 ^ 63) :
    g.bucketAt i + g.unitMagnitude < 63 := by
  have hmagnitude := g.magnitude_le
  obtain ⟨-, hor⟩ := g.isPlace_bucketAt_offsetAt i
  cases hor with
  | inl hzero =>
      -- The first bucket is not shifted further than the unit magnitude.
      omega
  | inr hhalf =>
      -- In a later bucket the offset is not 0, so the width alone is a word.
      have hoffset : 1 ≤ g.offsetAt i := Nat.le_trans g.halfCount_pos hhalf
      rw [start, width] at h
      exact (Nat.pow_lt_pow_iff_right (by decide)).1
        (Nat.lt_of_le_of_lt (Nat.le_mul_of_pos_left _ hoffset) h)

/-- The least value of a slot is exact as long as it is a word. -/
theorem toInt_valueAt {g : Layout} {i : Nat} (h : g.start i < 2 ^ 63) :
    (g.valueAt i).toInt = g.start i := by
  have hshift := bucketAt_add_lt h
  have hfirst := (g.isPlace_bucketAt_offsetAt i).1
  have hhalf := g.halfCount_le
  rw [firstCount_eq] at hfirst
  have hoffset : (Int64.ofNat (g.offsetAt i)).toInt = g.offsetAt i :=
    Int64.toInt_ofNat_of_lt (by omega)
  -- Offset times width is where the slot begins, which is a word.
  have hexact : ((g.offsetAt i : Int)) * 2 ^ (g.bucketAt i + g.unitMagnitude) = g.start i := by
    rw [start, width]
    push_cast
    rfl
  rw [valueAt_eq, if_neg (by omega), Word.toInt_shiftUp _ (by omega) (by rw [hoffset]; omega)
    (by rw [hoffset]; omega), hoffset, hexact]

/-- Every slot begins at a word. -/
theorem start_lt_of_lt_slotCount {g : Layout} {i : Nat} (h : i < g.slotCount) :
    g.start i < 2 ^ 63 :=
  Nat.lt_of_lt_of_le ((g.lt_slotCount_iff i).1 h) g.bound_le

/-- The slot of a slot's least value is that slot. -/
theorem slot?_valueAt_self {g : Layout} {i : Nat} (h : i < g.slotCount) :
    g.slot? (g.valueAt i) = some i := by
  have hvalue := toInt_valueAt (start_lt_of_lt_slotCount h)
  have hnext := g.start_succ i
  have hwidth := g.width_pos i
  rw [slot?_eq_some_iff, hvalue]
  exact ⟨h, by omega, by omega⟩

/-! ### The values that share a slot -/

/-- The least value in the slot of a word, on the grid. Nothing overflows,
because it is no greater than the word. -/
theorem toInt_slotFloor_of_nonneg (g : Layout) {v : Int64} (h : 0 ≤ v.toInt) :
    (g.slotFloor v).toInt = g.start (g.number v.toInt.toNat) := by
  have hshift := g.bucketOf_add_le v
  have hhalf := g.start_number_le v.toInt.toNat
  have hword := v.toInt_lt
  have hoffset := toInt_offsetIn_of_nonneg g h
  have hexact : (g.offsetIn (g.bucketOf v) v).toInt * 2 ^ (g.bucketOf v + g.unitMagnitude)
      = g.start (g.number v.toInt.toNat) := by
    rw [hoffset, bucketOf_of_nonneg g h, start_number]
    push_cast
    rfl
  rw [slotFloor, Word.toInt_shiftUp _ (by omega) (by rw [hexact]; omega)
    (by rw [hexact]; omega), hexact]

/-- What has a slot is not negative. -/
theorem nonneg_of_slot? {g : Layout} {v : Int64} {i : Nat} (h : g.slot? v = some i) :
    0 ≤ v.toInt := by
  have := ((g.slot?_eq_some_iff v i).1 h).2.1
  omega

/-- A slot that is found is the one of the exact grid. -/
theorem number_of_slot? {g : Layout} {v : Int64} {i : Nat} (h : g.slot? v = some i) :
    g.number v.toInt.toNat = i := by
  have hrange := (g.slot?_eq_some_iff v i).1 h
  have hnonneg := nonneg_of_slot? h
  rw [number_eq_iff]
  omega

/-- A value is rounded down to where its slot begins. -/
theorem toInt_slotFloor {g : Layout} {v : Int64} {i : Nat} (h : g.slot? v = some i) :
    (g.slotFloor v).toInt = g.start i := by
  rw [toInt_slotFloor_of_nonneg g (nonneg_of_slot? h), number_of_slot? h]

/-- The value at a slot number is the one that all values of the slot are rounded down to. -/
theorem valueAt_of_slot? {g : Layout} {v : Int64} {i : Nat} (h : g.slot? v = some i) :
    g.valueAt i = g.slotFloor v := by
  rw [← Int64.toInt_inj, toInt_slotFloor h]
  exact toInt_valueAt (start_lt_of_lt_slotCount (slot?_lt_slotCount h))

/-- The least value of a slot is its own floor. -/
theorem slotFloor_valueAt {g : Layout} {i : Nat} (h : i < g.slotCount) :
    g.slotFloor (g.valueAt i) = g.valueAt i :=
  (valueAt_of_slot? (slot?_valueAt_self h)).symm

/-- Slots are in the order of their values. -/
theorem slot?_mono {g : Layout} {v w : Int64} {i j : Nat} (hv : g.slot? v = some i)
    (hw : g.slot? w = some j) (hle : v ≤ w) : i ≤ j := by
  obtain ⟨-, hlow, -⟩ := (g.slot?_eq_some_iff v i).1 hv
  obtain ⟨-, -, hhigh⟩ := (g.slot?_eq_some_iff w j).1 hw
  rw [Int64.le_iff_toInt_le] at hle
  have hstart : g.start i < g.start (j + 1) := by omega
  exact Nat.lt_succ_iff.1 (g.start_strictMono.lt_iff_lt.1 hstart)

/-- The bucket of a value is that of its slot. -/
theorem bucketOf_of_slot? {g : Layout} {v : Int64} {i : Nat} (h : g.slot? v = some i) :
    g.bucketOf v = g.bucketAt i := by
  have hbucket := (bucketAt_offsetAt_of_isPlace (g.isPlace_bucketFor v.toInt.toNat)).1
  rw [← number, number_of_slot? h] at hbucket
  rw [bucketOf_of_nonneg g (nonneg_of_slot? h), hbucket]

/-- The greatest value of a slot is the same for all values that share it. -/
theorem slotCeiling_congr {g : Layout} {v w : Int64} {i : Nat} (hv : g.slot? v = some i)
    (hw : g.slot? w = some i) : g.slotCeiling v = g.slotCeiling w := by
  rw [slotCeiling, slotCeiling, slotEnd, slotEnd, slotWidth, slotWidth,
    ← valueAt_of_slot? hv, ← valueAt_of_slot? hw, bucketOf_of_slot? hv, bucketOf_of_slot? hw]

/-! ### The round trip -/

/-- Slot numbers and the least values of slots are inverse to each other,
from the first slot to the last:

1. the words with a slot are those from 0 up to `bound`, and the slot is
   one of the layout;
2. the highest value of the layout is below `bound`;
3. the least value of a slot is computed without overflow, as a shift by
   fewer than 63 that loses no bit, and its slot is that slot again;
4. the least value of a word's slot, by number, is the one that the word
   itself leads to. -/
theorem slot?_roundTrip (g : Layout) :
    (∀ v : Int64, (g.slot? v).isSome ↔ 0 ≤ v.toInt ∧ v.toInt < g.bound) ∧
    (∀ (v : Int64) (i : Nat), g.slot? v = some i → i < g.slotCount) ∧
    g.highest.toInt < g.bound ∧
    (∀ i < g.slotCount, g.bucketAt i + g.unitMagnitude < 63 ∧
      (g.valueAt i).toInt = g.offsetAt i * 2 ^ (g.bucketAt i + g.unitMagnitude) ∧
      g.slot? (g.valueAt i) = some i) ∧
    ∀ (v : Int64) (i : Nat), g.slot? v = some i → g.valueAt i = g.slotFloor v := by
  refine ⟨g.isSome_slot?_iff, ?_, ?_, ?_, ?_⟩
  · intro v i h
    exact slot?_lt_slotCount h
  · have := g.highest_lt_bound
    omega
  · intro i hi
    have hword := start_lt_of_lt_slotCount hi
    refine ⟨bucketAt_add_lt hword, ?_, slot?_valueAt_self hi⟩
    rw [toInt_valueAt hword, start, width]
    push_cast
    rfl
  · intro v i h
    exact valueAt_of_slot? h

/-- Values up to 255 at two figures fill the first bucket, and each has a slot
of its own. -/
example : (Layout.make 1 255 2).toOption.map
    (fun g => (g.slotCount, g.bound, g.slot? 255, g.slot? 256))
      = some (256, 256, some 255, none) := by
  decide

end LogBuckets.Layout
