import LogBuckets.Bits
import LogBuckets.Layout.Buckets
import LogBuckets.Layout.Error

/-!
# `LogBuckets.Layout.Basic`: laying a range of values out in slots

A layout cuts the values from 0 up into *buckets* that end at powers of
two, and each bucket into equal *slots*. The first bucket has
`2 ^ (halfMagnitude + 1)` slots of width `2 ^ unitMagnitude`. Every later
bucket doubles the width of its slots and needs only
`2 ^ halfMagnitude` of them, because its lower half is covered more
finely by the buckets before it.

* `Layout` holds the parameters, the three magnitudes that follow from
  them, and the proofs that the parameters are fit and the magnitudes
  are theirs. There is no other kind of layout.
* `Layout.make` checks the parameters in a fixed order and names the
  first that does not fit.
* `halfCount`, `firstCount` and `slotCount` are the sizes that follow, and
  `bound` is where the last bucket ends.
-/

set_option autoImplicit false

namespace LogBuckets

/-- Half as many slots as the first bucket has, as a power of two:
enough of them, doubled, to tell the whole numbers up to
`2 * 10 ^ figures` apart. -/
def halfMagnitudeOf (figures : Nat) : Nat :=
  ceilLog2 (2 * Nat.pow 10 figures) - 1

/-- How a range of values is cut into slots. -/
structure Layout where
  /-- The least value that has to be told from zero. -/
  lowest : Int64
  /-- The greatest value that has to be kept. -/
  highest : Int64
  /-- How many significant figures are kept. -/
  figures : Nat
  /-- The slots of the first bucket are `2 ^ unitMagnitude` wide. -/
  unitMagnitude : Nat
  /-- Every bucket but the first has `2 ^ halfMagnitude` slots. -/
  halfMagnitude : Nat
  /-- The number of buckets. -/
  bucketCount : Nat
  one_le_lowest : 1 ≤ lowest.toInt
  one_le_figures : 1 ≤ figures
  figures_le_five : figures ≤ 5
  twice_lowest_le_highest : 2 * lowest.toInt ≤ highest.toInt
  unitMagnitude_eq : unitMagnitude = lowest.toInt.toNat.log2
  halfMagnitude_eq : halfMagnitude = halfMagnitudeOf figures
  magnitude_le : unitMagnitude + halfMagnitude ≤ 61
  bucketCount_eq : bucketCount = bucketsNeeded unitMagnitude halfMagnitude highest

namespace Layout

/-- The layout of the values up to `highest` at a resolution of `lowest`
and with so many significant figures, or the first thing that speaks
against it. -/
def make (lowest highest : Int64) (figures : Nat) : Except LayoutError Layout :=
  if low : lowest.toInt < 1 then .error (.lowestTooSmall lowest)
  else if few : figures < 1 ∨ 5 < figures then .error (.figuresOutOfRange figures)
  else if close : highest.toInt < 2 * lowest.toInt then
    .error (.highestTooSmall lowest highest)
  else
    let unit := lowest.toInt.toNat.log2
    let half := halfMagnitudeOf figures
    if wide : 61 < unit + half then .error (.magnitudeTooLarge unit half)
    else .ok {
      lowest, highest, figures
      unitMagnitude := unit
      halfMagnitude := half
      bucketCount := bucketsNeeded unit half highest
      one_le_lowest := by omega
      one_le_figures := by omega
      figures_le_five := by omega
      twice_lowest_le_highest := by omega
      unitMagnitude_eq := rfl
      halfMagnitude_eq := rfl
      magnitude_le := by omega
      bucketCount_eq := rfl }

/-! ### Sizes -/

/-- The number of slots in every bucket but the first. -/
def halfCount (g : Layout) : Nat :=
  1 <<< g.halfMagnitude

/-- The number of slots in the first bucket. -/
def firstCount (g : Layout) : Nat :=
  1 <<< (g.halfMagnitude + 1)

/-- The number of slots in all buckets. -/
def slotCount (g : Layout) : Nat :=
  (g.bucketCount + 1) * g.halfCount

/-- The bits of a value of the first bucket that tell its slot. -/
def firstMask (g : Layout) : Nat :=
  (g.firstCount - 1) <<< g.unitMagnitude

/-- The end of the last slot, the least value that no slot holds. -/
def bound (g : Layout) : Nat :=
  1 <<< (g.unitMagnitude + g.halfMagnitude + g.bucketCount)

/-- Every bucket has slots. -/
theorem halfCount_pos (g : Layout) : 0 < g.halfCount := by
  rw [halfCount, Nat.one_shiftLeft]
  exact Nat.two_pow_pos _

/-- So every layout has a slot. -/
theorem slotCount_pos (g : Layout) : 0 < g.slotCount :=
  Nat.mul_pos (Nat.succ_pos _) g.halfCount_pos

end Layout

end LogBuckets
