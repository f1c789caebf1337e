import LogBuckets.Layout.Basic
import LogBuckets.Word

/-!
# `LogBuckets.Layout.Slots`: from values to slots and back

Every value belongs to a bucket, and inside the bucket to a slot. The
functions here take any 64-bit value, also one that no slot of the
layout holds: buckets go on past the last one, and a negative value is
read as the bit pattern that it is.

* `bucketOf`, `offsetIn`: the bucket of a value, and its place counted in
  slot widths of that bucket from the value 0;
* `position`, `slot?`: the number of a slot, counted over all buckets;
* `valueAt`: the least value of a slot, by its number;
* `slotFloor`, `slotWidth`, `slotEnd`, `slotCeiling`, `slotMiddle`: the
  values that a value shares its slot with.
-/

set_option autoImplicit false

namespace LogBuckets.Layout

/-- The bucket of a value. The first bucket takes the values of up to
`unitMagnitude + halfMagnitude + 1` binary digits and every later bucket
those of one digit more. Negative values have 64 digits. -/
def bucketOf (g : Layout) (v : Int64) : Nat :=
  bitLength v.toUInt64.toNat - (g.unitMagnitude + g.halfMagnitude + 1)

/-- How many slots as wide as those of `bucket` lie below `v`. -/
def offsetIn (g : Layout) (bucket : Nat) (v : Int64) : Int64 :=
  Word.shiftDown v (bucket + g.unitMagnitude)

/-- The number of the slot at `offset` in `bucket`. All buckets but the
first start half way up, so slot numbers run on from bucket to bucket. -/
def position (g : Layout) (bucket : Nat) (offset : Int64) : Int64 :=
  Int64.ofNat ((bucket + 1) <<< g.halfMagnitude) + (offset - Int64.ofNat g.halfCount)

/-- The number of the slot that holds `v`, if one does. -/
def slot? (g : Layout) (v : Int64) : Option Nat :=
  if v < 0 then none
  else
    let bucket := g.bucketOf v
    let index := g.position bucket (g.offsetIn bucket v)
    if index < 0 then none
    else if index.toNatClampNeg < g.slotCount then some index.toNatClampNeg
    else none

/-- The least value of slot number `index`. Numbers past the last slot
are answered as if buckets went on: with the bits that fit a word, and
with the greatest word once a slot is as wide as the words themselves. -/
def valueAt (g : Layout) (index : Nat) : Int64 :=
  let row := index >>> g.halfMagnitude
  let column := index % g.halfCount
  let bucket := row - 1
  let offset := if row = 0 then column else column + g.halfCount
  let shift := bucket + g.unitMagnitude
  if 63 ≤ shift then Int64.maxValue
  else Word.shiftUp (Int64.ofNat offset) shift

/-- How many values share the slot of `v`. -/
def slotWidth (g : Layout) (v : Int64) : Int64 :=
  Word.shiftUp 1 (g.unitMagnitude + g.bucketOf v)

/-- The least value in the slot of `v`. -/
def slotFloor (g : Layout) (v : Int64) : Int64 :=
  let bucket := g.bucketOf v
  Word.shiftUp (g.offsetIn bucket v) (bucket + g.unitMagnitude)

/-- The least value past the slot of `v`, or the greatest word if the
slot reaches the end of the words. -/
def slotEnd (g : Layout) (v : Int64) : Int64 :=
  Word.addCapped (g.slotFloor v) (g.slotWidth v)

/-- The value before `slotEnd`. -/
def slotCeiling (g : Layout) (v : Int64) : Int64 :=
  g.slotEnd v - 1

/-- The value half a width into the slot of `v`. -/
def slotMiddle (g : Layout) (v : Int64) : Int64 :=
  Word.addCapped (g.slotFloor v) (Word.shiftDown (g.slotWidth v) 1)

/-- Whether two values share their slot. -/
def sameSlot (g : Layout) (v w : Int64) : Bool :=
  g.slotFloor v == g.slotFloor w

end LogBuckets.Layout
