/-!
# `LogBuckets.Cursor.Reading`: what a cursor shows

A cursor rests on a slot, or has not started. A `Reading` is what it
shows there. The first seven fields describe the slot and everything
below it; the others describe the report that brought the cursor there.
-/

set_option autoImplicit false

namespace LogBuckets

/-- What a cursor shows. All fields are 0 before the first slot. -/
structure Reading where
  /-- The count of the slot. -/
  count : Nat := 0
  /-- The capped sum of the counts up to and including the slot. -/
  cumulative : Nat := 0
  /-- The least value of the slot, by the slot's number. -/
  value : Int64 := 0
  /-- The least value of the slot, by the values that share it. -/
  floor : Int64 := 0
  /-- The greatest value of the slot. -/
  ceiling : Int64 := 0
  /-- The middle of the slot. -/
  middle : Int64 := 0
  /-- The percentile level of the report if it has one, and otherwise
  the share of the total that `cumulative` makes, in percent. -/
  percentile : Float := 0.0
  /-- The value that the report before this one went up to. -/
  reachedBefore : Int64 := 0
  /-- The value that this report goes up to. -/
  reached : Int64 := 0
  /-- The counts of the slots that were entered for this report. -/
  added : Nat := 0

/-- A new report that goes up to `value`. -/
def Reading.report (r : Reading) (value : Int64) : Reading :=
  { r with reachedBefore := r.reached, reached := value }

end LogBuckets
