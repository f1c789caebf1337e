import LogBuckets.Binary64
import LogBuckets.Cursor.Reading
import LogBuckets.Histogram.Basic

/-!
# `LogBuckets.Cursor.Walk`: going up through the slots

All cursors walk through the slots in the same way, from the first one
up; they differ in where they stop to report. A `Walk` is a reading
together with the slot that comes next. It does not hold the histogram,
which every step is given.

* `enter` steps on to the next slot and `leave` steps off the last one.
  Leaving keeps the reading, so the last slot stays in view.
* `pending` tells whether counts are still ahead.
* `toNextSlot`, `toRecorded`, `toShare`, `toLevel` are the four ways to
  move to the next report. The first component of the answer tells
  whether there is one; the walk may have moved even if there is none.

The measure of every loop is the number of slots ahead,
`h.slotCount - w.next`, which `enter` lowers.
-/

set_option autoImplicit false

namespace LogBuckets

/-- A place among the slots of a histogram, and what is seen there. -/
structure Walk where
  /-- The number of the slot that comes next: one more than the slot in
  view, and past the number of slots once the last one has been left. -/
  next : Nat := 0
  reading : Reading := {}

/-- How much of `total` is in `part`, in percent; 0 of nothing. -/
def share (part total : Nat) : Float :=
  if total = 0 then 0.0 else 100.0 * Binary64.ofCount part / Binary64.ofCount total

namespace Walk

/-- Whether counts are still ahead. -/
def pending (h : Histogram) (w : Walk) : Bool :=
  w.reading.cumulative < h.total

/-- Steps on to the next slot. -/
def enter (h : Histogram) (w : Walk) : Walk :=
  let count := h.countAt w.next
  let value := h.layout.valueAt w.next
  let cumulative := Tally.add w.reading.cumulative count
  { next := w.next + 1
    reading :=
      { w.reading with
        count
        value
        cumulative
        floor := h.layout.slotFloor value
        ceiling := h.layout.slotCeiling value
        middle := h.layout.slotMiddle value
        percentile := share cumulative h.total } }

/-- One slot further is what makes the loops end. -/
@[simp] theorem next_enter (h : Histogram) (w : Walk) : (w.enter h).next = w.next + 1 :=
  rfl

/-- Steps off the last slot, which stays in view. -/
def leave (h : Histogram) (w : Walk) : Walk :=
  { w with next := h.slotCount + 1 }

/-- Starts a report that goes up to `value`. -/
def report (w : Walk) (value : Int64) : Walk :=
  { w with reading := w.reading.report value }

/-- Starts a report on the slot in view alone. -/
def reportSlot (w : Walk) : Walk :=
  { w with reading := { w.reading.report w.reading.value with added := w.reading.count } }

/-! ### To the next slot -/

/-- To the next slot, whatever it holds. -/
def toNextSlot (h : Histogram) (w : Walk) : Bool × Walk :=
  if w.next < h.slotCount then (true, (w.enter h).reportSlot) else (false, w.leave h)

/-! ### To the next slot that holds counts -/

/-- To the next slot that holds counts, as long as counts are ahead. -/
def toRecorded (h : Histogram) (w : Walk) : Bool × Walk :=
  if w.pending h then
    if w.next < h.slotCount then
      let w' := w.enter h
      if w'.reading.count = 0 then w'.toRecorded h else (true, w'.reportSlot)
    else (false, w.leave h)
  else (false, w)
termination_by h.slotCount - w.next

/-! ### To the next slot that reaches a percentile level -/

/-- Whether the slot in view holds counts and the counts up to it make
at least `level` percent of the total. -/
def reachesShare (h : Histogram) (level : Float) (w : Walk) : Bool :=
  0 < w.next && w.reading.count != 0 && level ≤ share w.reading.cumulative h.total

/-- To the first slot from the one in view on that reaches `level`, as
long as counts are ahead. -/
def seekShare (h : Histogram) (level : Float) (w : Walk) : Bool × Walk :=
  if w.reachesShare h level then (true, w)
  else if w.pending h then
    if w.next < h.slotCount then (w.enter h).seekShare h level else (false, w.leave h)
  else (false, w)
termination_by h.slotCount - w.next

/-- To the slot at which `level` percent are reached. The slot in view is
a candidate itself, but only while counts are ahead. -/
def toShare (h : Histogram) (level : Float) (w : Walk) : Bool × Walk :=
  if w.pending h then
    let (found, w') := w.seekShare h level
    if found then
      let w'' := w'.report w'.reading.ceiling
      (true, { w'' with reading := { w''.reading with percentile := level } })
    else (false, w')
  else (false, w)

/-! ### To a value level -/

/-- Whether the slot that comes next starts above `value`. The slot past
the last one counts, for the walk may rest on the last one; nothing
comes after that. -/
def nextExceeds (h : Histogram) (value : Int64) (w : Walk) : Bool :=
  w.next ≤ h.slotCount && value < h.layout.valueAt w.next

/-- Enters slots until the one in view starts at `bound` or above, or
there are no more. -/
def climb (h : Histogram) (bound : Int64) (w : Walk) : Walk :=
  if w.reading.value < bound then
    if w.next < h.slotCount then
      let w' := w.enter h
      climb h bound
        { w' with reading := { w'.reading with added := w'.reading.added + w'.reading.count } }
    else w.leave h
  else w
termination_by h.slotCount - w.next

/-- To the slot of the value `level`. Once no counts are ahead, only the
levels inside the slot in view are left to report. -/
def toLevel (h : Histogram) (level : Int64) (w : Walk) : Bool × Walk :=
  let bound := h.layout.slotFloor level
  let w' := { w with reading := { w.reading with added := 0 } }
  if w'.pending h || w'.nextExceeds h bound then (true, (w'.climb h bound).report level)
  else (false, w')

end Walk

end LogBuckets
