import LogBuckets.Layout.Slots
import LogBuckets.Tally

/-!
# `LogBuckets.Histogram.Basic`: counts in the slots of a layout

A histogram keeps one count per slot, the sum of all counts, and the
least and the greatest value that was recorded. Values are recorded
exactly or not at all: a value that no slot holds changes nothing.

The counts may be stored with a *rotation*: slot number `i` then sits
`rotation` cells further down, around the end. `cell` is the only place
that knows. Everything else goes through `countAt` and `add`.

The lengths that make every access safe are fields of the structure, so
an access outside the counts cannot be written.
-/

set_option autoImplicit false

namespace LogBuckets

/-- Counts of recorded values, by slot. -/
structure Histogram where
  layout : Layout
  /-- The counts, by cell. -/
  counts : Array Nat
  /-- The slot number whose count is in the first cell. -/
  rotation : Nat
  /-- The capped sum of all counts that were recorded. -/
  total : Nat
  /-- The least value recorded other than 0, and the greatest word as
  long as there is none. -/
  least : Int64
  /-- The greatest value recorded, and 0 as long as there is none. -/
  greatest : Int64
  size_counts : counts.size = layout.slotCount
  rotation_lt : rotation < layout.slotCount

namespace Histogram

/-- The histogram of a layout that holds nothing, its counts rotated by
`offset` slots. Offsets count around: one more than a full turn is one. -/
def empty (layout : Layout) (offset : Nat) : Histogram where
  layout
  counts := Array.replicate layout.slotCount 0
  rotation := offset % layout.slotCount
  total := 0
  least := Int64.maxValue
  greatest := 0
  size_counts := Array.size_replicate
  rotation_lt := Nat.mod_lt _ layout.slotCount_pos

/-! ### Where a slot's count is -/

/-- The number of slots. -/
def slotCount (h : Histogram) : Nat :=
  h.counts.size

/-- There is one cell for each slot of the layout. -/
theorem slotCount_eq (h : Histogram) : h.slotCount = h.layout.slotCount :=
  h.size_counts

/-- The cell of slot number `i`. -/
def cell (h : Histogram) (i : Nat) : Nat :=
  if i < h.rotation then i + h.counts.size - h.rotation else i - h.rotation

/-- Going around the end leads back among the cells. -/
theorem cell_lt_size (h : Histogram) {i : Nat} (lt : i < h.counts.size) :
    h.cell i < h.counts.size := by
  have := h.rotation_lt
  have := h.size_counts
  unfold cell
  split <;> omega

/-- The count of slot number `i`, and 0 past the last slot. -/
def countAt (h : Histogram) (i : Nat) : Nat :=
  if lt : i < h.counts.size then
    have := h.cell_lt_size lt
    h.counts[h.cell i]
  else 0

/-- The count of the slot that holds `v`, and 0 if none does. -/
def countOf (h : Histogram) (v : Int64) : Nat :=
  match h.layout.slot? v with
  | some i => h.countAt i
  | none => 0

/-! ### Recording -/

/-- Counts `n` more occurrences of the value `v` in slot number `i`. -/
def add (h : Histogram) (i : Nat) (v : Int64) (n : Nat) : Histogram :=
  { h with
    counts := h.counts.modify (h.cell i) (Tally.add · n)
    total := Tally.add h.total n
    least := if v ≠ 0 ∧ v < h.least then v else h.least
    greatest := if h.greatest < v then v else h.greatest
    size_counts := by rw [Array.size_modify]; exact h.size_counts }

/-- Records `n` occurrences of the value `v`. The answer tells whether a
slot holds `v`; if none does, nothing changes. Nothing changes either
when `n` is 0, so the least and the greatest value are values that were
counted. -/
def record (h : Histogram) (v : Int64) (n : Nat) : Bool × Histogram :=
  match h.layout.slot? v with
  | none => (false, h)
  | some i => if n = 0 then (true, h) else (true, h.add i v n)

/-- Forgets everything that was recorded. Layout and rotation stay. -/
def reset (h : Histogram) : Histogram :=
  { h with
    counts := Array.replicate h.layout.slotCount 0
    total := 0
    least := Int64.maxValue
    greatest := 0
    size_counts := Array.size_replicate }

/-! ### The ends of what was recorded -/

/-- The least value recorded, as the least value of its slot. The
greatest word when nothing was recorded. -/
def minimum (h : Histogram) : Int64 :=
  if 0 < h.countAt 0 then 0
  else if h.least = Int64.maxValue then Int64.maxValue
  else h.layout.slotFloor h.least

/-- The greatest value recorded, as the greatest value of its slot. 0
when nothing was recorded. -/
def maximum (h : Histogram) : Int64 :=
  if h.greatest = 0 then 0 else h.layout.slotCeiling h.greatest

end Histogram

end LogBuckets
