import LogBuckets.Proofs.Histogram.Cells
import LogBuckets.Proofs.Layout.Slots
import Mathlib.Data.Set.Function

/-!
# `LogBuckets.Proofs.Histogram.Access`: counts are only looked up where there are any

`Histogram.countAt` asks whether a slot is one of the histogram, and
`Histogram.add` leaves the counts alone if it is not. Neither of them shows an
access that goes wrong. Here are the same operations with an answer for that: they
give nothing as soon as a cell is worked out with a difference below 0 or a sum
beyond 64 digits, or is not among the counts.

* `cell_bijOn`: the rotation turns the slots around the cells, one to one and onto;
* `fetch?_eq`: so every slot of the layout has its count looked up;
* `countAt?_eq`, `record?_eq`, `minimum?_eq`: and every lookup of these three is for
  such a slot. A value is recorded in the slot that the layout has for it, the
  least value is looked for in slot 0, and a slot number from elsewhere is compared
  with the number of slots first.
-/

set_option autoImplicit false

namespace LogBuckets.Histogram

/-! ### Cells -/

/-- The rotation takes the slots to the cells one to one and leaves none out. -/
theorem cell_bijOn (h : Histogram) :
    Set.BijOn h.cell (Set.Iio h.layout.slotCount) (Set.Iio h.layout.slotCount) := by
  rw [← h.size_counts]
  refine ⟨fun _ hi => h.cell_lt_size hi, fun _ hi _ hj heq => h.cell_inj hi hj heq, ?_⟩
  intro c hc
  obtain ⟨i, hi, hcell⟩ := h.exists_cell hc
  exact ⟨i, hi, hcell⟩

/-- The cell of slot number `i`, if no difference on the way is below 0 and no sum has
more than 64 digits. -/
def cell? (h : Histogram) (i : Nat) : Option Nat :=
  if h.rotation ≤ i then some (i - h.rotation)
  else if i + h.counts.size < 2 ^ 64 ∧ h.rotation ≤ i + h.counts.size then
    some (i + h.counts.size - h.rotation)
  else none

/-- There are so few slots that no sum with their number has more than 64 digits. -/
theorem cell?_eq {h : Histogram} {i : Nat} (hi : i < h.layout.slotCount) :
    h.cell? i = some (h.cell i) := by
  have hrotation := h.rotation_lt
  have hfew : h.layout.slotCount ≤ 64 * 2 ^ 17 := by
    have hbuckets := h.layout.magnitudes_le
    exact Nat.mul_le_mul (by omega) h.layout.halfCount_le
  have hsum : i + h.counts.size < 2 ^ 64 := by
    calc i + h.counts.size < h.layout.slotCount + h.layout.slotCount := by
          rw [h.size_counts]
          exact Nat.add_lt_add_right hi _
      _ < 2 ^ 64 := by omega
  rw [← h.size_counts] at hrotation
  unfold cell? cell
  -- The place is not below the rotation, or one turn is added to it first.
  by_cases hle : h.rotation ≤ i
  · rw [if_pos hle, if_neg (Nat.not_lt.2 hle)]
  · rw [if_neg hle, if_pos (Nat.not_le.1 hle), if_pos]
    exact ⟨hsum, by omega⟩

/-! ### Counts -/

/-- The count in the cell of slot number `i`, if there is such a cell. -/
def fetch? (h : Histogram) (i : Nat) : Option Nat :=
  (h.cell? i).bind fun cell => h.counts[cell]?

/-- Every slot has a cell, also when the counts are rotated. -/
theorem fetch?_eq {h : Histogram} {i : Nat} (hi : i < h.layout.slotCount) :
    h.fetch? i = some (h.countAt i) := by
  have hsize : i < h.counts.size := by rwa [h.size_counts]
  rw [fetch?, cell?_eq hi, Option.bind_some, getElem?_cell h hsize]

/-- `countAt` with a lookup that may go wrong. -/
def countAt? (h : Histogram) (i : Nat) : Option Nat :=
  if i < h.counts.size then h.fetch? i else some 0

/-- No lookup of a count goes wrong, also for numbers past the last slot, which are not
looked up. -/
theorem countAt?_eq (h : Histogram) (i : Nat) : h.countAt? i = some (h.countAt i) := by
  by_cases hi : i < h.counts.size
  · rw [countAt?, if_pos hi, fetch?_eq (by rwa [← h.size_counts])]
  · rw [countAt?, if_neg hi, countAt_of_le h (by omega)]

/-- `record` with a lookup that may go wrong. The new count goes where the old one
was found. -/
def record? (h : Histogram) (v : Int64) (n : Nat) : Option (Bool × Histogram) :=
  match h.layout.slot? v with
  | none => some (false, h)
  | some i => if n = 0 then some (true, h) else (h.fetch? i).map fun _ => (true, h.add i v n)

/-- Recording writes to the cell of a slot, and nowhere if the value has none. -/
theorem record?_eq (h : Histogram) (v : Int64) (n : Nat) :
    h.record? v n = some (h.record v n) := by
  unfold record? record
  cases hslot : h.layout.slot? v with
  | none => rfl
  | some i =>
      have hi : i < h.layout.slotCount := Layout.slot?_lt_slotCount hslot
      by_cases hn : n = 0
      · simp [hn]
      · simp [hn, fetch?_eq hi]

/-- `minimum` with a lookup that may go wrong. -/
def minimum? (h : Histogram) : Option Int64 :=
  (h.countAt? 0).map fun count =>
    if 0 < count then 0
    else if h.least = Int64.maxValue then Int64.maxValue
    else h.layout.slotFloor h.least

/-- The minimum looks at the first slot alone, and every layout has one. -/
theorem minimum?_eq (h : Histogram) : h.minimum? = some h.minimum := by
  rw [minimum?, countAt?_eq]
  rfl

end LogBuckets.Histogram
