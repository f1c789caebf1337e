import LogBuckets.Histogram.Run

/-!
# `LogBuckets.Proofs.Histogram.Cells`: counts read back through the rotation

`Histogram.cell` turns slot numbers around the array of counts. It moves
no two slots to one cell (`cell_inj`) and leaves no cell out
(`exists_cell`), so what is written for a slot is read for that slot and
for no other:

* `countAt_empty`, `countAt_add`, `countAt_reset`: what each operation
  does to the counts, seen slot by slot. Nothing after this file has to
  know that counts are in cells;
* `eq_of_countAt_eq`: two histograms of one layout and one rotation that
  show the same are the same.
-/

set_option autoImplicit false

namespace LogBuckets.Histogram

/-! ### The rotation is one to one -/

/-- Rotating does not put two slots into one cell. -/
theorem cell_inj (h : Histogram) {i j : Nat} (hi : i < h.counts.size)
    (hj : j < h.counts.size) (heq : h.cell i = h.cell j) : i = j := by
  have hrotation := h.rotation_lt
  have hsize := h.size_counts
  unfold cell at heq
  split at heq
  · split at heq <;> omega
  · split at heq <;> omega

/-- Every cell has a slot: cells count up from the rotation, and start again
at slot 0 once the slots are used up. -/
theorem exists_cell (h : Histogram) {c : Nat} (hc : c < h.counts.size) :
    ∃ i < h.counts.size, h.cell i = c := by
  have hrotation := h.rotation_lt
  have hsize := h.size_counts
  by_cases hwrap : c + h.rotation < h.counts.size
  · refine ⟨c + h.rotation, hwrap, ?_⟩
    rw [cell, if_neg (by omega), Nat.add_sub_cancel]
  · refine ⟨c + h.rotation - h.counts.size, by omega, ?_⟩
    rw [cell, if_pos (by omega)]
    omega

/-- The count of a slot is what its cell holds. -/
theorem getElem?_cell (h : Histogram) {i : Nat} (hi : i < h.counts.size) :
    h.counts[h.cell i]? = some (h.countAt i) := by
  have hcell := h.cell_lt_size hi
  rw [countAt, dif_pos hi, Array.getElem?_eq_getElem hcell]

/-- Numbers past the last slot have no counts. -/
theorem countAt_of_le (h : Histogram) {i : Nat} (hi : h.counts.size ≤ i) :
    h.countAt i = 0 := by
  rw [countAt, dif_neg (by omega)]

/-- Only slots of the layout hold counts. -/
theorem lt_slotCount_of_countAt_ne {h : Histogram} {i : Nat} (hi : h.countAt i ≠ 0) :
    i < h.slotCount :=
  Nat.lt_of_not_le fun hpast => hi (h.countAt_of_le hpast)

/-! ### Counts after an operation -/

/-- If all cells are 0, so are the counts of all slots, however they are rotated. -/
theorem countAt_of_counts_eq_replicate (h : Histogram) {n : Nat}
    (hcounts : h.counts = Array.replicate n 0) (i : Nat) : h.countAt i = 0 := by
  by_cases hi : i < h.counts.size
  · have hget := h.getElem?_cell hi
    have hcell := h.cell_lt_size hi
    rw [hcounts, Array.size_replicate] at hcell
    rw [hcounts, Array.getElem?_replicate, if_pos hcell] at hget
    exact (Option.some.inj hget).symm
  · exact h.countAt_of_le (by omega)

/-- An empty histogram counts nothing. -/
@[simp] theorem countAt_empty (layout : Layout) (offset i : Nat) :
    (empty layout offset).countAt i = 0 :=
  countAt_of_counts_eq_replicate _ rfl i

/-- A histogram that was reset counts nothing. -/
@[simp] theorem countAt_reset (h : Histogram) (i : Nat) : h.reset.countAt i = 0 :=
  countAt_of_counts_eq_replicate _ rfl i

/-- Counting makes no cells. -/
theorem size_counts_add (h : Histogram) (i : Nat) (v : Int64) (n : Nat) :
    (h.add i v n).counts.size = h.counts.size :=
  Array.size_modify

/-- Counting moves no slot to another cell. -/
theorem cell_add (h : Histogram) (i : Nat) (v : Int64) (n j : Nat) :
    (h.add i v n).cell j = h.cell j := by
  rw [cell, size_counts_add]
  rfl

/-- Recording in one slot is seen in that slot alone. -/
theorem countAt_add (h : Histogram) {i : Nat} (hi : i < h.layout.slotCount) (v : Int64)
    (n j : Nat) :
    (h.add i v n).countAt j = if j = i then Tally.add (h.countAt j) n else h.countAt j := by
  have hi' : i < h.counts.size := by rwa [h.size_counts]
  by_cases hj : j < h.counts.size
  · -- Slot `j` is read from its own cell, and that cell was written to only if
    -- it is the cell of slot `i`.
    have hnew := (h.add i v n).getElem?_cell (by rwa [size_counts_add])
    have hmodify : (h.add i v n).counts[h.cell j]?
        = if h.cell i = h.cell j then (h.counts[h.cell j]?).map (Tally.add · n)
          else h.counts[h.cell j]? :=
      Array.getElem?_modify
    rw [cell_add, hmodify, h.getElem?_cell hj] at hnew
    by_cases heq : j = i
    · subst heq
      rw [if_pos rfl] at hnew ⊢
      exact (Option.some.inj hnew).symm
    · have hcell : h.cell i ≠ h.cell j := fun hc => heq (h.cell_inj hi' hj hc).symm
      rw [if_neg hcell] at hnew
      rw [if_neg heq]
      exact (Option.some.inj hnew).symm
  · -- Past the last slot nothing is read, before or after.
    rw [countAt_of_le _ (by rw [size_counts_add]; omega), if_neg (by omega),
      countAt_of_le _ (by omega)]

/-! ### What shows is all there is -/

/-- Histograms with the same layout and rotation that show the same counts,
total, least and greatest value are equal: there is no cell behind them that
no slot leads to. -/
theorem eq_of_countAt_eq {h h' : Histogram} (hlayout : h.layout = h'.layout)
    (hrotation : h.rotation = h'.rotation) (hcount : ∀ i, h.countAt i = h'.countAt i)
    (htotal : h.total = h'.total) (hleast : h.least = h'.least)
    (hgreatest : h.greatest = h'.greatest) : h = h' := by
  have hsize : h.counts.size = h'.counts.size := by
    rw [h.size_counts, h'.size_counts, hlayout]
  -- The same rotation leads every slot to the same cell.
  have hcell : ∀ i, h.cell i = h'.cell i := by
    intro i
    rw [cell, cell, hrotation, hsize]
  have hcounts : h.counts = h'.counts := by
    -- Every cell is the cell of some slot, and slots show the same.
    refine Array.ext_getElem? ?_
    intro c
    by_cases hc : c < h.counts.size
    · obtain ⟨i, hi, rfl⟩ := h.exists_cell hc
      rw [h.getElem?_cell hi, hcell, h'.getElem?_cell (by rwa [← hsize]), hcount]
    · rw [Array.getElem?_eq_none (by omega), Array.getElem?_eq_none (by omega)]
  cases h
  cases h'
  subst hlayout hrotation hcounts htotal hleast hgreatest
  rfl

end LogBuckets.Histogram
