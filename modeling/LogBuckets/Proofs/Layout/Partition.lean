import LogBuckets.Proofs.Layout.Spans
import Mathlib.Tactic.TFAE

/-!
# `LogBuckets.Proofs.Layout.Partition`: slots cut the tracked range without gaps

The widths of slots double from bucket to bucket, and every bucket but the
first starts half way up. Still each slot ends exactly where the next one
begins, from 0 to `Layout.bound`. On the grid this is `start_succ`; here it
is said of the words that the layout answers with.

Three ways to ask whether two values share a slot come to the same:

* their slot numbers are equal (`slot?`);
* the floors of their slots are equal (`sameSlot_iff_slot_eq`);
* one lies within a slot width from the floor of the other
  (`slot?_eq_iff_mem_span`).

`slots_partition` has all of it.
-/

set_option autoImplicit false

namespace LogBuckets.Layout

variable {g : Layout} {v w : Int64} {i j : Nat}

/-- The values from 0 up to `bound` are those that have a slot. -/
theorem exists_slot?_eq_some (hlow : 0 ≤ v.toInt) (hhigh : v.toInt < g.bound) :
    ∃ i, g.slot? v = some i :=
  Option.isSome_iff_exists.1 ((g.isSome_slot?_iff v).2 ⟨hlow, hhigh⟩)

/-- The floor of a slot and the width of it lead to where the next one begins,
also where that is not a word any more. -/
theorem toInt_slotFloor_add_slotWidth (hv : g.slot? v = some i) :
    (g.slotFloor v).toInt + (g.slotWidth v).toInt = g.start (i + 1) := by
  rw [toInt_slotFloor hv, toInt_slotWidth hv, g.start_succ i]
  simp

/-- A slot ends where the next one begins, which may be one past the greatest word. -/
theorem toInt_valueAt_add_slotWidth (hi : i < g.slotCount) :
    (g.valueAt i).toInt + (g.slotWidth (g.valueAt i)).toInt = g.start (i + 1) := by
  have hend := toInt_slotFloor_add_slotWidth (slot?_valueAt_self hi)
  rwa [slotFloor_valueAt hi] at hend

/-- Values share a slot exactly if their slot numbers are equal. -/
theorem sameSlot_iff_slot_eq (hv : g.slot? v = some i) (hw : g.slot? w = some j) :
    g.sameSlot v w = true ↔ i = j := by
  rw [sameSlot_iff_number_eq g (nonneg_of_slot? hv) (nonneg_of_slot? hw), number_of_slot? hv,
    number_of_slot? hw]

/-- A slot holds the values from its floor on, as many as it is wide. -/
theorem slot?_eq_iff_mem_span (hv : g.slot? v = some i) :
    g.slot? w = some i ↔ (g.slotFloor v).toInt ≤ w.toInt ∧
      w.toInt < (g.slotFloor v).toInt + (g.slotWidth v).toInt := by
  have hi := slot?_lt_slotCount hv
  rw [toInt_slotFloor_add_slotWidth hv, toInt_slotFloor hv, slot?_eq_some_iff]
  simp [hi]

/-- The slots of a layout in their order.

1. The first begins at 0;
2. each of the others begins where the one before it ends, and
3. the last one ends at `bound`, which need not be a word;
4. so a value from 0 up to `bound` is in one slot and in no other;
5. slots are in the order of their values, and two values share a slot by their
   slot numbers, by the floors of their slots, and by the span of one of them,
   all in the same cases. -/
theorem slots_partition (g : Layout) :
    g.valueAt 0 = 0 ∧
    (∀ i, i + 1 < g.slotCount →
      (g.valueAt (i + 1)).toInt = (g.valueAt i).toInt + (g.slotWidth (g.valueAt i)).toInt) ∧
    (∀ i, i + 1 = g.slotCount →
      (g.valueAt i).toInt + (g.slotWidth (g.valueAt i)).toInt = g.bound) ∧
    (∀ v : Int64, 0 ≤ v.toInt → v.toInt < g.bound →
      ∃! i, i < g.slotCount ∧ (g.valueAt i).toInt ≤ v.toInt ∧
        v.toInt < (g.valueAt i).toInt + (g.slotWidth (g.valueAt i)).toInt) ∧
    ∀ v w : Int64, 0 ≤ v.toInt → v.toInt < g.bound → 0 ≤ w.toInt → w.toInt < g.bound →
      (v ≤ w → ∃ i j, g.slot? v = some i ∧ g.slot? w = some j ∧ i ≤ j) ∧
      [g.slot? v = g.slot? w, g.sameSlot v w = true,
        (g.slotFloor v).toInt ≤ w.toInt ∧
          w.toInt < (g.slotFloor v).toInt + (g.slotWidth v).toInt].TFAE := by
  refine ⟨g.valueAt_zero, ?_, ?_, ?_, ?_⟩
  · intro i hi
    rw [toInt_valueAt_add_slotWidth (by omega), toInt_valueAt (start_lt_of_lt_slotCount hi)]
  · intro i hi
    rw [toInt_valueAt_add_slotWidth (by omega), hi, start_slotCount]
  · intro v hlow hhigh
    obtain ⟨i, hv⟩ := exists_slot?_eq_some hlow hhigh
    -- Being within the span of slot `k` and having `k` as slot is the same.
    have hspan : ∀ k, (k < g.slotCount ∧ (g.valueAt k).toInt ≤ v.toInt ∧
        v.toInt < (g.valueAt k).toInt + (g.slotWidth (g.valueAt k)).toInt) ↔
        g.slot? v = some k := by
      intro k
      rw [slot?_eq_some_iff]
      refine and_congr_right fun hk => ?_
      rw [toInt_valueAt_add_slotWidth hk, toInt_valueAt (start_lt_of_lt_slotCount hk)]
    simp only [hspan]
    refine ⟨i, hv, fun k hk => ?_⟩
    simpa [hv] using hk.symm
  · intro v w hvlow hvhigh hwlow hwhigh
    obtain ⟨i, hv⟩ := exists_slot?_eq_some hvlow hvhigh
    obtain ⟨j, hw⟩ := exists_slot?_eq_some hwlow hwhigh
    refine ⟨fun hle => ⟨i, j, hv, hw, slot?_mono hv hw hle⟩, ?_⟩
    have hnumbers : g.slot? v = g.slot? w ↔ i = j := by simp [hv, hw]
    tfae_have 1 ↔ 2 := hnumbers.trans (sameSlot_iff_slot_eq hv hw).symm
    tfae_have 1 ↔ 3 := by
      rw [← slot?_eq_iff_mem_span hv, hv]
      exact eq_comm
    tfae_finish

end LogBuckets.Layout
