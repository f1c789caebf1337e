import LogBuckets.Proofs.Histogram.Cells
import LogBuckets.Proofs.Layout.Partition

/-!
# `LogBuckets.Proofs.Histogram.Recording`: what one record changes

A record is taken whole or not at all. Which of the two depends on the value
alone: it is taken if the value is from 0 up to `Layout.bound`, which is where
the last slot ends and not the highest value that was asked for. What it
changes is then seen by the values that share its slot, and by no others.

* `record_fst_eq_false_iff`: when a record is refused;
* `record_eq_self`: a record that is refused, or counts nothing, leaves all
  as it was;
* `countOf_add`: counting in the slot of a value, seen from any value;
* `record_exact`: the three together. They hold in every state, so they hold
  after every history.
-/

set_option autoImplicit false

namespace LogBuckets.Histogram

/-- A record is refused exactly outside the slots of the layout. -/
theorem record_fst_eq_false_iff (h : Histogram) (v : Int64) (n : Nat) :
    (h.record v n).1 = false ↔ v.toInt < 0 ∨ (h.layout.bound : Int) ≤ v.toInt := by
  rw [record_fst, ← Bool.not_eq_true, h.layout.isSome_slot?_iff]
  omega

/-- A record that is refused, or counts nothing, leaves the histogram as it is. -/
theorem record_eq_self (h : Histogram) {v : Int64} {n : Nat}
    (hidle : (h.record v n).1 = false ∨ n = 0) : (h.record v n).2 = h := by
  rcases hidle with hrefused | rfl
  · rw [record_fst, Option.isSome_eq_false_iff, Option.isNone_iff_eq_none] at hrefused
    exact apply_record_of_none hrefused n
  · exact h.apply_record_zero v

/-- The count of a value is that of its slot. -/
theorem countOf_of_some {h : Histogram} {w : Int64} {j : Nat}
    (hslot : h.layout.slot? w = some j) : h.countOf w = h.countAt j := by
  simp [countOf, hslot]

/-- A value without a slot counts 0. -/
theorem countOf_of_none {h : Histogram} {w : Int64} (hslot : h.layout.slot? w = none) :
    h.countOf w = 0 := by
  simp [countOf, hslot]

/-- Counting in the slot of `v` is seen by the values that share it. -/
theorem countOf_add (h : Histogram) {v : Int64} {i : Nat} (hslot : h.layout.slot? v = some i)
    (n : Nat) (w : Int64) :
    (h.add i v n).countOf w =
      if (0 ≤ w.toInt ∧ w.toInt < h.layout.bound) ∧ h.layout.sameSlot v w = true
      then Tally.add (h.countOf w) n else h.countOf w := by
  have hi := Layout.slot?_lt_slotCount hslot
  -- The layout is kept, so `w` is looked up in the same slot as before.
  have hlayout : (h.add i v n).layout = h.layout := rfl
  have htracked := h.layout.isSome_slot?_iff w
  -- A word without a slot has no counts, and shares no slot with `v`.
  cases hw : h.layout.slot? w with
  | none =>
      simp only [hw, Option.isSome_none, Bool.false_eq_true, false_iff] at htracked
      rw [countOf_of_none (hlayout ▸ hw), countOf_of_none hw]
      simp [htracked]
  | some j =>
      simp only [hw, Option.isSome_some, true_iff] at htracked
      have hsame : h.layout.sameSlot v w = true ↔ j = i :=
        (Layout.sameSlot_iff_slot_eq hslot hw).trans eq_comm
      rw [countOf_of_some (hlayout ▸ hw), countOf_of_some hw, h.countAt_add hi]
      simp only [htracked, hsame, true_and]

/-- What a record of `n` occurrences of the value `v` does, in whatever state the
histogram is.

1. It is refused exactly if `v` is negative or at the bound of the layout or above;
2. if it is refused, or `n` is 0, nothing changes;
3. otherwise every value that has a slot and shares it with `v` is counted `n` times
   more, up to the limit, every other value as often as before, and the total grows
   by `n`, up to the limit;
4. the values from 0 to the highest that was asked for are never refused. -/
theorem record_exact (h : Histogram) (v : Int64) (n : Nat) :
    let g := h.layout
    let taken := (h.record v n).1
    let h' := (h.record v n).2
    (taken = false ↔ v.toInt < 0 ∨ (g.bound : Int) ≤ v.toInt) ∧
    (taken = false ∨ n = 0 → h' = h) ∧
    (taken = true → 0 < n →
      (∀ w : Int64, h'.countOf w =
        if (0 ≤ w.toInt ∧ w.toInt < g.bound) ∧ g.sameSlot v w = true
        then min Tally.limit (h.countOf w + n) else h.countOf w) ∧
      h'.total = min Tally.limit (h.total + n)) ∧
    (0 ≤ v.toInt → v ≤ g.highest → taken = true) := by
  intro g taken h'
  refine ⟨h.record_fst_eq_false_iff v n, h.record_eq_self, ?_, ?_⟩
  · intro htaken hn
    have hsome : (g.slot? v).isSome = true := (h.record_fst v n).symm.trans htaken
    obtain ⟨i, hslot⟩ := Option.isSome_iff_exists.1 hsome
    have hadd : h' = h.add i v n := apply_record_of_some hslot hn
    rw [hadd]
    exact ⟨h.countOf_add hslot n, rfl⟩
  · intro hlow hhigh
    -- The layout reaches past its highest value, so that has a slot.
    have hbound : g.highest.toInt.toNat < g.bound := g.highest_lt_bound
    rw [Int64.le_iff_toInt_le] at hhigh
    have hsome : (g.slot? v).isSome = true := (g.isSome_slot?_iff v).2 ⟨hlow, by omega⟩
    exact (h.record_fst v n).trans hsome

end LogBuckets.Histogram
