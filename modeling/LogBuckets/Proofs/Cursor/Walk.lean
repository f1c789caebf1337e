import LogBuckets.Cursor.Walk
import LogBuckets.Proofs.Histogram.Counts
import LogBuckets.Proofs.Layout.Spans
import Mathlib.Algebra.BigOperators.Intervals

/-!
# `LogBuckets.Proofs.Cursor.Walk`: what a walk has seen

A walk enters the slots one after the other, so how many it has entered
says all about where it is. `seen` is that number. `Walk.Sound` says that
the walk shows what there is to see there: the counts up to and including
the last slot it entered, and the bounds of that slot. Before the first
slot it shows zeros.

* `Sound.enter`, `Sound.leave`, `Sound.congr`: each move of a walk keeps
  `Sound`;
* `climb_spec`: climbing to the start of a slot enters all slots up to
  that one, and adds up their counts. The start of the first slot is no
  aim to climb to, for a walk that has not begun already shows 0;
* `toLevel_cases`: so a report of a value level has entered the slots up
  to that of the level, unless that is the first one. `Layout.upTo`
  counts them;
* `nextExceeds_iff`, `toLevel_of_le`: when the slot that comes next begins
  above a level, and what a report of a level in the slot in view changes.
-/

set_option autoImplicit false

namespace LogBuckets

/-- What is to be seen once the first `n` slots were entered: the last of
them and the counts of all. -/
def Histogram.view (h : Histogram) : (n : Nat) → Reading
  | 0 => {}
  | j + 1 =>
    let value := h.layout.valueAt j
    { count := h.countAt j
      cumulative := h.countBelow (j + 1)
      value
      floor := h.layout.slotFloor value
      ceiling := h.layout.slotCeiling value
      middle := h.layout.slotMiddle value }

/-- A reading without what it tells of the report. -/
def Reading.slotPart (r : Reading) : Reading :=
  { r with percentile := 0.0, reachedBefore := 0, reached := 0, added := 0 }

/-- How many slots a walk enters on its way to a value level: all up to the
slot of the level, but none for a level in the first slot. -/
def Layout.upTo (g : Layout) (level : Int64) : Nat :=
  let slot := g.number level.toInt.toNat
  if slot = 0 then 0 else min g.slotCount (slot + 1)

/-- No slot is entered for level 0, which is in the first one. -/
theorem Layout.upTo_zero (g : Layout) : g.upTo 0 = 0 := by
  rw [upTo, Int64.toInt_zero, Int.toNat_zero, number_zero, if_pos rfl]

/-- Levels in ascending slots need more and more slots. -/
theorem Layout.upTo_mono {g : Layout} {v w : Int64}
    (h : g.number v.toInt.toNat ≤ g.number w.toInt.toNat) : g.upTo v ≤ g.upTo w := by
  rw [upTo, upTo]
  split
  · exact Nat.zero_le _
  · rw [if_neg (by omega)]
    omega

/-- No slot past that of the level is entered. -/
theorem Layout.upTo_le (g : Layout) (level : Int64) :
    g.upTo level ≤ g.number level.toInt.toNat + 1 := by
  rw [upTo]
  split
  · exact Nat.zero_le _
  · exact Nat.min_le_right _ _

namespace Walk

/-- The number of slots that a walk has entered. -/
def seen (h : Histogram) (w : Walk) : Nat :=
  min w.next h.slotCount

/-- A walk that shows what is to be seen where it is. -/
structure Sound (h : Histogram) (w : Walk) : Prop where
  next_le : w.next ≤ h.slotCount + 1
  slotPart_eq : w.reading.slotPart = h.view (w.seen h)

/-! ### Moves -/

/-- Only slots are entered. -/
theorem seen_le (h : Histogram) (w : Walk) : w.seen h ≤ h.slotCount :=
  Nat.min_le_right _ _

/-- Before the first slot, zeros are what there is to see. -/
theorem sound_start (h : Histogram) : Sound h {} where
  next_le := Nat.zero_le _
  slotPart_eq := by
    rw [seen, Nat.zero_min]
    rfl

/-- A walk begins before the first slot. -/
theorem seen_start (h : Histogram) : seen h {} = 0 := by
  rw [seen, Nat.zero_min]

/-- What a walk tells of its reports has no part in `Sound`. -/
theorem Sound.congr {h : Histogram} {w w' : Walk} (hs : w.Sound h) (hnext : w'.next = w.next)
    (hpart : w'.reading.slotPart = w.reading.slotPart) : w'.Sound h where
  next_le := hnext ▸ hs.next_le
  slotPart_eq := by rw [hpart, hs.slotPart_eq, seen, seen, hnext]

/-- The cumulative count is the capped sum of the counts of the slots that were
entered. -/
theorem Sound.cumulative_eq {h : Histogram} {w : Walk} (hs : w.Sound h) :
    w.reading.cumulative = h.countBelow (w.seen h) := by
  show w.reading.slotPart.cumulative = h.countBelow (w.seen h)
  rw [hs.slotPart_eq]
  cases w.seen h with
  | zero => simp [Histogram.view, Histogram.countBelow]
  | succ j => rfl

/-- Counts are ahead while the total is not in view. -/
theorem pending_iff {h : Histogram} {w : Walk} :
    w.pending h = true ↔ w.reading.cumulative < h.total :=
  decide_eq_true_iff

/-- None is ahead once it is. -/
theorem pending_eq_false_iff {h : Histogram} {w : Walk} :
    w.pending h = false ↔ h.total ≤ w.reading.cumulative := by
  rw [← Bool.not_eq_true, pending_iff, Nat.not_lt]

/-- No walk has seen more than there is. -/
theorem Sound.cumulative_le {h : Histogram} {w : Walk} (hs : w.Sound h)
    (htotal : h.total = h.countBelow h.slotCount) : w.reading.cumulative ≤ h.total := by
  rw [hs.cumulative_eq, htotal]
  exact h.countBelow_mono (w.seen_le h)

/-- While counts are ahead, so are slots. -/
theorem Sound.next_lt_of_pending {h : Histogram} {w : Walk} (hs : w.Sound h)
    (htotal : h.total = h.countBelow h.slotCount) (hpending : w.pending h = true) :
    w.next < h.slotCount := by
  by_contra hend
  have hseen : w.seen h = h.slotCount := Nat.min_eq_right (Nat.not_lt.1 hend)
  have hlt := pending_iff.1 hpending
  rw [hs.cumulative_eq, hseen, ← htotal] at hlt
  exact Nat.lt_irrefl _ hlt

/-- The value in view is where the last slot entered begins. Before the first
slot it is 0, which is where that slot begins. -/
theorem Sound.toInt_value {h : Histogram} {w : Walk} (hs : w.Sound h) :
    w.reading.value.toInt = h.layout.start (w.seen h - 1) := by
  have hseen := w.seen_le h
  show w.reading.slotPart.value.toInt = h.layout.start (w.seen h - 1)
  rw [hs.slotPart_eq]
  cases hn : w.seen h with
  | zero => rw [Nat.zero_sub, Layout.start_zero]; rfl
  | succ j =>
      have hj : j < h.layout.slotCount := by
        rw [← h.slotCount_eq]
        omega
      rw [Nat.add_sub_cancel]
      exact Layout.toInt_valueAt (Layout.start_lt_of_lt_slotCount hj)

/-- Entering a slot is one slot more. -/
theorem seen_enter {h : Histogram} {w : Walk} (hnext : w.next < h.slotCount) :
    (w.enter h).seen h = w.seen h + 1 := by
  rw [seen, seen, next_enter]
  omega

/-- A walk that enters a slot shows that slot, and its counts with all before it. -/
theorem Sound.enter {h : Histogram} {w : Walk} (hs : w.Sound h)
    (hnext : w.next < h.slotCount) : (w.enter h).Sound h where
  next_le := by
    rw [next_enter]
    omega
  -- What the view shows of the counts is their capped sum up to the slot entered.
  slotPart_eq := by
    have hseen : w.seen h = w.next := Nat.min_eq_left (Nat.le_of_lt hnext)
    have hcumulative : Tally.add w.reading.cumulative (h.countAt w.next)
        = h.countBelow (w.next + 1) := by
      rw [hs.cumulative_eq, hseen, h.countBelow_succ]
    rw [seen_enter hnext, hseen, Histogram.view, ← hcumulative]
    rfl

/-- Leaving the last slot changes nothing that is in view. -/
theorem Sound.leave {h : Histogram} {w : Walk} (hs : w.Sound h)
    (hnext : h.slotCount ≤ w.next) : (w.leave h).Sound h ∧ (w.leave h).seen h = w.seen h := by
  have hseen : (w.leave h).seen h = w.seen h := by
    show min (h.slotCount + 1) h.slotCount = min w.next h.slotCount
    omega
  refine ⟨⟨Nat.le_refl _, ?_⟩, hseen⟩
  rw [hseen]
  exact hs.slotPart_eq

/-! ### Climbing -/

/-- Climbing to where slot `k` begins enters the slots up to `k`, if there are
so many. It adds the counts of those that had not been entered, and leaves the
rest of the report alone. -/
theorem climb_spec {h : Histogram} {bound : Int64} {k : Nat}
    (hbound : bound.toInt = h.layout.start k) {w : Walk} (hs : w.Sound h) :
    (w.climb h bound).Sound h ∧
    (w.climb h bound).seen h = max (w.seen h) (if k = 0 then 0 else min h.slotCount (k + 1)) ∧
    (w.climb h bound).reading.added
      = w.reading.added + ∑ i ∈ Finset.Ico (w.seen h) ((w.climb h bound).seen h), h.countAt i ∧
    (w.climb h bound).reading.reached = w.reading.reached := by
  -- The walk is below the bound exactly if the last slot entered is below slot
  -- `k`. The cases are those of the loop: another slot, no more slots, arrived.
  have hbelow : ∀ w : Walk, w.Sound h → (w.reading.value < bound ↔ w.seen h - 1 < k) := by
    intro w hs
    rw [Int64.lt_iff_toInt_lt, hs.toInt_value, hbound, Int.ofNat_lt]
    exact h.layout.start_strictMono.lt_iff_lt
  fun_induction Walk.climb h bound w with
  | case1 w hlt hnext w₁ ih =>
      -- The loop goes on from the walk that has entered the slot and added its count.
      let w' : Walk := { w₁ with reading := { w₁.reading with
        added := w₁.reading.added + w₁.reading.count } }
      have hk := (hbelow w hs).1 hlt
      have hseen : w.seen h = w.next := Nat.min_eq_left (Nat.le_of_lt hnext)
      have hseen' : w'.seen h = w.seen h + 1 := seen_enter hnext
      obtain ⟨hsound, hfinal, hadded, hreached⟩ := ih ((hs.enter hnext).congr rfl rfl)
      rw [if_neg (by omega), hseen'] at hfinal
      rw [hseen'] at hadded
      refine ⟨hsound, ?_, ?_, hreached⟩
      · rw [hfinal, if_neg (by omega)]
        omega
      · have hlow : w.seen h < (w'.climb h bound).seen h := by
          rw [hfinal]
          omega
        have hcount : w'.reading.added = w.reading.added + h.countAt (w.seen h) := by
          rw [hseen]
          rfl
        -- The slot just entered is the first of the sum over those that the climb enters.
        rw [hadded, hcount, Finset.sum_eq_sum_Ico_succ_bot hlow, Nat.add_assoc]
  | case2 w hlt hnext =>
      -- No slot is left to enter: all of them have been, and the sum over the new ones is
      -- empty.
      have hk := (hbelow w hs).1 hlt
      have hend : h.slotCount ≤ w.next := by omega
      have hseen : w.seen h = h.slotCount := Nat.min_eq_right hend
      obtain ⟨hleave, hsame⟩ := hs.leave hend
      rw [hsame, Finset.Ico_self, Finset.sum_empty, if_neg (by omega)]
      exact ⟨hleave, by omega, rfl, rfl⟩
  | case3 w hge =>
      -- Arrived: the last slot entered is `k` or a later one, so nothing is added.
      have hk := mt (hbelow w hs).2 hge
      have hle := w.seen_le h
      rw [Finset.Ico_self, Finset.sum_empty]
      refine ⟨hs, ?_, rfl, rfl⟩
      split <;> omega

/-- Climbing to where a slot begins does not lead past the last one. -/
theorem next_climb_le {h : Histogram} {w : Walk} {bound : Int64} {k : Nat}
    (hbound : bound.toInt = h.layout.start k) (hk : k < h.slotCount) (hs : w.Sound h)
    (hnext : w.next ≤ h.slotCount) : (w.climb h bound).next ≤ h.slotCount := by
  fun_induction w.climb h bound with
  | case1 w hlow hlt w₁ ih => exact ih ((hs.enter hlt).congr rfl rfl) hlt
  | case2 w hlow hend =>
      -- The last slot is in view and begins below slot `k`, but there is no such slot.
      have hseen : w.seen h = w.next := Nat.min_eq_left hnext
      rw [Int64.lt_iff_toInt_lt, hs.toInt_value, hbound, Int.ofNat_lt,
        h.layout.start_strictMono.lt_iff_lt] at hlow
      omega
  | case3 w hhigh => exact hnext

/-! ### Reports of value levels -/

/-- What a report of a value level makes of a walk. -/
structure Reports (h : Histogram) (level : Int64) (w w' : Walk) : Prop where
  sound : w'.Sound h
  seen_eq : w'.seen h = max (w.seen h) (h.layout.upTo level)
  /-- The counts of the slots that were entered for the report. -/
  added_eq : w'.reading.added = ∑ i ∈ Finset.Ico (w.seen h) (w'.seen h), h.countAt i
  reachedBefore_eq : w'.reading.reachedBefore = w.reading.reached
  reached_eq : w'.reading.reached = level

/-- What is left of a walk that finds nothing to report. -/
structure Rests (h : Histogram) (w w' : Walk) : Prop where
  sound : w'.Sound h
  seen_eq : w'.seen h = w.seen h
  reached_eq : w'.reading.reached = w.reading.reached
  /-- No counts are ahead. -/
  total_le : h.total ≤ w'.reading.cumulative

/-- A walk that has added nothing for the report to come. -/
def cleared (w : Walk) : Walk :=
  { w with reading := { w.reading with added := 0 } }

/-- What the last report has added is not part of the view. -/
theorem Sound.cleared {h : Histogram} {w : Walk} (hs : w.Sound h) : w.cleared.Sound h :=
  hs.congr rfl rfl

/-- What the last report has added has no part in whether there is another one. -/
theorem toLevel_eq (h : Histogram) (level : Int64) (w : Walk) :
    w.toLevel h level
      = if (w.pending h || w.nextExceeds h (h.layout.slotFloor level)) = true
        then (true, (w.cleared.climb h (h.layout.slotFloor level)).report level)
        else (false, w.cleared) :=
  rfl

/-- A level is reported while counts are ahead or the next slot begins above
the slot of the level, and only then. -/
theorem toLevel_cases {h : Histogram} {w : Walk} (hs : w.Sound h) {level : Int64}
    (hlevel : 0 ≤ level.toInt) :
    ((w.pending h || w.nextExceeds h (h.layout.slotFloor level)) = true ∧
      ∃ w', w.toLevel h level = (true, w') ∧ Reports h level w w') ∨
    ((w.pending h || w.nextExceeds h (h.layout.slotFloor level)) = false ∧
      ∃ w', w.toLevel h level = (false, w') ∧ Rests h w w') := by
  have hguard := toLevel_eq h level w
  cases hahead : (w.pending h || w.nextExceeds h (h.layout.slotFloor level)) with
  | true =>
      -- The walk that climbs has its sum of added counts set to 0 first.
      obtain ⟨hsound, hseen, hadded, hreached⟩ :=
        climb_spec (h.layout.toInt_slotFloor_of_nonneg hlevel) hs.cleared
      rw [if_pos hahead] at hguard
      refine Or.inl ⟨rfl, _, hguard, hsound.congr rfl rfl, ?_, ?_, hreached, rfl⟩
      · rw [Layout.upTo, ← h.slotCount_eq]
        exact hseen
      · exact hadded.trans (Nat.zero_add _)
  | false =>
      rw [hahead, if_neg Bool.false_ne_true] at hguard
      refine Or.inr ⟨rfl, w.cleared, hguard, hs.cleared, rfl, rfl, ?_⟩
      -- The guard that fails is a disjunction, so no counts are pending either.
      exact pending_eq_false_iff.1 (Bool.or_eq_false_iff.1 hahead).1

/-! ### Levels without a move -/

/-- The next slot begins above a level exactly if it comes after the slot of the level
and begins inside the words. -/
theorem nextExceeds_iff {h : Histogram} {w : Walk} {level : Int64} (hlevel : 0 ≤ level.toInt) :
    w.nextExceeds h (h.layout.slotFloor level) = true ↔
      w.next ≤ h.slotCount ∧ h.layout.number level.toInt.toNat < w.next ∧
        h.layout.start w.next < 2 ^ 63 := by
  rw [nextExceeds, Bool.and_eq_true, decide_eq_true_iff, decide_eq_true_iff]
  refine and_congr_right fun hnext => ?_
  rw [h.slotCount_eq] at hnext
  exact Layout.slotFloor_lt_valueAt_iff hlevel hnext

/-- Nothing is entered for a level that does not begin above the slot in view. -/
theorem toLevel_of_le {h : Histogram} {w : Walk} {level : Int64} (hlevel : 0 ≤ level.toInt)
    (hs : w.Sound h) (hseen : h.layout.number level.toInt.toNat ≤ w.seen h - 1)
    (hguard : (w.pending h || w.nextExceeds h (h.layout.slotFloor level)) = true) :
    w.toLevel h level
      = (true, { w with reading := { w.reading.report level with added := 0 } }) := by
  -- The loop ends at once: the value in view is not below the slot of the level.
  have hlow : ¬ w.cleared.reading.value < h.layout.slotFloor level := by
    have hvalue : w.cleared.reading.value.toInt = h.layout.start (w.seen h - 1) := hs.toInt_value
    rw [Int64.lt_iff_toInt_lt, hvalue, h.layout.toInt_slotFloor_of_nonneg hlevel, Int.ofNat_lt,
      h.layout.start_strictMono.lt_iff_lt]
    omega
  have hclimb : w.cleared.climb h (h.layout.slotFloor level) = w.cleared := by
    rw [climb, if_neg hlow]
  rw [toLevel_eq, if_pos hguard, hclimb]
  rfl

/-- A level that has a slot does not lead past the last one. -/
theorem next_toLevel_le {h : Histogram} {w : Walk} {level : Int64} {j : Nat}
    (hslot : h.layout.slot? level = some j) (hs : w.Sound h) (hnext : w.next ≤ h.slotCount) :
    (w.toLevel h level).2.next ≤ h.slotCount := by
  have hj := Layout.slot?_lt_slotCount hslot
  rw [← h.slotCount_eq] at hj
  rw [toLevel_eq]
  split
  · exact next_climb_le (Layout.toInt_slotFloor hslot) hj hs.cleared hnext
  · exact hnext

end Walk

end LogBuckets
