import LogBuckets.Proofs.Cursor.Position
import LogBuckets.Proofs.Cursor.Run

/-!
# `LogBuckets.Proofs.Cursor.Slots`: every slot in turn

With the plan `Plan.all` a cursor reports every slot once, from the first one
up, and then nothing any more. `BeforeSlot c i` says that slot number `i` is the
next to be reported; `BeforeSlot.advance` and `BeforeSlot.advance_of_end` are
the two things that a call can do.

What a report says about its slot alone, such as the count or the middle, is
then the list of that for all slots (`map_readings_all`).

A report on a slot is decided by the slot and by the value that the report
before it went up to. `Histogram.slotReport` is that report
(`Walk.Sound.reading_reportSlot`), and `every_slot_reported` says that slot
after slot it is what the cursor shows.
-/

set_option autoImplicit false

namespace LogBuckets

/-! ### Reports on slots -/

/-- The report on slot number `i`, if the report before it went up to `before`. -/
def Histogram.slotReport (h : Histogram) (i : Nat) (before : Int64) : Reading :=
  { h.view (i + 1) with
    percentile := share (h.countBelow (i + 1)) h.total
    reachedBefore := before
    reached := h.layout.valueAt i
    added := h.countAt i }

/-- Entering a slot and reporting it shows the slot, whatever was in view. -/
theorem Walk.Sound.reading_reportSlot {h : Histogram} {w : Walk} (hs : w.Sound h)
    (hnext : w.next < h.slotCount) :
    (w.enter h).reportSlot.reading = h.slotReport w.next w.reading.reached := by
  have hseen : w.seen h = w.next := Nat.min_eq_left (Nat.le_of_lt hnext)
  have hcumulative : Tally.add w.reading.cumulative (h.countAt w.next)
      = h.countBelow (w.next + 1) := by
    rw [hs.cumulative_eq, hseen, h.countBelow_succ]
  rw [Histogram.slotReport, Histogram.view, ← hcumulative]
  rfl

/-- What a report on a slot of the layout shows, field by field. -/
theorem Histogram.slotReport_eq (h : Histogram) {i : Nat} (hi : i < h.layout.slotCount)
    (before : Int64) :
    let value := h.layout.valueAt i
    let cumulative := min Tally.limit (∑ j ∈ Finset.range (i + 1), h.countAt j)
    h.slotReport i before =
      { count := h.countAt i
        cumulative
        value
        floor := value
        ceiling := h.layout.slotCeiling value
        middle := h.layout.slotMiddle value
        percentile := share cumulative h.total
        reachedBefore := before
        reached := value
        added := h.countAt i } := by
  intro value cumulative
  have hfloor : h.layout.slotFloor value = value := Layout.slotFloor_valueAt hi
  show ({ h.view (i + 1) with
    percentile := share cumulative h.total
    reachedBefore := before
    reached := value
    added := h.countAt i } : Reading) = _
  rw [view, hfloor]
  rfl

namespace Cursor

/-- The cursor reports every slot, and slot number `i` is the next. -/
structure BeforeSlot (c : Cursor) (i : Nat) : Prop where
  plan_eq : c.plan = .all
  not_exhausted : c.exhausted = false
  next_eq : c.walk.next = i

/-- The first slot to be reported is slot number 0. -/
theorem beforeSlot_start : (start .all).BeforeSlot 0 where
  plan_eq := rfl
  not_exhausted := rfl
  next_eq := rfl

namespace BeforeSlot

variable {h : Histogram} {c : Cursor} {i : Nat}

/-- A call steps on to the next slot and reports it. -/
theorem advance (hc : c.BeforeSlot i) (hi : i < h.slotCount) :
    ∃ c', c.advance h = (true, c') ∧ c'.BeforeSlot (i + 1) ∧
      c'.walk = (c.walk.enter h).reportSlot := by
  have hmoved : c.walk.toNextSlot h = (true, (c.walk.enter h).reportSlot) :=
    if_pos (by rw [hc.next_eq]; exact hi)
  have hstep : c.reported (c.walk.enter h).reportSlot
      = { c with plan := .all, walk := (c.walk.enter h).reportSlot } := by
    rw [reported, hc.plan_eq]
    rfl
  refine ⟨c.reported (c.walk.enter h).reportSlot, ?_, ?_, ?_⟩
  · rw [Cursor.advance, if_neg (by rw [hc.not_exhausted]; decide), hc.plan_eq]
    show c.conclude (c.walk.toNextSlot h) = _
    rw [hmoved]
    rfl
  · rw [hstep]
    exact ⟨rfl, hc.not_exhausted, congrArg (· + 1) hc.next_eq⟩
  · rw [hstep]

/-- Past the last slot there is no report. -/
theorem advance_of_end (hc : c.BeforeSlot i) (hi : h.slotCount ≤ i) :
    c.advance h = (false, c.ended (c.walk.leave h)) := by
  have hmoved : c.walk.toNextSlot h = (false, c.walk.leave h) :=
    if_neg (by rw [hc.next_eq]; omega)
  rw [Cursor.advance, if_neg (by rw [hc.not_exhausted]; decide), hc.plan_eq]
  show c.conclude (c.walk.toNextSlot h) = _
  rw [hmoved]
  rfl

/-- Let `f` read off a report what is `g` of the slot. Then the reports give `g`
of the slots that are left, as many as are asked for. -/
theorem map_readings {α : Type} {f : Reading → α} {g : Nat → α}
    (hread : ∀ w : Walk, f (w.enter h).reportSlot.reading = g w.next) (hc : c.BeforeSlot i)
    (limit : Nat) :
    (c.readings h limit).map f = (List.range' i (min limit (h.slotCount - i))).map g := by
  induction limit generalizing c i with
  | zero => rw [Nat.zero_min]; rfl
  | succ limit ih =>
      -- A slot is left to report and the list goes on from the next one, or none is left
      -- and the list is empty.
      rcases Nat.lt_or_ge i h.slotCount with hlt | hge
      · obtain ⟨c', hadvance, hc', hwalk⟩ := hc.advance hlt
        have hmin : min (limit + 1) (h.slotCount - i)
            = min limit (h.slotCount - (i + 1)) + 1 := by omega
        have hhead : f c'.reading = g i := by
          rw [reading, hwalk, hread, hc.next_eq]
        simp only [readings, hadvance, List.map_cons, ih hc', hhead, hmin, List.range'_succ]
      · have hmin : min (limit + 1) (h.slotCount - i) = 0 := by omega
        simp only [readings, hc.advance_of_end hge, hmin]
        rfl

end BeforeSlot

/-- What all reports say about their slots alone is said once of every slot. -/
theorem map_readings_all {h : Histogram} {α : Type} {f : Reading → α} {g : Nat → α}
    (hread : ∀ w : Walk, f (w.enter h).reportSlot.reading = g w.next) {limit : Nat}
    (hall : h.slotCount ≤ limit) :
    ((start .all).readings h limit).map f = (List.range h.slotCount).map g := by
  rw [beforeSlot_start.map_readings hread, Nat.sub_zero, Nat.min_eq_right hall,
    List.range_eq_range']

/-! ### The run over all slots -/

/-- After `n` calls the first `n` slots have been reported, as far as there are so
many. -/
theorem beforeSlot_called {h : Histogram} {n : Nat} (hn : n ≤ h.slotCount) :
    ((start .all).called h n).BeforeSlot n := by
  induction n with
  | zero => exact beforeSlot_start
  | succ n ih =>
      obtain ⟨c', hadvance, hc', -⟩ := (ih (Nat.le_of_succ_le hn)).advance hn
      rw [called_succ, hadvance]
      exact hc'

/-- Call number `i`, from 0, reports slot number `i`. -/
theorem reading_called_all {h : Histogram} {i : Nat} (hi : i < h.slotCount) :
    (((start .all).called h i).advance h).1 = true ∧
    ((start .all).called h (i + 1)).reading
      = h.slotReport i (if i = 0 then 0 else h.layout.valueAt (i - 1)) := by
  induction i with
  | zero =>
      obtain ⟨c', hadvance, -, hwalk⟩ := beforeSlot_start.advance hi
      have hreading := (Walk.sound_start h).reading_reportSlot hi
      rw [called_succ]
      show ((start .all).advance h).1 = true ∧ ((start .all).advance h).2.reading = _
      rw [hadvance, reading, hwalk]
      exact ⟨rfl, hreading⟩
  | succ i ih =>
      have hbefore := beforeSlot_called (Nat.le_of_lt hi)
      have hs := sound_called h .all (i + 1)
      obtain ⟨c', hadvance, -, hwalk⟩ := hbefore.advance hi
      have hnext := hbefore.next_eq
      have hreading := hs.reading_reportSlot (by rw [hnext]; exact hi)
      -- The report before this one went up to the least value of the slot before.
      have hreached : ((start .all).called h (i + 1)).walk.reading.reached
          = h.layout.valueAt i :=
        congrArg Reading.reached (ih (Nat.lt_of_succ_lt hi)).2
      rw [hnext, hreached] at hreading
      rw [called_succ _ _ (i + 1), hadvance, reading, hwalk]
      exact ⟨rfl, hreading⟩

/-- Once all slots were reported, no call reports anything. -/
theorem advance_called_all_of_le {h : Histogram} {n : Nat} (hn : h.slotCount ≤ n) :
    (((start .all).called h n).advance h).1 = false := by
  have hend := (beforeSlot_called (Nat.le_refl h.slotCount)).advance_of_end (Nat.le_refl _)
  have hlast : (((start .all).called h h.slotCount).advance h).1 = false := by rw [hend]
  rcases Nat.eq_or_lt_of_le hn with rfl | hlt
  · exact hlast
  · exact (called_of_no_report hlast hlt).2

/-- The run over all slots.

1. The first calls report one slot each, in order. The report shows the slot and the
   counts up to it, has gone up from the value of the slot before it (from 0 for the
   first one) to that of its own, and has added the count of its own slot;
2. there are as many reports as slots;
3. the values of the reports are in strictly ascending order;
4. the last report has the total in view. -/
theorem every_slot_reported (layout : Layout) (offset : Nat) (events : List Event) :
    let h := (Histogram.empty layout offset).after events
    let c := fun n => (start .all).called h n
    (∀ i < layout.slotCount,
      let value := layout.valueAt i
      let cumulative := min Tally.limit (∑ j ∈ Finset.range (i + 1), h.countAt j)
      ((c i).advance h).1 = true ∧
      (c (i + 1)).reading =
        { count := h.countAt i
          cumulative
          value
          floor := value
          ceiling := layout.slotCeiling value
          middle := layout.slotMiddle value
          percentile := share cumulative h.total
          reachedBefore := if i = 0 then 0 else layout.valueAt (i - 1)
          reached := value
          added := h.countAt i }) ∧
    (∀ n, layout.slotCount ≤ n → ((c n).advance h).1 = false) ∧
    (∀ i j, i < j → j < layout.slotCount →
      (c (i + 1)).reading.value < (c (j + 1)).reading.value) ∧
    (c layout.slotCount).reading.cumulative = h.total := by
  intro h c
  have hlayout : h.layout = layout := Histogram.layout_after_empty layout offset events
  have hcount : h.slotCount = layout.slotCount := by rw [h.slotCount_eq, hlayout]
  have hreport : ∀ i < layout.slotCount, ((c i).advance h).1 = true ∧ (c (i + 1)).reading
      = h.slotReport i (if i = 0 then 0 else layout.valueAt (i - 1)) := by
    intro i hi
    rw [← hlayout]
    exact reading_called_all (by rw [hcount]; exact hi)
  have hvalue : ∀ i < layout.slotCount, (c (i + 1)).reading.value = layout.valueAt i := by
    intro i hi
    rw [(hreport i hi).2, ← hlayout]
    rfl
  refine ⟨?_, ?_, ?_, ?_⟩
  · intro i hi
    obtain ⟨hfound, hreading⟩ := hreport i hi
    rw [h.slotReport_eq (by rw [hlayout]; exact hi), hlayout] at hreading
    exact ⟨hfound, hreading⟩
  · intro n hn
    exact advance_called_all_of_le (by rw [hcount]; exact hn)
  · intro i j hij hj
    rw [hvalue i (by omega), hvalue j hj]
    exact Layout.valueAt_lt_valueAt hij hj
  · have hs : (c layout.slotCount).walk.Sound h := sound_called h .all layout.slotCount
    have hnext : (c layout.slotCount).walk.next = layout.slotCount :=
      (beforeSlot_called (Nat.le_of_eq hcount.symm)).next_eq
    -- After as many calls as there are slots, all of them have been entered.
    have hseen : (c layout.slotCount).walk.seen h = h.slotCount := by
      rw [Walk.seen, hnext, hcount, Nat.min_self]
    show (c layout.slotCount).walk.reading.cumulative = h.total
    rw [hs.cumulative_eq, hseen]
    exact (Histogram.total_eq_countBelow_slotCount layout offset events).symm

end Cursor

end LogBuckets
