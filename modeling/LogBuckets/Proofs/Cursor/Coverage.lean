import LogBuckets.Proofs.Cursor.Multiples
import LogBuckets.Proofs.Histogram.Ends
import Mathlib.Algebra.Order.BigOperators.Group.List

/-!
# `LogBuckets.Proofs.Cursor.Coverage`: what the reports of value levels cover

A report of a value level should cover the slots up to that of its level,
and all reports together should cover all counts. This file says when they
do, in terms of the counts of the slots.

* `level_reading`: a report covers the slots up to that of its level. Only
  the first slot is not entered for the levels inside it: a walk that has
  not begun already shows its least value. Its counts come with the next
  level above it (`level_in_first_slot`);
* `added_covers_total`: as long as all slots together count no more than can
  be counted, a run that ends because nothing is left to report has added the
  total. A run that ends because the next level is not a word any more has
  added the counts up to its last level, and counts above that one are left
  out (`added_leaves_out`).
-/

set_option autoImplicit false

namespace LogBuckets

/-! ### What a level takes in -/

namespace Layout

/-- The slots that begin no higher than the slot of a value level. -/
def slotsUpTo (g : Layout) (level : Int64) : Finset Nat :=
  (Finset.range g.slotCount).filter fun i => g.valueAt i ≤ g.slotFloor level

/-- The slots that the reports up to a value level take in. -/
def takenIn (g : Layout) (level : Int64) : Finset Nat :=
  if 0 < g.slotFloor level then g.slotsUpTo level else ∅

/-- The first slot is the one that begins at 0. -/
theorem slotFloor_pos_iff {g : Layout} {level : Int64} (hlevel : 0 ≤ level.toInt) :
    0 < g.slotFloor level ↔ g.number level.toInt.toNat ≠ 0 := by
  have hmono := g.start_strictMono.lt_iff_lt (a := 0) (b := g.number level.toInt.toNat)
  rw [start_zero] at hmono
  rw [Int64.lt_iff_toInt_lt, toInt_slotFloor_of_nonneg g hlevel, Int64.toInt_zero]
  omega

/-- What a level takes in are the slots that a walk enters on its way to it. -/
theorem takenIn_eq_range {g : Layout} {level : Int64} (hlevel : 0 ≤ level.toInt) :
    g.takenIn level = Finset.range (g.upTo level) := by
  rw [takenIn, upTo]
  -- A level inside slot 0 takes in nothing; above it, the slots up to its own.
  by_cases hfirst : g.number level.toInt.toNat = 0
  · have hnone : ¬ 0 < g.slotFloor level := by
      rw [slotFloor_pos_iff hlevel]
      exact fun h => h hfirst
    rw [if_neg hnone, if_pos hfirst, Finset.range_zero]
  · rw [if_pos ((slotFloor_pos_iff hlevel).2 hfirst), if_neg hfirst]
    -- Slots are in the order of where they begin.
    ext i
    rw [slotsUpTo, Finset.mem_filter, Finset.mem_range, Finset.mem_range, Int64.le_iff_toInt_le,
      toInt_slotFloor_of_nonneg g hlevel]
    constructor
    · rintro ⟨hi, hle⟩
      rw [toInt_valueAt (start_lt_of_lt_slotCount hi), Int.ofNat_le,
        g.start_strictMono.le_iff_le] at hle
      omega
    · intro hi
      have hcount : i < g.slotCount := by omega
      refine ⟨hcount, ?_⟩
      rw [toInt_valueAt (start_lt_of_lt_slotCount hcount), Int.ofNat_le,
        g.start_strictMono.le_iff_le]
      omega

end Layout

namespace Cursor

/-- A report shows the counts of the slots that its level takes in, and adds
those that the level before did not. -/
theorem OnLevels.reading_eq {h : Histogram} {c c' : Cursor} (hc : c.OnLevels h)
    (hadvance : c.advance h = (true, c')) :
    c.plan.level? = some c'.reading.reached ∧
    c'.reading.reachedBefore = c.reading.reached ∧
    c'.reading.cumulative
      = min Tally.limit (∑ i ∈ h.layout.takenIn c'.reading.reached, h.countAt i) ∧
    c'.reading.added = ∑ i ∈ h.layout.takenIn c'.reading.reached
      \ h.layout.takenIn c'.reading.reachedBefore, h.countAt i := by
  obtain ⟨level, hlevel, -, hc', hreports, -⟩ := hc.reports hadvance
  have hreached : c'.reading.reached = level := hreports.reached_eq
  have hbefore : c'.reading.reachedBefore = c.walk.reading.reached := hreports.reachedBefore_eq
  -- On both sides of the call, what the level takes in are the slots entered so far.
  have htaken : h.layout.takenIn c'.reading.reached = Finset.range (c'.walk.seen h) := by
    rw [hc'.seen_eq]
    exact Layout.takenIn_eq_range hc'.reached_nonneg
  have htakenBefore : h.layout.takenIn c'.reading.reachedBefore
      = Finset.range (c.walk.seen h) := by
    rw [hc.seen_eq, hbefore]
    exact Layout.takenIn_eq_range hc.reached_nonneg
  refine ⟨hreached ▸ hlevel, hbefore, ?_, ?_⟩
  · rw [htaken]
    exact hc'.sound.cumulative_eq
  · -- Those that are entered by the call are the difference of the two ranges.
    have hentered : Finset.range (c'.walk.seen h) \ Finset.range (c.walk.seen h)
        = Finset.Ico (c.walk.seen h) (c'.walk.seen h) := by
      ext i
      rw [Finset.mem_sdiff, Finset.mem_range, Finset.mem_range, Finset.mem_Ico]
      omega
    rw [htaken, htakenBefore, hentered]
    exact hreports.added_eq

/-- What a cursor of value levels shows after each report. The report is of the
next level of its plan and starts where the one before it ended, and

1. for a level above the first slot, the cumulative count is that of the slots
   up to the slot of the level, cut off at the limit;
2. for a level in the first slot, it is 0;
3. the report adds the counts of the slots that its level takes in and the
   level before it did not. -/
theorem level_reading (h : Histogram) (rule : LevelRule) (n : Nat) (c' : Cursor)
    (hadvance : ((start rule.plan).called h n).advance h = (true, c')) :
    let g := h.layout
    let c := (start rule.plan).called h n
    let r := c'.reading
    c.plan.level? = some r.reached ∧ r.reachedBefore = c.reading.reached ∧
    (0 < g.slotFloor r.reached →
      r.cumulative = min Tally.limit (∑ i ∈ g.slotsUpTo r.reached, h.countAt i)) ∧
    (g.slotFloor r.reached = 0 → r.cumulative = 0) ∧
    r.added = ∑ i ∈ g.takenIn r.reached \ g.takenIn r.reachedBefore, h.countAt i := by
  intro g c r
  obtain ⟨hlevel, hbefore, hcumulative, hadded⟩ :=
    (onLevels_called h rule n).reading_eq hadvance
  refine ⟨hlevel, hbefore, ?_, ?_, hadded⟩
  · intro habove
    rw [Layout.takenIn, if_pos habove] at hcumulative
    exact hcumulative
  · intro hfirst
    have hnone : ¬ 0 < g.slotFloor r.reached := by
      rw [hfirst]
      exact Int64.lt_irrefl
    rw [Layout.takenIn, if_neg hnone, Finset.sum_empty, Nat.min_zero] at hcumulative
    exact hcumulative

/-- The slot of a value is among those up to a level if it begins no higher. -/
theorem mem_slotsUpTo {g : Layout} {v level : Int64} {i : Nat} (hslot : g.slot? v = some i)
    (hle : g.valueAt i ≤ g.slotFloor level) : i ∈ g.slotsUpTo level := by
  rw [Layout.slotsUpTo, Finset.mem_filter, Finset.mem_range]
  exact ⟨Layout.slot?_lt_slotCount hslot, hle⟩

/-- A value in the first slot, seen by a level above it. -/
theorem level_reading_one_record :
    ∃ layout, Layout.make 1000 10000000 2 = .ok layout ∧
      let h := (Histogram.empty layout 0).after [.record 1 1]
      ∃ c', ((start (LevelRule.linear 1000).plan).called h 0).advance h = (true, c') ∧
        c'.reading.reached = 1000 ∧ c'.reading.cumulative = 1 ∧ c'.reading.added = 1 := by
  obtain ⟨layout, hmake, hslot, hpos, hle⟩ :
      ∃ g, Layout.make 1000 10000000 2 = .ok g ∧ g.slot? 1 = some 0 ∧
        0 < g.slotFloor 1000 ∧ g.valueAt 0 ≤ g.slotFloor 1000 :=
    Layout.exists_make_ok (by decide)
  let h := (Histogram.empty layout 0).after [.record 1 1]
  have htotal : h.total = 1 := Histogram.total_after_record layout 0 hslot
  have hlayout : h.layout = layout := Histogram.layout_after_empty layout 0 _
  have hsum := Histogram.sum_countAt_after_record layout 0 hslot (layout.slotsUpTo 1000)
  -- The one record is in a slot that level 1000 takes in.
  rw [if_pos (mem_slotsUpTo hslot hle)] at hsum
  obtain ⟨c', hadvance⟩ :=
    (onLevels_called h (.linear 1000) 0).exists_report rfl (by rw [htotal]; exact Nat.one_pos)
  obtain ⟨hlevel, hbefore, hcumulative, -, hadded⟩ := level_reading h (.linear 1000) 0 c' hadvance
  have hreached : c'.reading.reached = 1000 := (Option.some.inj hlevel).symm
  have hzero : c'.reading.reachedBefore = 0 := hbefore
  have hnone : layout.takenIn 0 = ∅ := by
    rw [Layout.takenIn_eq_range (by decide), Layout.upTo_zero, Finset.range_zero]
  rw [hreached, hlayout] at hcumulative
  rw [hreached, hzero, hlayout, hnone, Finset.sdiff_empty, Layout.takenIn, if_pos hpos] at hadded
  refine ⟨layout, hmake, c', hadvance, hreached, ?_, hadded.trans hsum⟩
  rw [hcumulative hpos, hsum]
  decide

/-- A level inside the first slot does not take in the value that was recorded
there. -/
theorem level_in_first_slot :
    ∃ layout, Layout.make 1000 10000000 2 = .ok layout ∧
      let h := (Histogram.empty layout 0).after [.record 1 1]
      h.countAt 0 = 1 ∧ layout.valueAt 0 ≤ layout.slotFloor 100 ∧
        ∃ c', (start (LevelRule.linear 100).plan).advance h = (true, c') ∧
          c'.reading.reached = 100 ∧ c'.reading.cumulative = 0 ∧ c'.reading.added = 0 := by
  obtain ⟨layout, hmake, hslot, hfloor⟩ :
      ∃ g, Layout.make 1000 10000000 2 = .ok g ∧ g.slot? 1 = some 0 ∧ g.slotFloor 100 = 0 :=
    Layout.exists_make_ok (by decide)
  let h := (Histogram.empty layout 0).after [.record 1 1]
  have htotal : h.total = 1 := Histogram.total_after_record layout 0 hslot
  have hlayout : h.layout = layout := Histogram.layout_after_empty layout 0 _
  have hc := onLevels_called h (.linear 100) 0
  obtain ⟨c', hadvance⟩ := hc.exists_report rfl (by rw [htotal]; exact Nat.one_pos)
  obtain ⟨hlevel, -, hcumulative, hadded⟩ := hc.reading_eq hadvance
  have hreached : c'.reading.reached = 100 := (Option.some.inj hlevel).symm
  have hnone : layout.takenIn 100 = ∅ := by
    rw [Layout.takenIn, hfloor, if_neg (by decide)]
  rw [hreached, hlayout, hnone, Finset.sum_empty] at hcumulative
  rw [hreached, hlayout, hnone, Finset.empty_sdiff, Finset.sum_empty] at hadded
  -- The slot holds the record, and the level is in that slot all the same.
  refine ⟨layout, hmake, ?_, ?_, c', hadvance, hreached, hcumulative, hadded⟩
  · exact Histogram.countAt_after_record layout 0 hslot 0
  · rw [Layout.valueAt_zero, hfloor]
    exact Int64.le_refl 0

/-! ### All reports of a run -/

/-- What the reports of a run along value levels have added when the call after
`n` others ends it, as long as all slots together count no more than can be
counted.

1. No report has added more than that, so every sum of counts is exact.
2. If the last call made no report, nothing was left: the reports have added the
   total.
3. If it made one, the level after that one is not a word any more, and the
   reports have added the counts of the slots up to the slot of the last level,
   when that is not the first slot. -/
theorem added_covers_total (layout : Layout) (offset : Nat) (events : List Event)
    (rule : LevelRule) (n : Nat) :
    let h := (Histogram.empty layout offset).after events
    let c := (start rule.plan).called h n
    let readings := (start rule.plan).readings h (n + 1)
    let added := (readings.map Reading.added).sum
    let level := (c.advance h).2.reading.reached
    ∑ i ∈ Finset.range layout.slotCount, h.countAt i ≤ Tally.limit →
    c.exhausted = false → (c.advance h).2.exhausted = true →
    (∀ r ∈ readings, r.added ≤ Tally.limit) ∧
    ((c.advance h).1 = false → added = h.total) ∧
    ((c.advance h).1 = true → c.plan.LeavesWords ∧
      (0 < layout.slotFloor level →
        added = ∑ i ∈ layout.slotsUpTo level, h.countAt i)) := by
  intro h c readings added level hlimit hlive hend
  have hlayout : h.layout = layout := Histogram.layout_after_empty layout offset events
  have hc : c.OnLevels h := onLevels_called h rule n
  -- All reports together have added the counts of the slots that were entered.
  have hadded : ∑ i ∈ Finset.range ((c.advance h).2.walk.seen h), h.countAt i = added := by
    have hsum := (onLevels_start h (rule.climbs h.layout)).sum_added (n + 1)
    have hseen : (start rule.plan).walk.seen h = 0 := Walk.seen_start h
    rw [called_succ, hseen, Finset.range_zero, Finset.sum_empty, Nat.zero_add] at hsum
    exact hsum
  have hseen : (c.advance h).2.walk.seen h ≤ layout.slotCount := by
    rw [← hlayout, ← h.slotCount_eq]
    exact Walk.seen_le h _
  have hahead := Finset.sum_range_add_sum_Ico h.countAt hseen
  refine ⟨?_, ?_⟩
  · -- One report adds no more than all of them, which is no more than there is.
    intro r hr
    have hone : r.added ≤ added :=
      List.single_le_sum (fun _ _ => Nat.zero_le _) _ (List.mem_map_of_mem hr)
    omega
  obtain ⟨next, hnext, -⟩ := hc.climbs.exists_level
  -- The call that exhausts the cursor reports a level without a next one, or finds no
  -- counts ahead.
  rcases hc.advance_cases hlive hnext with
    ⟨-, c', heq, hc', -, hstep, -⟩ | ⟨-, c', heq, hc', hrests, -⟩
  · rw [heq] at hend hadded
    refine ⟨fun hfalse => ?_, fun _ => ⟨?_, fun habove => ?_⟩⟩
    · rw [heq] at hfalse
      exact absurd hfalse (by simp)
    · rw [← hc.climbs.step?_eq_none_iff, ← Option.isNone_iff_eq_none, ← hstep]
      exact hend
    · have htaken := Layout.takenIn_eq_range (g := layout) hc'.reached_nonneg
      have hlevel : level = c'.walk.reading.reached := by
        show (c.advance h).2.reading.reached = _
        rw [heq]
        rfl
      rw [← hlevel, Layout.takenIn, if_pos habove] at htaken
      rw [htaken, ← hadded, hc'.seen_eq, hlayout, ← hlevel]
  · rw [heq] at hadded hahead
    dsimp only at hadded hahead
    refine ⟨fun _ => ?_, fun htrue => ?_⟩
    · -- The capped sum of the counts entered is the capped sum of all, and
      -- nothing was cut off.
      have htotal : h.total = h.countBelow layout.slotCount := by
        rw [← hlayout]
        exact (Histogram.holds_accepted layout offset events).total_eq_countBelow
      have hall := hrests.total_le
      rw [hc'.sound.cumulative_eq, htotal, Histogram.countBelow, Histogram.countBelow] at hall
      rw [htotal, Histogram.countBelow, ← hadded]
      omega
    · rw [heq] at htrue
      exact absurd htrue (by simp)

/-- Two runs over several values that were recorded more than once. Along thousands,
three calls report all counts and the fourth finds nothing left. Along quarters of the
words, the third call reports the last level that is a word, and the counts above the
slot of that one are not added. -/
theorem added_covers_total_two_runs :
    (∃ layout, Layout.make 1000 10000000 2 = .ok layout ∧
      let h := (Histogram.empty layout 0).after
        [.record 1 3, .record 2500 4, .record 1 1, .record 700 2]
      let c := start (LevelRule.linear 1000).plan
      (c.called h 3).exhausted = false ∧ ((c.called h 3).advance h).1 = false ∧
        h.total = 10 ∧ ((c.readings h 4).map Reading.added).sum = 10) ∧
    ∃ layout, Layout.make 1 Int64.maxValue 1 = .ok layout ∧
      let h := (Histogram.empty layout 0).after
        [.record 5 2, .record 9223372036854775806 4, .record 4611686018427387905 3,
          .record 5 1, .record 6917529027641081861 1]
      let c := start (LevelRule.linear 2305843009213693952).plan
      ((c.called h 2).advance h).1 = true ∧ ((c.called h 2).advance h).2.exhausted = true ∧
        h.total = 11 ∧ ((c.readings h 3).map Reading.added).sum = 7 := by
  constructor
  · obtain ⟨layout, hmake, hkept, htwo, hupTo, hlt, hbefore, hthree⟩ :
        ∃ g, Layout.make 1000 10000000 2 = .ok g ∧
          g.samplesOf [.record 1 3, .record 2500 4, .record 1 1, .record 700 2]
            = [(1, 3), (2500, 4), (1, 1), (700, 2)] ∧
          g.number 2000 = 3 ∧ g.upTo 3000 = 6 ∧ g.number 3000 < g.number 4000 ∧
          weight (g.below 4) [(1, 3), (2500, 4), (1, 1), (700, 2)] = 6 ∧
          weight (g.below 6) [(1, 3), (2500, 4), (1, 1), (700, 2)] = 10 :=
      Layout.exists_make_ok (by decide)
    let h := (Histogram.empty layout 0).after
      [.record 1 3, .record 2500 4, .record 1 1, .record 700 2]
    have hlayout : h.layout = layout := Histogram.layout_after_empty layout 0 _
    have hs : h.Holds _ := Histogram.holds_of_samplesOf layout 0 hkept
    have htotal : h.total = 10 := hs.total_eq
    -- After two calls the counts of 2500 are still ahead.
    have hahead : h.countBelow (h.layout.number 2000 + 1) < h.total := by
      refine hs.countBelow_lt_total (by decide) ?_
      rw [hlayout, htwo, hbefore]
      decide
    obtain ⟨hat, -, hreport⟩ := atMultiple_of_ahead (h := h) (n := 2)
      (by decide : 1 ≤ (1000 : Int64).toInt) (by decide) hahead
    let c := (start (LevelRule.linear 1000).plan).called h 3
    have hc : c.AtMultiple h 1000 3 := (hat.report hreport).1
    have hreached : c.reading.reached = 3000 := Int64.toInt_inj.1 hc.reached_eq
    have hlive : c.exhausted = false := by
      rw [← Bool.not_eq_true]
      exact mt (hat.exhausted_report_iff hreport).1 (by decide)
    -- The third one has shown them, and 4000 is in a slot of its own.
    have hall : h.total ≤ c.reading.cumulative := by
      rw [hc.onLevels.cumulative_eq, hreached, hlayout, hupTo, hs.countBelow_eq, hlayout, hthree,
        htotal]
      decide
    have hnone : (c.advance h).1 = false := by
      obtain ⟨level, hplan, hvalue⟩ := hc.level_eq hlive
      obtain rfl : level = 4000 := Int64.toInt_inj.1 hvalue
      refine hc.onLevels.no_report_of_number_lt hlive (congrArg Plan.level? hplan) hall ?_
      rw [hreached, hlayout]
      exact hlt
    have hend : (c.advance h).2.exhausted = true :=
      (advance_reports_or_exhausts h c).resolve_left (by rw [hnone]; exact Bool.false_ne_true)
    have hcover := (added_covers_total layout 0 _ (.linear 1000) 3
      (hs.sum_countAt_range_le (by decide) _) hlive hend).2.1 hnone
    exact ⟨layout, hmake, hlive, hnone, htotal, hcover.trans htotal⟩
  · obtain ⟨layout, hmake, hkept, htwo, hupTo, hpos, hbefore, hthree⟩ :
        ∃ g, Layout.make 1 Int64.maxValue 1 = .ok g ∧
          g.samplesOf [.record 5 2, .record 9223372036854775806 4,
              .record 4611686018427387905 3, .record 5 1, .record 6917529027641081861 1]
            = [(5, 2), (9223372036854775806, 4), (4611686018427387905, 3), (5, 1),
              (6917529027641081861, 1)] ∧
          g.number 4611686018427387904 = 944 ∧ g.upTo 6917529027641081856 = 953 ∧
          0 < g.slotFloor 6917529027641081856 ∧
          weight (g.below 945) [(5, 2), (9223372036854775806, 4), (4611686018427387905, 3),
            (5, 1), (6917529027641081861, 1)] = 6 ∧
          weight (g.below 953) [(5, 2), (9223372036854775806, 4), (4611686018427387905, 3),
            (5, 1), (6917529027641081861, 1)] = 7 :=
      Layout.exists_make_ok (by decide)
    let h := (Histogram.empty layout 0).after
      [.record 5 2, .record 9223372036854775806 4, .record 4611686018427387905 3,
        .record 5 1, .record 6917529027641081861 1]
    have hlayout : h.layout = layout := Histogram.layout_after_empty layout 0 _
    have hs : h.Holds _ := Histogram.holds_of_samplesOf layout 0 hkept
    have htotal : h.total = 11 := hs.total_eq
    -- After two quarters there are counts ahead, so the third one is reported.
    have hahead : h.countBelow (h.layout.number 4611686018427387904 + 1) < h.total := by
      refine hs.countBelow_lt_total (by decide) ?_
      rw [hlayout, htwo, hbefore]
      decide
    obtain ⟨hat, hlive, hreport⟩ := atMultiple_of_ahead (h := h) (n := 2)
      (by decide : 1 ≤ (2305843009213693952 : Int64).toInt) (by decide) hahead
    let c := (start (LevelRule.linear 2305843009213693952).plan).called h 2
    have hc : (c.advance h).2.AtMultiple h 2305843009213693952 3 := (hat.report hreport).1
    have hreached : (c.advance h).2.reading.reached = 6917529027641081856 :=
      Int64.toInt_inj.1 hc.reached_eq
    -- Four quarters are not a word.
    have hend : (c.advance h).2.exhausted = true := (hat.exhausted_report_iff hreport).2 (by decide)
    have hcover := ((added_covers_total layout 0 _ (.linear 2305843009213693952) 2
      (hs.sum_countAt_range_le (by decide) _) hlive hend).2.2 hreport).2
    have htaken := Layout.takenIn_eq_range (g := layout)
      (by decide : 0 ≤ (6917529027641081856 : Int64).toInt)
    rw [Layout.takenIn, if_pos hpos, hupTo] at htaken
    rw [hreached, htaken, hs.sum_countAt_range (by decide), hlayout, hthree] at hcover
    exact ⟨layout, hmake, hreport, hend, htotal, hcover hpos⟩

/-- A count in the highest slot is left out by a run along a level of half the
words, for the level after that one is not a word. -/
theorem added_leaves_out :
    ∃ layout, Layout.make 1 Int64.maxValue 1 = .ok layout ∧
      let h := (Histogram.empty layout 0).after [.record 9223372036854775806 1]
      let c := start (LevelRule.linear 4611686018427387904).plan
      (c.called h 1).exhausted = true ∧ h.total = 1 ∧
        ∑ i ∈ Finset.range layout.slotCount, h.countAt i ≤ Tally.limit ∧
        ((c.readings h 1).map Reading.added).sum = 0 := by
  obtain ⟨layout, hmake, hslot, hlevelSlot⟩ :
      ∃ g, Layout.make 1 Int64.maxValue 1 = .ok g ∧
        g.slot? 9223372036854775806 = some 959 ∧ g.slot? 4611686018427387904 = some 944 :=
    Layout.exists_make_ok (by decide)
  let h := (Histogram.empty layout 0).after [.record 9223372036854775806 1]
  have htotal : h.total = 1 := Histogram.total_after_record layout 0 hslot
  have hlayout : h.layout = layout := Histogram.layout_after_empty layout 0 _
  have hc := onLevels_called h (.linear 4611686018427387904) 0
  obtain ⟨c', hadvance⟩ := hc.exists_report rfl (by rw [htotal]; exact Nat.one_pos)
  obtain ⟨level, hlevel, -, hc', hreports, hexhausted, -⟩ := hc.reports hadvance
  obtain rfl : (4611686018427387904 : Int64) = level := Option.some.inj hlevel
  have hcalled : (start (LevelRule.linear 4611686018427387904).plan).called h 1 = c' :=
    congrArg Prod.snd hadvance
  refine ⟨layout, hmake, ?_, htotal, ?_, ?_⟩
  · rw [hcalled, hexhausted]
    rfl
  · rw [Histogram.sum_countAt_after_record layout 0 hslot]
    split <;> decide
  · -- The slots entered end below the one that holds the value.
    have hseen : c'.walk.seen h ≤ 945 := by
      rw [hc'.seen_eq, hreports.reached_eq, hlayout, Layout.upTo,
        Layout.number_of_slot? hlevelSlot, if_neg (by decide)]
      omega
    have hnone : 959 ∉ Finset.range (c'.walk.seen h) := by
      rw [Finset.mem_range]
      omega
    have hzero : ∑ i ∈ Finset.range (c'.walk.seen h), h.countAt i = 0 :=
      (Histogram.sum_countAt_after_record layout 0 hslot _).trans (if_neg hnone)
    have hstart := onLevels_start h
      ((LevelRule.linear 4611686018427387904).climbs h.layout)
    have hsum := hstart.sum_added 1
    rw [hcalled, hzero] at hsum
    show (((start (LevelRule.linear 4611686018427387904).plan).readings h 1).map
      Reading.added).sum = 0
    omega

end Cursor

end LogBuckets
