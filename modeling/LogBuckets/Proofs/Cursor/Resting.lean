import LogBuckets.Proofs.Cursor.Levels
import LogBuckets.Proofs.Cursor.Position
import LogBuckets.Proofs.Histogram.Ends

/-!
# `LogBuckets.Proofs.Cursor.Resting`: value levels and the slot in view

After every call a cursor of value levels rests: before the first slot, on a
slot, or past the last one. `Walk.index` is the number of the place. Here the
reports are read off the places where the cursor rests before and after them.

* `added_between_rests`: a report adds the counts of the slots after the one
  place up to the other, so that all reports of a run have added the counts of
  the slots up to where the cursor rests. No slot is lost between two reports
  and none is taken twice. A call without a report is made when the total is in
  view;
* `reports_iff_slot_in_view`: when the total is in view, the levels that are
  left are those in the slot in view. The value of the slot that comes next
  decides it, and the last slot of a layout that covers all words has none:
  levels in that slot are not reported any more
  (`level_in_last_slot_not_reported`).
-/

set_option autoImplicit false

namespace LogBuckets

/-! ### From place to place -/

/-- The slots after place `a` up to and including place `b`. The place before the
first slot is -1, and the place past the last one is the number of slots. -/
def Layout.slotsBetween (g : Layout) (a b : Int) : Finset Nat :=
  (Finset.range g.slotCount).filter fun i => a < i ∧ i ≤ b

/-- The slots between two places are those that a walk enters on its way. -/
theorem Walk.slotsBetween_index (h : Histogram) (w w' : Walk) :
    h.layout.slotsBetween w.index w'.index = Finset.Ico (w.seen h) (w'.seen h) := by
  ext i
  rw [Layout.slotsBetween, Finset.mem_filter, Finset.mem_range, Finset.mem_Ico, index, index,
    seen, seen, h.slotCount_eq]
  omega

namespace Cursor

variable {h : Histogram} {c : Cursor}

/-- What the reports of a run along value levels add, for the call after `n` others:

1. if it makes a report, that adds the counts of the slots after the place where
   the cursor rested up to the place where it rests now;
2. the reports before it have added the counts of all slots up to the place where
   the cursor rested;
3. if it finds that no report is left, the total is in view. -/
theorem added_between_rests (layout : Layout) (offset : Nat) (events : List Event)
    (rule : LevelRule) (n : Nat) :
    let h := (Histogram.empty layout offset).after events
    let c := (start rule.plan).called h n
    let c' := (c.advance h).2
    ((c.advance h).1 = true → c'.reading.added
      = ∑ i ∈ layout.slotsBetween c.walk.index c'.walk.index, h.countAt i) ∧
    (((start rule.plan).readings h n).map Reading.added).sum
      = ∑ i ∈ layout.slotsBetween (-1) c.walk.index, h.countAt i ∧
    (c.exhausted = false → (c.advance h).1 = false → c'.reading.cumulative = h.total) := by
  intro h c c'
  have hlayout : h.layout = layout := Histogram.layout_after_empty layout offset events
  have hc : c.OnLevels h := onLevels_called h rule n
  refine ⟨fun hreport => ?_, ?_, fun hlive hnone => ?_⟩
  · obtain ⟨level, -, -, -, hreports, -⟩ := hc.reports (Prod.ext hreport rfl)
    rw [← hlayout, Walk.slotsBetween_index]
    exact hreports.added_eq
  · -- A run starts at place -1, where no slot has been entered.
    have hsum := (onLevels_start h (rule.climbs h.layout)).sum_added n
    have hseen : (start rule.plan).walk.seen h = 0 := Walk.seen_start h
    have hbetween := Walk.slotsBetween_index h (start rule.plan).walk c.walk
    rw [hseen, ← Finset.range_eq_Ico] at hbetween
    rw [hseen, Finset.range_zero, Finset.sum_empty, Nat.zero_add, ← hbetween, hlayout] at hsum
    exact hsum.symm
  · obtain ⟨level, hlevel, -⟩ := hc.climbs.exists_level
    have htotal := Histogram.total_eq_countBelow_slotCount layout offset events
    -- The call that finds nothing has left the sum in view at the total.
    rcases hc.advance_cases hlive hlevel with ⟨-, c'', heq, -⟩ | ⟨-, c'', heq, hc'', hrests, -⟩
    · rw [heq] at hnone
      exact absurd hnone (by simp)
    · show (c.advance h).2.reading.cumulative = h.total
      rw [heq]
      exact Nat.le_antisymm (hc''.sound.cumulative_le htotal) hrests.total_le

/-! ### Levels left once the total is in view -/

/-- The levels that are left are those in the slot in view, if the slot after it
begins inside the words. -/
theorem OnLevels.reports_iff_of_total (hc : c.OnLevels h) (hlive : c.exhausted = false)
    {level : Int64} (hlevel : c.plan.level? = some level) {i : Nat} (hindex : c.walk.index = i)
    (htotal : c.reading.cumulative = h.total) :
    (c.advance h).1 = true ↔
      h.layout.slot? level = some i ∧ h.layout.start (i + 1) < 2 ^ 63 := by
  obtain ⟨_, hsame, hpos⟩ := hc.climbs.exists_level
  obtain rfl := Option.some.inj (hlevel.symm.trans hsame)
  have hnonneg : 0 ≤ level.toInt := by omega
  have hnext : c.walk.next = i + 1 := by
    rw [Walk.index] at hindex
    omega
  rw [hc.reports_iff_of_total_le hlive hlevel (Nat.le_of_eq htotal.symm), hnext, h.slotCount_eq]
  constructor
  · rintro ⟨hi, hbelow, hword⟩
    -- The level is not in a slot below that of the level before it, which is in view.
    have hreached : i + 1 = h.layout.upTo c.walk.reading.reached := by
      rw [← hc.seen_eq, Walk.seen, hnext, h.slotCount_eq]
      omega
    have hle := h.layout.upTo_le c.walk.reading.reached
    have hmono := hc.le_level level hlevel
    have hnumber : h.layout.number level.toInt.toNat = i := by omega
    refine ⟨?_, hword⟩
    rw [Layout.slot?_of_nonneg h.layout hnonneg, hnumber, if_pos (by omega)]
  · rintro ⟨hslot, hword⟩
    have hnumber := Layout.number_of_slot? hslot
    -- The level is in the slot in view, so it is not past it.
    have hi := Layout.slot?_lt_slotCount hslot
    exact ⟨hi, by omega, hword⟩

/-- A report of a level in the slot in view adds nothing and goes nowhere. -/
theorem OnLevels.walk_advance_of_slot (hc : c.OnLevels h) (hlive : c.exhausted = false)
    {level : Int64} (hlevel : c.plan.level? = some level) {i : Nat} (hindex : c.walk.index = i)
    (hslot : h.layout.slot? level = some i) (hreport : (c.advance h).1 = true) :
    (c.advance h).2.walk
      = { c.walk with reading := { c.walk.reading.report level with added := 0 } } := by
  have hi := Layout.slot?_lt_slotCount hslot
  have hseen : c.walk.seen h = i + 1 := by
    rw [Walk.index] at hindex
    rw [Walk.seen, h.slotCount_eq]
    omega
  have hguard := hc.advance_fst hlive hlevel
  rw [hreport] at hguard
  -- The slot of the level has been entered, so the loop ends at once.
  have hmoved := Walk.toLevel_of_le (Layout.nonneg_of_slot? hslot) hc.sound
    (by rw [Layout.number_of_slot? hslot, hseen]; omega) hguard.symm
  rw [advance_of_level hlevel hlive, walk_conclude, hmoved]

/-! ### The first call -/

/-- The first call goes to the slot of its level, if that is not the first slot and
anything was recorded. -/
theorem called_one {rule : LevelRule} (htotal : 0 < h.total) {level level' : Int64}
    (hlevel : rule.plan.level? = some level) {j : Nat} (hj : h.layout.slot? level = some j)
    (hpos : 0 < j) (hnext : rule.plan.step?.bind Plan.level? = some level') :
    let c := (start rule.plan).called h 1
    c.exhausted = false ∧ c.plan.level? = some level' ∧ c.walk.index = j ∧
      c.walk.seen h = j + 1 ∧ c.walk.Sound h := by
  intro c
  have hlast := Layout.slot?_lt_slotCount hj
  rw [← h.slotCount_eq] at hlast
  have hstart := onLevels_called h rule 0
  obtain ⟨c', hreport⟩ := hstart.exists_report rfl htotal
  obtain ⟨level₀, hlevel₀, -, hc', hreports, hexhausted, hplan⟩ := hstart.reports hreport
  obtain rfl : level = level₀ := Option.some.inj (hlevel.symm.trans hlevel₀)
  obtain rfl : c = c' := congrArg Prod.snd hreport
  obtain ⟨plan', hstep, hlevel'⟩ := Option.bind_eq_some_iff.1 hnext
  -- The first call enters all slots up to that of its level.
  have hseen : c.walk.seen h = j + 1 := by
    have hstart : Walk.seen h {} = 0 := Walk.seen_start h
    rw [hreports.seen_eq, Layout.upTo, Layout.number_of_slot? hj, if_neg (by omega),
      ← h.slotCount_eq]
    show max (Walk.seen h {}) (min h.slotCount (j + 1)) = j + 1
    omega
  -- There is such a slot, so the walk has not gone past the last one and its place is the
  -- number of slots seen, less one.
  have hinside : c.walk.next ≤ h.slotCount := by
    have hmoved : c.walk = (Walk.toLevel h level {}).2 := by
      show ((start rule.plan).advance h).2.walk = _
      rw [advance_of_level hlevel rfl, walk_conclude]
      rfl
    rw [hmoved]
    exact Walk.next_toLevel_le hj (Walk.sound_start h) (Nat.zero_le _)
  refine ⟨?_, ?_, ?_, hseen, hc'.sound⟩
  · rw [hexhausted]
    show rule.plan.step?.isNone = false
    rw [hstep]
    rfl
  · rw [hplan]
    show (rule.plan.step?.getD rule.plan).level? = some level'
    rw [hstep]
    exact hlevel'
  · rw [Walk.seen] at hseen
    rw [Walk.index]
    omega

/-- With one value recorded, which is not above the slot of the first level, the total is
in view after the first call. -/
theorem called_one_after_record (layout : Layout) (offset : Nat) (rule : LevelRule)
    {v : Int64} {i j : Nat} {level level' : Int64} (hslot : layout.slot? v = some i)
    (hlevel : rule.plan.level? = some level) (hj : layout.slot? level = some j) (hij : i ≤ j)
    (hpos : 0 < j) (hnext : rule.plan.step?.bind Plan.level? = some level') :
    let h := (Histogram.empty layout offset).after [.record v 1]
    let c := (start rule.plan).called h 1
    c.exhausted = false ∧ c.plan.level? = some level' ∧ c.walk.index = j ∧
      c.reading.cumulative = h.total := by
  intro h c
  have htotal : h.total = 1 := Histogram.total_after_record layout offset hslot
  have hlayout : h.layout = layout := Histogram.layout_after_empty layout offset _
  rw [← hlayout] at hj
  obtain ⟨hlive, hlevel', hindex, hseen, hs⟩ :=
    called_one (h := h) (by rw [htotal]; exact Nat.one_pos) hlevel hj hpos hnext
  -- The one record is in slot `i`, which is among those seen.
  have hone : ∑ k ∈ Finset.range (j + 1), h.countAt k = 1 := by
    rw [Histogram.sum_countAt_after_record layout offset hslot,
      if_pos (Finset.mem_range.2 (by omega))]
  have hcumulative : c.walk.reading.cumulative = h.countBelow (c.walk.seen h) := hs.cumulative_eq
  refine ⟨hlive, hlevel', hindex, ?_⟩
  show c.walk.reading.cumulative = h.total
  rw [hcumulative, hseen, Histogram.countBelow, hone, htotal]
  decide

/-! ### After the last counts -/

/-- What a cursor of value levels does once the total is in view, when it rests on
slot number `i` and is not exhausted:

1. the next level is reported exactly if it is in slot `i` and the slot after that
   begins inside the words. It does, but for the last slot of a layout that covers
   all words;
2. such a report adds nothing and does not move the cursor: of all that it shows,
   only the two levels change. -/
theorem reports_iff_slot_in_view (layout : Layout) (offset : Nat) (events : List Event)
    (rule : LevelRule) (n : Nat) (level : Int64) (i : Nat) :
    let h := (Histogram.empty layout offset).after events
    let c := (start rule.plan).called h n
    c.exhausted = false → c.plan.level? = some level → c.walk.index = i →
    c.reading.cumulative = h.total →
    ((c.advance h).1 = true ↔
      layout.slot? level = some i ∧ (i + 1 < layout.slotCount ∨ layout.bound < 2 ^ 63)) ∧
    ((c.advance h).1 = true → (c.advance h).2.walk
      = { c.walk with reading := { c.walk.reading.report level with added := 0 } }) := by
  intro h c hlive hlevel hindex htotal
  have hlayout : h.layout = layout := Histogram.layout_after_empty layout offset events
  have hc : c.OnLevels h := onLevels_called h rule n
  have hiff := hc.reports_iff_of_total hlive hlevel hindex htotal
  rw [hlayout] at hiff
  constructor
  · rw [hiff]
    exact and_congr_right fun hslot =>
      Layout.start_succ_lt_iff (Layout.slot?_lt_slotCount hslot)
  · intro hreport
    have hslot := (hiff.1 hreport).1
    rw [← hlayout] at hslot
    exact hc.walk_advance_of_slot hlive hlevel hindex hslot hreport

/-- Two levels in the slot from 512 to 1023, above the slot of the only value. -/
theorem reports_iff_slot_in_view_one_record :
    ∃ layout, Layout.make 1000 10000000 2 = .ok layout ∧
      let h := (Histogram.empty layout 0).after [.record 1 1]
      let c := (start (LevelRule.log 600 1.25).plan).called h 1
      c.exhausted = false ∧ c.plan.level? = some 750 ∧ c.walk.index = 1 ∧
        c.reading.cumulative = h.total ∧ (c.advance h).1 = true ∧
        (c.advance h).2.walk
          = { c.walk with reading := { c.walk.reading.report 750 with added := 0 } } := by
  obtain ⟨layout, hmake, hslot, hfirst, hsecond, hmore⟩ :
      ∃ g, Layout.make 1000 10000000 2 = .ok g ∧ g.slot? 1 = some 0 ∧ g.slot? 600 = some 1 ∧
        g.slot? 750 = some 1 ∧ 1 + 1 < g.slotCount :=
    Layout.exists_make_ok (by decide)
  have hnext : (LevelRule.log 600 1.25).plan.step?.bind Plan.level? = some 750 := by decide
  obtain ⟨hlive, hlevel, hindex, htotal⟩ := called_one_after_record layout 0
    (.log 600 1.25) hslot rfl hfirst (Nat.zero_le 1) Nat.one_pos hnext
  obtain ⟨hiff, hwalk⟩ := reports_iff_slot_in_view layout 0 [.record 1 1] (.log 600 1.25) 1 750 1
    hlive hlevel hindex htotal
  have hreport := hiff.2 ⟨hsecond, Or.inl hmore⟩
  exact ⟨layout, hmake, hlive, hlevel, hindex, htotal, hreport, hwalk hreport⟩

/-- In a layout that covers all words, the cursor rests on the last slot with the total
in view. The next level is in that slot too, and is not reported. -/
theorem level_in_last_slot_not_reported :
    ∃ layout, Layout.make 1 Int64.maxValue 1 = .ok layout ∧
      let h := (Histogram.empty layout 0).after [.record 9223372036854775806 1]
      let c := (start (LevelRule.log 8935141660703064064 1.02).plan).called h 1
      c.exhausted = false ∧ c.plan.level? = some 9113844493917125632 ∧ c.walk.index = 959 ∧
        c.reading.cumulative = h.total ∧ layout.slot? 9113844493917125632 = some 959 ∧
        (c.advance h).1 = false := by
  obtain ⟨layout, hmake, hslot, hfirst, hsecond, hcount, hbound⟩ :
      ∃ g, Layout.make 1 Int64.maxValue 1 = .ok g ∧ g.slot? 9223372036854775806 = some 959 ∧
        g.slot? 8935141660703064064 = some 959 ∧ g.slot? 9113844493917125632 = some 959 ∧
        g.slotCount = 960 ∧ g.bound = 2 ^ 63 :=
    Layout.exists_make_ok (by decide)
  let h := (Histogram.empty layout 0).after [.record 9223372036854775806 1]
  have hlayout : h.layout = layout := Histogram.layout_after_empty layout 0 _
  have hnext : (LevelRule.log 8935141660703064064 1.02).plan.step?.bind Plan.level?
      = some 9113844493917125632 := by decide
  obtain ⟨hlive, hlevel, hindex, htotal⟩ := called_one_after_record layout 0
    (.log 8935141660703064064 1.02) hslot rfl hfirst (Nat.le_refl 959) (by decide) hnext
  have hiff := (onLevels_called h (.log 8935141660703064064 1.02) 1).reports_iff_of_total
    hlive hlevel hindex htotal
  refine ⟨layout, hmake, hlive, hlevel, hindex, htotal, hsecond, ?_⟩
  rw [← Bool.not_eq_true, hiff, hlayout]
  rintro ⟨-, hword⟩
  -- The last slot ends where the words do.
  rw [show 959 + 1 = layout.slotCount from hcount.symm, Layout.start_slotCount, hbound] at hword
  exact absurd hword (by decide)

end Cursor

end LogBuckets
