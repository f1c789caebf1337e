import LogBuckets.Proofs.Cursor.Position
import Mathlib.Order.Bounds.Basic

/-!
# `LogBuckets.Proofs.Cursor.Percentiles`: the run along percentile levels

A cursor of percentile levels reports each level at the first slot that reaches
it. It may report several levels at one slot and pass over any number of slots.
Nothing here depends on what the levels are, or how shares are rounded: that a
slot reaches a level is one comparison of two binary64 numbers.

* `seekShare_cases`: from a slot on, the first one that reaches the level is
  found, or all counts come into view;
* `toShare_cases`: so a walk reports a level, or has the total in view;
* `OnShares.advance_cases`: so a call reports the level in hand, or reports 100
  percent with the total in view and leaves nothing to report;
* `percentile_reports`: so a run consists of reports of the levels in order and
  then, unless these never end, of one report of 100 percent.
-/

set_option autoImplicit false

namespace LogBuckets

/-- The percentile levels of a run, in order. -/
def Plan.percentileLevel (ticks : Nat) : (n : Nat) → Float
  | 0 => 0.0
  | n + 1 => percentileLevel ticks n + percentileStep (percentileLevel ticks n) ticks

/-- The slots from place `a` on that hold counts and at which `level` percent of the
total are reached. -/
def Histogram.reaching (h : Histogram) (level : Float) (a : Int) : Set Nat :=
  { i | a ≤ i ∧ h.countAt i ≠ 0 ∧ level ≤ share (h.countBelow (i + 1)) h.total }

/-- A place that is not such a slot can be left out. -/
theorem Histogram.reaching_succ {h : Histogram} {level : Float} {a : Int}
    (ha : ∀ i : Nat, a = i → i ∉ h.reaching level a) :
    h.reaching level a = h.reaching level (a + 1) := by
  ext i
  constructor
  · intro hi
    have hne : a ≠ i := fun heq => ha i heq hi
    obtain ⟨hle, hreach⟩ := hi
    exact ⟨by omega, hreach⟩
  · rintro ⟨hle, hreach⟩
    exact ⟨by omega, hreach⟩

namespace Walk

variable {h : Histogram} {w : Walk}

/-! ### To the first slot that reaches a level -/

/-- The slot in view reaches a level exactly if there is one and it is among those
that do. -/
theorem Sound.reachesShare_iff (hs : w.Sound h) (hnext : w.next ≤ h.slotCount) (level : Float) :
    w.reachesShare h level = true ↔ ∃ i : Nat, w.index = i ∧ i ∈ h.reaching level w.index := by
  have hseen : w.seen h = w.next := Nat.min_eq_left hnext
  have hview : w.reading.slotPart = h.view w.next := by rw [hs.slotPart_eq, hseen]
  rw [reachesShare, Bool.and_eq_true, Bool.and_eq_true, decide_eq_true_iff, decide_eq_true_iff,
    bne_iff_ne, and_assoc]
  -- Before the first slot nothing is in view. Then the count and the sum in view are those
  -- of the last slot entered.
  cases hw : w.next with
  | zero =>
      refine ⟨fun hreach => absurd hreach.1 (Nat.lt_irrefl 0), ?_⟩
      rintro ⟨i, hi, -⟩
      rw [index] at hi
      omega
  | succ j =>
      have hindex : w.index = j := by
        rw [index]
        omega
      rw [hw] at hview
      have hcount : w.reading.count = h.countAt j := congrArg Reading.count hview
      have hcumulative : w.reading.cumulative = h.countBelow (j + 1) :=
        congrArg Reading.cumulative hview
      rw [hcount, hcumulative, hindex]
      constructor
      · rintro ⟨-, hreach⟩
        exact ⟨j, rfl, Int.le_refl _, hreach⟩
      · rintro ⟨i, hi, -, hreach⟩
        obtain rfl : j = i := by omega
        exact ⟨Nat.succ_pos _, hreach⟩

/-- The first slot from the one in view on that reaches the level is found, if counts
are ahead on the way there. Otherwise all counts come into view. -/
theorem seekShare_cases (level : Float) (hs : w.Sound h) (hnext : w.next ≤ h.slotCount)
    (htotal : h.total = h.countBelow h.slotCount) :
    (∃ w' i, w.seekShare h level = (true, w') ∧ w'.Sound h ∧ w'.index = (i : Nat) ∧
      IsLeast (h.reaching level w.index) i) ∨
    (∃ w', w.seekShare h level = (false, w') ∧ w'.Sound h ∧ w'.reading.cumulative = h.total ∧
      ∀ i ∈ h.reaching level w.index, h.total ≤ h.countBelow i) := by
  -- The cases are those of the loop: the slot in view reaches the level, it does not
  -- and another one is tried, or no slot or no count is left. There is no third case,
  -- for the slots do not end before the counts.
  fun_induction w.seekShare h level with
  | case1 w hreach =>
      obtain ⟨i, hindex, hmem⟩ := (hs.reachesShare_iff hnext level).1 hreach
      refine Or.inl ⟨w, i, rfl, hs, hindex, hmem, ?_⟩
      rintro j ⟨hj, -⟩
      omega
  | case2 w hreach hpending hlt ih =>
      rw [hs.reachesShare_iff hnext] at hreach
      -- The slot in view does not reach the level, so the search may start after it.
      have hsame := Histogram.reaching_succ fun i hi hmem => hreach ⟨i, hi, hmem⟩
      have hindex : (w.enter h).index = w.index + 1 := by
        rw [index, index, next_enter]
        omega
      rw [hsame, ← hindex]
      exact ih (hs.enter hlt) hlt
  | case3 w hreach hpending hend => exact absurd (hs.next_lt_of_pending htotal hpending) hend
  | case4 w hreach hpending =>
      rw [hs.reachesShare_iff hnext] at hreach
      -- All counts are in view: the sum in view is the total, and any slot that is still
      -- ahead has the total before it.
      have hall : w.reading.cumulative = h.total :=
        Nat.le_antisymm (hs.cumulative_le htotal)
          (pending_eq_false_iff.1 (Bool.eq_false_of_not_eq_true hpending))
      refine Or.inr ⟨w, rfl, hs, hall, ?_⟩
      intro i hi
      have hne : w.index ≠ i := fun heq => hreach ⟨i, heq, hi⟩
      have hle := hi.1
      have hseen : w.seen h ≤ i := by
        rw [seen]
        rw [index] at hne hle
        omega
      rw [← hall, hs.cumulative_eq]
      exact h.countBelow_mono hseen

/-- Seeking a share is not a report yet: the level reached last stays in view. -/
theorem reached_seekShare (h : Histogram) (level : Float) (w : Walk) :
    (w.seekShare h level).2.reading.reached = w.reading.reached := by
  fun_induction w.seekShare h level with
  | case1 w hreach => rfl
  | case2 w hreach hpending hlt ih => exact ih
  | case3 w hreach hpending hend => rfl
  | case4 w hreach hpending => rfl

/-- What a report of a percentile level makes of a walk. Counts were ahead. The walk
rests on the first slot from the one before on that reaches the level, and the report
goes up to the greatest value of that slot. -/
structure ReportsShare (h : Histogram) (level : Float) (w w' : Walk) : Prop where
  sound : w'.Sound h
  pending : w.reading.cumulative < h.total
  rests : ∃ i : Nat, w'.index = i ∧ IsLeast (h.reaching level w.index) i ∧
    w'.reading.count = h.countAt i ∧
    w'.reading.reached = h.layout.slotCeiling (h.layout.valueAt i)
  percentile_eq : w'.reading.percentile = level
  reachedBefore_eq : w'.reading.reachedBefore = w.reading.reached

/-- What is left of a walk that finds no slot for a percentile level. The total is in
view. It may have been before; if not, no slot before the last counts has reached the
level. -/
structure Completes (h : Histogram) (level : Float) (w w' : Walk) : Prop where
  sound : w'.Sound h
  cumulative_eq : w'.reading.cumulative = h.total
  none_reaches : w.reading.cumulative < h.total →
    ∀ i ∈ h.reaching level w.index, h.total ≤ h.countBelow i

/-- A slot for a percentile level is looked for while counts are ahead. -/
theorem toShare_cases (level : Float) (hs : w.Sound h)
    (htotal : h.total = h.countBelow h.slotCount) :
    (∃ w', w.toShare h level = (true, w') ∧ ReportsShare h level w w') ∨
    (∃ w', w.toShare h level = (false, w') ∧ Completes h level w w') := by
  cases hpending : w.pending h with
  | false =>
      have hall := pending_eq_false_iff.1 hpending
      refine Or.inr ⟨w, ?_, hs, ?_, fun hahead => absurd hahead (Nat.not_lt.2 hall)⟩
      · rw [toShare, hpending]
        rfl
      · exact Nat.le_antisymm (hs.cumulative_le htotal) hall
  | true =>
      have hahead := pending_iff.1 hpending
      have hnext := Nat.le_of_lt (hs.next_lt_of_pending htotal hpending)
      -- The loop does not touch the level that was reached before.
      have hbefore := reached_seekShare h level w
      rcases seekShare_cases level hs hnext htotal with
        ⟨w', i, hseek, hs', hindex, hleast⟩ | ⟨w', hseek, hs', hall, hnone⟩
      · -- The slot holds counts, so it is one of the layout.
        have hi : i < h.slotCount := Histogram.lt_slotCount_of_countAt_ne hleast.1.2.1
        have hview := hs'.slotPart_of_index_ne (by omega)
        have hslot : (min w'.index (h.slotCount - 1)).toNat = i := by omega
        rw [hslot] at hview
        injection hview with hcount _ _ _ hceiling
        rw [hseek] at hbefore
        let w'' : Walk := { w' with reading :=
          { w'.reading.report w'.reading.ceiling with percentile := level } }
        refine Or.inl ⟨w'', ?_, hs'.congr rfl rfl, hahead, ⟨i, hindex, hleast, hcount, hceiling⟩,
          rfl, hbefore⟩
        rw [toShare, hpending, hseek]
        rfl
      · refine Or.inr ⟨w', ?_, hs', hall, fun _ => hnone⟩
        rw [toShare, hpending, hseek]
        rfl

end Walk

namespace Cursor

variable {h : Histogram} {ticks n : Nat} {level : Float} {c : Cursor}

/-! ### Calls -/

/-- The cursor has reported the first `n` percentile levels and has the next one in
hand. -/
structure OnShares (h : Histogram) (ticks n : Nat) (c : Cursor) : Prop where
  sound : c.walk.Sound h
  plan_eq : c.plan = .percentiles ticks (Plan.percentileLevel ticks n) false
  not_exhausted : c.exhausted = false

/-- Before the first call no level has been reported. -/
theorem onShares_start (h : Histogram) (ticks : Nat) :
    (start (.percentiles ticks 0.0 false)).OnShares h ticks 0 where
  sound := Walk.sound_start h
  plan_eq := rfl
  not_exhausted := rfl

/-- Once 100 percent were reported with the total in view, nothing is left. -/
theorem advance_of_closed (hplan : c.plan = .percentiles ticks level true)
    (hall : c.reading.cumulative = h.total) : (c.advance h).1 = false := by
  -- The total is in view, so no counts are pending, and the plan is closed.
  have hpending : c.walk.pending h = false :=
    Walk.pending_eq_false_iff.2 (Nat.le_of_eq hall.symm)
  have hshare : c.walk.toShare h level = (false, c.walk) := by
    rw [Walk.toShare, hpending]
    rfl
  rw [advance]
  split
  · rfl
  · rw [hplan]
    dsimp only
    rw [hshare]
    rfl

/-- What a call does to a cursor that has not reported 100 percent: it reports the
level in hand, or it reports 100 percent and the next call reports nothing. -/
theorem OnShares.advance_cases (hc : c.OnShares h ticks n)
    (htotal : h.total = h.countBelow h.slotCount) :
    (∃ c', c.advance h = (true, c') ∧ c'.OnShares h ticks (n + 1) ∧
      Walk.ReportsShare h (Plan.percentileLevel ticks n) c.walk c'.walk) ∨
    (∃ c', c.advance h = (true, c') ∧ (c'.advance h).1 = false ∧
      Walk.Completes h (Plan.percentileLevel ticks n) c.walk c'.walk ∧
      c'.reading.percentile = 100.0) := by
  let level := Plan.percentileLevel ticks n
  have hlive : ¬ c.exhausted = true := by
    rw [hc.not_exhausted]
    exact Bool.false_ne_true
  rcases Walk.toShare_cases level hc.sound htotal with ⟨w, hw, hreports⟩ | ⟨w, hw, hcompletes⟩
  · -- A level is reported: the next one is in hand, and the plan stays open.
    have hreported : c.reported w
        = { c with plan := .percentiles ticks (Plan.percentileLevel ticks (n + 1)) false
                   walk := w } := by
      rw [reported, hc.plan_eq]
      rfl
    refine Or.inl ⟨c.reported w, ?_, ?_, ?_⟩
    · rw [advance, if_neg hlive, hc.plan_eq]
      dsimp only
      rw [hw]
    · rw [hreported]
      exact ⟨hreports.sound, rfl, hc.not_exhausted⟩
    · rw [walk_reported]
      exact hreports
  · -- No level is reached: the final report closes the plan.
    let c' : Cursor :=
      { c with plan := .percentiles ticks level true
               walk := { w with reading := { w.reading with percentile := 100.0 } } }
    refine Or.inr ⟨c', ?_, advance_of_closed (c := c') rfl hcompletes.cumulative_eq,
      ⟨hcompletes.sound.congr rfl rfl, hcompletes.cumulative_eq, hcompletes.none_reaches⟩, rfl⟩
    rw [advance, if_neg hlive, hc.plan_eq]
    dsimp only
    rw [hw]
    rfl

/-- A cursor that has not reported its last 100 percent makes a report: of the next level,
or of those 100 percent. -/
theorem OnShares.report (hc : c.OnShares h ticks n) (htotal : h.total = h.countBelow h.slotCount) :
    (c.advance h).1 = true := by
  rcases hc.advance_cases htotal with ⟨c', heq, -⟩ | ⟨c', heq, -⟩
  · rw [heq]
  · rw [heq]

/-- A report that is not the last one is of the level in hand. -/
theorem OnShares.reportsShare (hc : c.OnShares h ticks n)
    (htotal : h.total = h.countBelow h.slotCount)
    (hmore : ((c.advance h).2.advance h).1 = true) :
    (c.advance h).2.OnShares h ticks (n + 1) ∧
      Walk.ReportsShare h (Plan.percentileLevel ticks n) c.walk (c.advance h).2.walk := by
  rcases hc.advance_cases htotal with ⟨c', heq, hnext⟩ | ⟨c', heq, hend, -⟩
  · rw [heq]
    exact hnext
  · rw [heq, hend] at hmore
    exact absurd hmore Bool.false_ne_true

/-- The last report is of 100 percent. -/
theorem OnShares.completes (hc : c.OnShares h ticks n)
    (htotal : h.total = h.countBelow h.slotCount)
    (hlast : ((c.advance h).2.advance h).1 = false) :
    Walk.Completes h (Plan.percentileLevel ticks n) c.walk (c.advance h).2.walk ∧
      (c.advance h).2.reading.percentile = 100.0 := by
  rcases hc.advance_cases htotal with ⟨c', heq, hc', -⟩ | ⟨c', heq, -, hcompletes⟩
  · rw [heq, hc'.report htotal] at hlast
    exact absurd hlast.symm Bool.false_ne_true
  · rw [heq]
    exact hcompletes

/-! ### Runs -/

/-- All reports before one have been of the levels in order: 100 percent are not among
them, for nothing follows that report. -/
theorem onShares_called (htotal : h.total = h.countBelow h.slotCount)
    (hreport : (((start (.percentiles ticks 0.0 false)).called h n).advance h).1 = true) :
    ((start (.percentiles ticks 0.0 false)).called h n).OnShares h ticks n := by
  induction n with
  | zero => exact onShares_start h ticks
  | succ n ih =>
      have hbefore := ih (report_of_le hreport (Nat.le_succ n))
      rw [called_succ] at hreport ⊢
      exact (hbefore.reportsShare htotal hreport).1

/-- The reports of a run along percentile levels. There may be no end of them. With
`count`, which may be infinite, for the number of those before the last:

1. the first `count` calls report one percentile level each, in order;
2. the call after them reports 100 percent, with the total in view;
3. later calls report nothing;
4. nothing but 100 percent is reported if nothing was recorded. -/
theorem percentile_reports (layout : Layout) (offset : Nat) (events : List Event)
    (ticks : Nat) :
    let h := (Histogram.empty layout offset).after events
    let level := Plan.percentileLevel (max 1 ticks)
    let c := fun n => (start (.percentilesBy ticks)).called h n
    ∃ count : ℕ∞,
      (∀ n : ℕ, n < count → ((c n).advance h).1 = true ∧
        Walk.ReportsShare h (level n) (c n).walk (c (n + 1)).walk) ∧
      (∀ n : ℕ, n = count → ((c n).advance h).1 = true ∧
        Walk.Completes h (level n) (c n).walk (c (n + 1)).walk ∧
        (c (n + 1)).reading.percentile = 100.0) ∧
      (∀ n : ℕ, count < n → ((c n).advance h).1 = false) ∧
      (h.total = 0 → count = 0) := by
  intro h level c
  have htotal := Histogram.total_eq_countBelow_slotCount layout offset events
  have hcall : ∀ n, c (n + 1) = ((c n).advance h).2 := called_succ h _
  obtain ⟨limit, hlimit⟩ := exists_reportCount h (start (.percentilesBy ticks))
  -- There is a first report, so the last one, if any, has a number.
  obtain ⟨count, rfl⟩ : ∃ count, limit = count + 1 := by
    have hfirst := (hlimit 0).1 ((onShares_start h (max 1 ticks)).report htotal)
    exact ⟨limit - 1, (tsub_add_cancel_of_le (ENat.natCast_add_one_le_iff.2 hfirst)).symm⟩
  simp only [ENat.natCast_lt_add_one_iff] at hlimit
  have hon : ∀ n : ℕ, n ≤ count → (c n).OnShares h (max 1 ticks) n := fun n hn =>
    onShares_called htotal ((hlimit n).2 hn)
  have hlevels : ∀ n : ℕ, n < count →
      Walk.ReportsShare h (level n) (c n).walk (c (n + 1)).walk := by
    intro n hn
    -- A call that is followed by a report is not the last, so it reports its level.
    have hmore := (hlimit (n + 1)).2 (ENat.natCast_add_one_le_iff.2 hn)
    rw [called_succ] at hmore
    rw [hcall]
    exact ((hon n hn.le).reportsShare htotal hmore).2
  have hnone : ∀ n : ℕ, count < n → ((c n).advance h).1 = false := by
    intro n hn
    rw [← Bool.not_eq_true, hlimit, not_le]
    exact hn
  refine ⟨count, fun n hn => ⟨(hlimit n).2 hn.le, hlevels n hn⟩, fun n hn => ?_, hnone, ?_⟩
  · -- The last report is followed by a call without one.
    have hlast := hnone (n + 1) (by rw [← hn]; exact Nat.cast_lt.2 (Nat.lt_succ_self n))
    rw [hcall] at hlast ⊢
    exact ⟨(hlimit n).2 hn.le, (hon n hn.le).completes htotal hlast⟩
  · intro hempty
    by_contra hpos
    have hpending := (hlevels 0 (pos_iff_ne_zero.2 hpos)).pending
    rw [hempty] at hpending
    exact Nat.not_lt_zero _ hpending

end Cursor

end LogBuckets
