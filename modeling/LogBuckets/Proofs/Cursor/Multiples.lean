import LogBuckets.Proofs.Cursor.Levels
import Mathlib.Algebra.Order.Floor.Div

/-!
# `LogBuckets.Proofs.Cursor.Multiples`: evenly spaced levels end

A cursor of levels `width` apart reports `width`, `2 * width` and so on. It may
stop for three reasons: the counts are all in view, the slots are left behind,
or the next level is not a word any more. Whichever comes first, it stops after
as many levels as the slots of the layout have room for.

* `AtMultiple.report`: a report goes from one multiple of the width to the next;
* `OnLevels.lt_bound_of_report`: and it is made only if the multiple before is a
  value of the layout. A level past the last slot takes all slots in, and nothing
  is left to report after it;
* `atMultiple_of_ahead`: no multiple is left out while counts are ahead;
* `linear_reports_multiples`: so the reports of a run are the first multiples, at
  most as many as it takes to reach the end of the layout.
-/

set_option autoImplicit false

namespace LogBuckets.Cursor

/-- The cursor has reported the first `k` multiples of the width, and if another
one is left, it is the next. -/
structure AtMultiple (h : Histogram) (width : Int64) (k : Nat) (c : Cursor) : Prop where
  one_le_width : 1 ≤ width.toInt
  onLevels : c.OnLevels h
  reached_eq : c.reading.reached.toInt = k * width.toInt
  level_eq : c.exhausted = false →
    ∃ level, c.plan = .linear width level ∧ level.toInt = (k + 1) * width.toInt

variable {h : Histogram} {width : Int64} {k : Nat} {c : Cursor}

/-- The multiple before the first one is 0. -/
theorem atMultiple_start (h : Histogram) (hwidth : 1 ≤ width.toInt) :
    (start (.linear width width)).AtMultiple h width 0 where
  one_le_width := hwidth
  onLevels := onLevels_start h (.linear hwidth hwidth)
  reached_eq := by
    rw [Int.natCast_zero, Int.zero_mul]
    rfl
  level_eq _ := ⟨width, rfl, by rw [Int.natCast_zero, Int.zero_add, Int.one_mul]⟩

/-- A report leads to the next multiple and starts from the one before. -/
theorem AtMultiple.report (hc : c.AtMultiple h width k) (hreport : (c.advance h).1 = true) :
    (c.advance h).2.AtMultiple h width (k + 1) ∧
      (c.advance h).2.reading.reachedBefore = c.reading.reached := by
  obtain ⟨level, hplan, hvalue⟩ := hc.level_eq (exhausted_eq_false_of_report hreport)
  obtain ⟨level', hlevel', -, hc', hreports, hexhausted, hplan'⟩ :=
    hc.onLevels.reports (Prod.ext hreport rfl)
  rw [hplan] at hlevel'
  obtain rfl : level = level' := Option.some.inj hlevel'
  refine ⟨⟨hc.one_le_width, hc', ?_, fun hlive => ?_⟩, hreports.reachedBefore_eq⟩
  · show (c.advance h).2.walk.reading.reached.toInt = _
    rw [hreports.reached_eq, hvalue, Int.natCast_succ]
  · -- The cursor is not exhausted, so the sum is a word.
    rw [hexhausted, hplan] at hlive
    obtain ⟨plan', hstep⟩ := Option.isSome_iff_exists.1 (Option.isNone_eq_false_iff.1 hlive)
    obtain ⟨next, hnext, rfl⟩ := Option.map_eq_some_iff.1 hstep
    refine ⟨next, ?_, ?_⟩
    · rw [hplan', hplan, hstep]
      rfl
    · rw [Plan.linearStep?_eq_some hc.one_le_width hnext, hvalue]
      push_cast
      ring

/-- A call without a report does not change the level that was reported last. -/
theorem OnLevels.reached_of_no_report (hc : c.OnLevels h) (hnone : (c.advance h).1 = false) :
    (c.advance h).2.reading.reached = c.reading.reached := by
  cases hlive : c.exhausted with
  | true => rw [advance_of_exhausted h hlive]
  | false =>
      obtain ⟨level, hlevel, -⟩ := hc.climbs.exists_level
      rcases hc.advance_cases hlive hlevel with ⟨-, c', heq, -⟩ | ⟨-, c', heq, -, hrests, -⟩
      · rw [heq] at hnone
        exact absurd hnone (by simp)
      · rw [heq]
        exact hrests.reached_eq

/-- The level that was reported last stays once a call makes no report. -/
theorem OnLevels.reached_called_of_no_report {n m : Nat} (hc : (c.called h n).OnLevels h)
    (hnone : ((c.called h n).advance h).1 = false) (hm : n ≤ m) :
    (c.called h m).reading.reached = (c.called h n).reading.reached := by
  rcases Nat.eq_or_lt_of_le hm with rfl | hlt
  · rfl
  · rw [(called_of_no_report hnone hlt).1, called_succ]
    exact hc.reached_of_no_report hnone

/-- Nothing is reported after a level past the last slot. All slots have been entered
then, and no later level is below the place where they end. -/
theorem OnLevels.lt_bound_of_report (hc : c.OnLevels h)
    (htotal : h.total = h.countBelow h.slotCount) (hreport : (c.advance h).1 = true) :
    c.reading.reached.toInt < h.layout.bound := by
  show c.walk.reading.reached.toInt < h.layout.bound
  -- If the last level reached is past the layout, then every slot has been entered and the
  -- next level, at least as large, is past the layout as well.
  by_contra hpast
  have hnonneg := hc.reached_nonneg
  have hslots : h.layout.slotCount ≤ h.layout.number c.walk.reading.reached.toInt.toNat := by
    rw [← Nat.not_lt, Layout.number_lt_slotCount_iff]
    omega
  have hseen : c.walk.seen h = h.slotCount := by
    have hpos := h.layout.slotCount_pos
    rw [hc.seen_eq, h.slotCount_eq, Layout.upTo, if_neg (by omega)]
    omega
  have hall : h.total ≤ c.walk.reading.cumulative := by
    rw [hc.sound.cumulative_eq, hseen, ← htotal]
  obtain ⟨level, hlevel, hpos⟩ := hc.climbs.exists_level
  have hmono := hc.le_level level hlevel
  rw [hc.reports_iff_of_total_le (exhausted_eq_false_of_report hreport) hlevel hall,
    h.slotCount_eq] at hreport
  omega

/-- With all counts in view, nothing is reported above the slot of the last level. The
slot that comes next does not begin above that of the next level then. -/
theorem OnLevels.no_report_of_number_lt (hc : c.OnLevels h) (hlive : c.exhausted = false)
    {level : Int64} (hlevel : c.plan.level? = some level) (hall : h.total ≤ c.reading.cumulative)
    (hlt : h.layout.number c.reading.reached.toInt.toNat < h.layout.number level.toInt.toNat) :
    (c.advance h).1 = false := by
  rw [← Bool.not_eq_true, hc.reports_iff_of_total_le hlive hlevel hall]
  rintro ⟨hnext, hbelow, -⟩
  have hseen : c.walk.seen h = c.walk.next := Nat.min_eq_left hnext
  have hupTo := h.layout.upTo_le c.reading.reached
  rw [← hseen, hc.seen_eq] at hbelow
  change _ < h.layout.upTo c.reading.reached at hbelow
  omega

/-- An empty histogram has nothing to report. -/
theorem OnLevels.no_report_at_start {plan : Plan} (hc : (start plan).OnLevels h)
    (hempty : h.total = 0) : ((start plan).advance h).1 = false := by
  obtain ⟨level, hlevel, -⟩ := hc.climbs.exists_level
  rw [← Bool.not_eq_true, hc.reports_iff_of_total_le rfl hlevel (Nat.le_of_eq hempty)]
  exact fun hnext => Nat.not_lt_zero _ hnext.2.1

/-- After `n` reports the cursor is at multiple number `n`. -/
theorem atMultiple_called (hwidth : 1 ≤ width.toInt) {n : Nat}
    (hreports : ∀ k < n, (((start (.linear width width)).called h k).advance h).1 = true) :
    ((start (.linear width width)).called h n).AtMultiple h width n := by
  induction n with
  | zero => exact atMultiple_start h hwidth
  | succ n ih =>
      have hbefore := ih fun k hk => hreports k (Nat.lt_succ_of_lt hk)
      rw [called_succ]
      exact (hbefore.report (hreports n (Nat.lt_succ_self n))).1

/-- A report exhausts the cursor exactly if the multiple after the one reported is
not a word any more. -/
theorem AtMultiple.exhausted_report_iff (hc : c.AtMultiple h width k)
    (hreport : (c.advance h).1 = true) :
    (c.advance h).2.exhausted = true ↔ 2 ^ 63 ≤ (k + 2) * width.toInt := by
  obtain ⟨level, hplan, hvalue⟩ := hc.level_eq (exhausted_eq_false_of_report hreport)
  obtain ⟨-, -, -, -, -, hexhausted, -⟩ := hc.onLevels.reports (Prod.ext hreport rfl)
  have hnext : (k + 2) * width.toInt = level.toInt + width.toInt := by
    rw [hvalue]
    ring
  rw [hexhausted, Option.isNone_iff_eq_none, hc.onLevels.climbs.step?_eq_none_iff, hplan, hnext]
  rfl

/-- The next multiple is reported while counts are ahead of the slot of this one. -/
theorem AtMultiple.report_of_ahead (hc : c.AtMultiple h width k) (hlive : c.exhausted = false)
    (hahead : h.countBelow (h.layout.number (k * width.toInt).toNat + 1) < h.total) :
    (c.advance h).1 = true := by
  -- The slots in view are those up to the slot of this multiple, so their sum is short of
  -- the total.
  have hupTo : h.layout.upTo c.reading.reached ≤ h.layout.number (k * width.toInt).toNat + 1 := by
    rw [← hc.reached_eq]
    exact h.layout.upTo_le _
  have hbefore : c.reading.cumulative < h.total := by
    rw [hc.onLevels.cumulative_eq]
    exact Nat.lt_of_le_of_lt (h.countBelow_mono hupTo) hahead
  obtain ⟨c', heq⟩ := hc.onLevels.exists_report hlive hbefore
  rw [heq]

/-- As long as counts are ahead of the first `n` multiples, and the one after them is
a word, the first `n` calls report them, and the call after those reports one more. -/
theorem atMultiple_of_ahead (hwidth : 1 ≤ width.toInt) {n : Nat}
    (hroom : (n + 1) * width.toInt < 2 ^ 63)
    (hahead : h.countBelow (h.layout.number (n * width.toInt).toNat + 1) < h.total) :
    let c := (start (.linear width width)).called h n
    c.AtMultiple h width n ∧ c.exhausted = false ∧ (c.advance h).1 = true := by
  induction n with
  | zero =>
      have hstart := atMultiple_start h hwidth
      exact ⟨hstart, rfl, hstart.report_of_ahead rfl hahead⟩
  | succ n ih =>
      -- What is ahead of a multiple is ahead of those before it.
      have hle : (n : Int) * width.toInt ≤ (n + 1 : Nat) * width.toInt :=
        Int.mul_le_mul_of_nonneg_right (by omega) (by omega)
      have hslots := h.layout.number_mono (Int.toNat_le_toNat hle)
      obtain ⟨hat, -, hreport⟩ := ih
        (by push_cast at hroom; linarith)
        (Nat.lt_of_le_of_lt (h.countBelow_mono (Nat.succ_le_succ hslots)) hahead)
      have hnext := (hat.report hreport).1
      have hlive : (((start (.linear width width)).called h n).advance h).2.exhausted = false := by
        rw [← Bool.not_eq_true, hat.exhausted_report_iff hreport, Int.not_le]
        calc ((n : Int) + 2) * width.toInt = ((n + 1 : Nat) + 1) * width.toInt := by
              push_cast
              ring
          _ < 2 ^ 63 := hroom
      intro c
      have hc : c = (((start (.linear width width)).called h n).advance h).2 :=
        called_succ h (start (.linear width width)) n
      rw [hc]
      exact ⟨hnext, hlive, hnext.report_of_ahead hlive hahead⟩

/-- The call after as many reports as it takes to reach the end of the layout makes
none. -/
theorem reportCount_le_ceilDiv (hwidth : 1 ≤ width.toInt) {u : Nat} (hu : width.toInt = u)
    (htotal : h.total = h.countBelow h.slotCount) {count : ℕ∞}
    (hcount : ∀ n : ℕ, (((start (.linear width width)).called h n).advance h).1 = true
      ↔ n < count) : count ≤ (h.layout.bound ⌈/⌉ u : Nat) := by
  by_contra hmore
  rw [not_le] at hmore
  -- With one report more, the walk is at the first multiple past the layout, and reports
  -- once again.
  have hreports : ∀ k ≤ h.layout.bound ⌈/⌉ u,
      (((start (.linear width width)).called h k).advance h).1 = true := by
    intro k hk
    exact (hcount k).2 (lt_of_le_of_lt (Nat.cast_le.2 hk) hmore)
  have hat := atMultiple_called hwidth fun k hk => hreports k (Nat.le_of_lt hk)
  have hinside := hat.onLevels.lt_bound_of_report htotal (hreports _ (Nat.le_refl _))
  have hpos : 0 < u := by omega
  have hend : h.layout.bound ≤ u * (h.layout.bound ⌈/⌉ u) := le_smul_ceilDiv hpos
  rw [hat.reached_eq, hu] at hinside
  have hbelow : (h.layout.bound ⌈/⌉ u) * u < h.layout.bound := by exact_mod_cast hinside
  rw [Nat.mul_comm] at hbelow
  exact Nat.not_lt.2 hend hbelow

/-- The width that is used for any width that is asked for. -/
theorem toInt_clamp_eq (width : Int64) :
    (if width < 1 then 1 else width).toInt = (max 1 width.toInt.toNat : Nat) := by
  split
  · next hlow =>
      rw [Int64.lt_iff_toInt_lt, Int64.toInt_one] at hlow
      rw [Int64.toInt_one]
      omega
  · next hge =>
      rw [Int64.lt_iff_toInt_lt, Int64.toInt_one] at hge
      omega

/-- The reports of a run along levels `width` apart, or 1 apart if the width is less
than that. For some `count`:

1. the first `count` calls make a report each, from one multiple of the width to the
   next, and no multiple leaves the words;
2. later calls make none, and the last level stays;
3. no more multiples are reported than it takes to reach the end of the layout;
4. nothing is reported if nothing was recorded. -/
theorem linear_reports_multiples (layout : Layout) (offset : Nat) (events : List Event)
    (width : Int64) :
    let h := (Histogram.empty layout offset).after events
    let u := max 1 width.toInt.toNat
    let c := fun n => (start (.linearBy width)).called h n
    ∃ count : Nat,
      (∀ k < count, ((c k).advance h).1 = true ∧
        (c (k + 1)).reading.reachedBefore.toInt = k * u ∧
        (c (k + 1)).reading.reached.toInt = (k + 1) * u) ∧
      (∀ n ≥ count, ((c n).advance h).1 = false ∧ (c n).reading.reached.toInt = count * u) ∧
      count ≤ layout.bound ⌈/⌉ u ∧
      (h.total = 0 → count = 0) := by
  intro h u c
  have htotal := Histogram.total_eq_countBelow_slotCount layout offset events
  have hlayout : h.layout = layout := Histogram.layout_after_empty layout offset events
  have hw := Plan.one_le_toInt_clamp width
  have hu := toInt_clamp_eq width
  obtain ⟨limit, hlimit⟩ := exists_reportCount h (start (.linearBy width))
  have hle := reportCount_le_ceilDiv hw hu htotal hlimit
  -- The reports are bounded, so their number is finite.
  obtain ⟨count, rfl⟩ := ENat.ne_top_iff_exists.1 (ne_top_of_le_ne_top (ENat.natCast_ne_top _) hle)
  have hreport : ∀ n, ((c n).advance h).1 = true ↔ n < count := by
    intro n
    rw [hlimit, Nat.cast_lt]
  -- The calls before the last report have all reported, so the cursor is at its multiple.
  have hat : ∀ n ≤ count, (c n).AtMultiple h (if width < 1 then 1 else width) n := by
    intro n hn
    exact atMultiple_called hw fun k hk => (hreport k).2 (Nat.lt_of_lt_of_le hk hn)
  have hnone : ∀ n ≥ count, ((c n).advance h).1 = false := by
    intro n hn
    rw [← Bool.not_eq_true, hreport]
    exact Nat.not_lt.2 hn
  refine ⟨count, fun k hk => ⟨(hreport k).2 hk, ?_, ?_⟩, fun n hn => ⟨hnone n hn, ?_⟩, ?_, ?_⟩
  · have hbefore := ((hat k (Nat.le_of_lt hk)).report ((hreport k).2 hk)).2
    rw [← called_succ] at hbefore
    rw [hbefore, (hat k (Nat.le_of_lt hk)).reached_eq, hu]
  · rw [(hat (k + 1) hk).reached_eq, hu, Int.natCast_succ]
  · have hlast := hat count (Nat.le_refl _)
    -- After the last report the level reached stays where it is.
    have hstays := hlast.onLevels.reached_called_of_no_report (hnone count (Nat.le_refl _)) hn
    show ((start (.linearBy width)).called h n).reading.reached.toInt = count * u
    rw [hstays, hlast.reached_eq, hu]
  · rw [hlayout, Nat.cast_le] at hle
    exact hle
  · intro hempty
    by_contra hpos
    have hfirst : ((c 0).advance h).1 = false :=
      (hat 0 (Nat.zero_le _)).onLevels.no_report_at_start hempty
    rw [(hreport 0).2 (Nat.pos_of_ne_zero hpos)] at hfirst
    exact Bool.false_ne_true hfirst.symm

end LogBuckets.Cursor
