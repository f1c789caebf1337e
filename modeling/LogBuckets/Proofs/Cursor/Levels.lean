import LogBuckets.Proofs.Cursor.Plan
import LogBuckets.Proofs.Cursor.Run
import LogBuckets.Proofs.Cursor.Walk

/-!
# `LogBuckets.Proofs.Cursor.Levels`: cursors that report value levels

A cursor of value levels is a walk and a plan that climbs. Because the
levels never turn back, where the walk is depends on the last level alone:
it has entered the slots up to the one of that level, and no others.
`OnLevels` says so.

* `OnLevels.advance_cases`: what one call does. It reports the next level
  or finds nothing left to report, and keeps `OnLevels`;
* `onLevels_called`: so every run stays on its levels;
* `OnLevels.sum_added`: and the counts that its reports have added are
  those of the slots it has entered.
-/

set_option autoImplicit false

namespace LogBuckets

/-! ### Calls -/

namespace Cursor

/-- A cursor of value levels that has entered the slots up to the level it
reported last, and has no level below that one to report. -/
structure OnLevels (h : Histogram) (c : Cursor) : Prop where
  sound : c.walk.Sound h
  climbs : c.plan.Climbs h.layout
  reached_nonneg : 0 ≤ c.walk.reading.reached.toInt
  seen_eq : c.walk.seen h = h.layout.upTo c.walk.reading.reached
  le_level : ∀ level, c.plan.level? = some level →
    h.layout.number c.walk.reading.reached.toInt.toNat ≤ h.layout.number level.toInt.toNat

/-- The sum in view is that of the slots up to the level reported last. -/
theorem OnLevels.cumulative_eq {h : Histogram} {c : Cursor} (hc : c.OnLevels h) :
    c.reading.cumulative = h.countBelow (h.layout.upTo c.reading.reached) := by
  show c.walk.reading.cumulative = h.countBelow (h.layout.upTo c.walk.reading.reached)
  rw [← hc.seen_eq]
  exact hc.sound.cumulative_eq

/-- Before the first call, the walk has entered nothing and is at level 0. -/
theorem onLevels_start (h : Histogram) {plan : Plan} (hp : plan.Climbs h.layout) :
    (start plan).OnLevels h where
  sound := Walk.sound_start h
  climbs := hp
  reached_nonneg := Int.le_refl _
  seen_eq := (Walk.seen_start h).trans h.layout.upTo_zero.symm
  le_level level _ := by
    show h.layout.number (Int64.toInt 0).toNat ≤ _
    rw [Int64.toInt_zero, Int.toNat_zero, Layout.number_zero]
    exact Nat.zero_le _

/-- Every plan of value levels moves the walk in the same way, to the next level. -/
theorem advance_of_level {h : Histogram} {c : Cursor} {level : Int64}
    (hlevel : c.plan.level? = some level) (hc : c.exhausted = false) :
    c.advance h = c.conclude (c.walk.toLevel h level) := by
  have hlive : ¬ c.exhausted = true := by rw [hc]; exact Bool.false_ne_true
  rw [advance, if_neg hlive]
  -- Only the two plans of value levels have a level; the other three are excluded.
  cases hplan : c.plan with
  | linear width level₀ =>
      rw [hplan] at hlevel
      obtain rfl := Option.some.inj hlevel
      rfl
  | log base exact level₀ =>
      rw [hplan] at hlevel
      obtain rfl := Option.some.inj hlevel
      rfl
  | all => rw [hplan] at hlevel; exact absurd hlevel (by simp [Plan.level?])
  | recorded => rw [hplan] at hlevel; exact absurd hlevel (by simp [Plan.level?])
  | percentiles ticks level₀ closed =>
      rw [hplan] at hlevel
      exact absurd hlevel (by simp [Plan.level?])

/-- Reporting a level leaves a cursor on its levels, if none of those ahead is
below the one reported. -/
theorem OnLevels.of_reports {h : Histogram} {c c' : Cursor} {level : Int64}
    (hc : c.OnLevels h) (hlevel : c.plan.level? = some level) (hpos : 1 ≤ level.toInt)
    (hreports : Walk.Reports h level c.walk c'.walk) (hclimbs : c'.plan.Climbs h.layout)
    (hle : ∀ level', c'.plan.level? = some level' →
      h.layout.number level.toInt.toNat ≤ h.layout.number level'.toInt.toNat) :
    c'.OnLevels h where
  sound := hreports.sound
  climbs := hclimbs
  reached_nonneg := by
    rw [hreports.reached_eq]
    omega
  seen_eq := by
    -- The level is at or above the last one reached, so the slots up to it include those
    -- seen before, and the maximum is the later of the two.
    have hmono := Layout.upTo_mono (hc.le_level level hlevel)
    rw [hreports.seen_eq, hreports.reached_eq, hc.seen_eq]
    omega
  le_level := by
    rw [hreports.reached_eq]
    exact hle

/-- Finding nothing to report leaves a cursor on its levels. -/
theorem OnLevels.of_rests {h : Histogram} {c c' : Cursor} (hc : c.OnLevels h)
    (hrests : Walk.Rests h c.walk c'.walk) (hplan : c'.plan = c.plan) : c'.OnLevels h where
  sound := hrests.sound
  climbs := hplan ▸ hc.climbs
  reached_nonneg := by
    rw [hrests.reached_eq]
    exact hc.reached_nonneg
  seen_eq := by
    rw [hrests.seen_eq, hrests.reached_eq]
    exact hc.seen_eq
  le_level := by
    rw [hrests.reached_eq, hplan]
    exact hc.le_level

/-- What a call does to a cursor of value levels that is not exhausted: it
reports the next level and takes a step, which may exhaust the cursor, or finds
no counts ahead and exhausts the cursor. Either way it stays on its levels. -/
theorem OnLevels.advance_cases {h : Histogram} {c : Cursor} (hc : c.OnLevels h)
    (hlive : c.exhausted = false) {level : Int64} (hlevel : c.plan.level? = some level) :
    ((c.walk.pending h || c.walk.nextExceeds h (h.layout.slotFloor level)) = true ∧
      ∃ c', c.advance h = (true, c') ∧ c'.OnLevels h ∧
        Walk.Reports h level c.walk c'.walk ∧ c'.exhausted = c.plan.step?.isNone ∧
        c'.plan = c.plan.step?.getD c.plan) ∨
    ((c.walk.pending h || c.walk.nextExceeds h (h.layout.slotFloor level)) = false ∧
      ∃ c', c.advance h = (false, c') ∧ c'.OnLevels h ∧
        Walk.Rests h c.walk c'.walk ∧ c'.exhausted = true ∧ c'.plan = c.plan) := by
  obtain ⟨_, hsame, hpos⟩ := hc.climbs.exists_level
  obtain rfl := Option.some.inj (hlevel.symm.trans hsame)
  have hadvance := advance_of_level (h := h) hlevel hlive
  have hnonneg : 0 ≤ level.toInt := by omega
  rcases Walk.toLevel_cases hc.sound hnonneg with
    ⟨hguard, w, hw, hreports⟩ | ⟨hguard, w, hw, hrests⟩
  · rw [hw] at hadvance
    refine Or.inl ⟨hguard, c.reported w, hadvance, ?_⟩
    -- The cursor stays on its levels either way: exhausted with the plan it had, or live
    -- with the next level, which is not below this one.
    cases hstep : c.plan.step? with
    | none =>
        have hreported : c.reported w = { c with walk := w, exhausted := true } := by
          rw [reported, hstep]
        rw [hreported]
        refine ⟨hc.of_reports hlevel hpos hreports hc.climbs ?_, hreports, rfl, rfl⟩
        intro level' hlevel'
        obtain rfl := Option.some.inj (hlevel.symm.trans hlevel')
        exact Nat.le_refl _
    | some plan' =>
        have hreported : c.reported w = { c with plan := plan', walk := w } := by
          rw [reported, hstep]
        obtain ⟨hclimbs, level', hnext, hle⟩ := hc.climbs.step hlevel hstep
        rw [hreported]
        refine ⟨hc.of_reports hlevel hpos hreports hclimbs ?_, hreports, hlive, rfl⟩
        intro level'' hlevel''
        obtain rfl := Option.some.inj (hnext.symm.trans hlevel'')
        exact hle
  · rw [hw] at hadvance
    exact Or.inr ⟨hguard, c.ended w, hadvance, hc.of_rests hrests rfl, hrests, rfl, rfl⟩

/-- What decides whether a cursor makes a report. -/
theorem OnLevels.advance_fst {h : Histogram} {c : Cursor} (hc : c.OnLevels h)
    (hlive : c.exhausted = false) {level : Int64} (hlevel : c.plan.level? = some level) :
    (c.advance h).1
      = (c.walk.pending h || c.walk.nextExceeds h (h.layout.slotFloor level)) := by
  rcases hc.advance_cases hlive hlevel with ⟨hguard, c', heq, -⟩ | ⟨hguard, c', heq, -⟩
  · rw [heq, hguard]
  · rw [heq, hguard]

/-- With all counts in view, the slot that comes next decides it alone. -/
theorem OnLevels.reports_iff_of_total_le {h : Histogram} {c : Cursor} (hc : c.OnLevels h)
    (hlive : c.exhausted = false) {level : Int64} (hlevel : c.plan.level? = some level)
    (hall : h.total ≤ c.reading.cumulative) :
    (c.advance h).1 = true ↔ c.walk.next ≤ h.slotCount ∧
      h.layout.number level.toInt.toNat < c.walk.next ∧
      h.layout.start c.walk.next < 2 ^ 63 := by
  obtain ⟨_, hsame, hpos⟩ := hc.climbs.exists_level
  obtain rfl := Option.some.inj (hlevel.symm.trans hsame)
  have hnonneg : 0 ≤ level.toInt := by omega
  have hpending : c.walk.pending h = false := Walk.pending_eq_false_iff.2 hall
  rw [hc.advance_fst hlive hlevel, hpending, Bool.false_or, Walk.nextExceeds_iff hnonneg]

/-- A call keeps a cursor on its levels, whether it is exhausted, makes a report or
finds none. -/
theorem OnLevels.advance {h : Histogram} {c : Cursor} (hc : c.OnLevels h) :
    (c.advance h).2.OnLevels h := by
  cases hlive : c.exhausted with
  | true =>
      rw [advance_of_exhausted h hlive]
      exact hc
  | false =>
      obtain ⟨level, hlevel, -⟩ := hc.climbs.exists_level
      rcases hc.advance_cases hlive hlevel with ⟨-, c', heq, hc', -⟩ | ⟨-, c', heq, hc', -⟩
      · rw [heq]
        exact hc'
      · rw [heq]
        exact hc'

/-- A report is made by a cursor that was not exhausted, of its next level. -/
theorem OnLevels.reports {h : Histogram} {c c' : Cursor} (hc : c.OnLevels h)
    (hadvance : c.advance h = (true, c')) :
    ∃ level, c.plan.level? = some level ∧ 1 ≤ level.toInt ∧ c'.OnLevels h ∧
      Walk.Reports h level c.walk c'.walk ∧ c'.exhausted = c.plan.step?.isNone ∧
      c'.plan = c.plan.step?.getD c.plan := by
  -- An exhausted cursor makes no report, and a live one makes one or ends.
  have hlive : c.exhausted = false := exhausted_eq_false_of_report (congrArg Prod.fst hadvance)
  obtain ⟨level, hlevel, hpos⟩ := hc.climbs.exists_level
  rcases hc.advance_cases hlive hlevel with
    ⟨-, c'', heq, hc'', hreports, hstep⟩ | ⟨-, c'', heq, -⟩
  · obtain rfl : c'' = c' := congrArg Prod.snd (heq.symm.trans hadvance)
    exact ⟨level, hlevel, hpos, hc'', hreports, hstep⟩
  · exact absurd (congrArg Prod.fst (heq.symm.trans hadvance)) Bool.false_ne_true

/-- While counts are ahead, the next level is reported. -/
theorem OnLevels.exists_report {h : Histogram} {c : Cursor} (hc : c.OnLevels h)
    (hlive : c.exhausted = false) (hahead : c.reading.cumulative < h.total) :
    ∃ c', c.advance h = (true, c') := by
  obtain ⟨level, hlevel, -⟩ := hc.climbs.exists_level
  have hpending : c.walk.pending h = true := Walk.pending_iff.2 hahead
  rcases hc.advance_cases hlive hlevel with ⟨-, c', heq, -⟩ | ⟨hguard, -⟩
  · exact ⟨c', heq⟩
  · rw [hpending, Bool.true_or] at hguard
    exact absurd hguard (by decide)

/-- A run along any value levels stays on them. -/
theorem onLevels_called (h : Histogram) (rule : LevelRule) (n : Nat) :
    ((start rule.plan).called h n).OnLevels h :=
  called_induction (onLevels_start h (rule.climbs h.layout)) (fun _ hc => hc.advance) n

/-- The counts of the slots that a run enters are the counts its reports have
added. -/
theorem OnLevels.sum_added {h : Histogram} {c : Cursor} (hc : c.OnLevels h) (n : Nat) :
    ∑ i ∈ Finset.range ((c.called h n).walk.seen h), h.countAt i
      = ∑ i ∈ Finset.range (c.walk.seen h), h.countAt i
        + ((c.readings h n).map Reading.added).sum := by
  refine sum_readings (P := fun c => c.OnLevels h)
    (f := fun c => ∑ i ∈ Finset.range (c.walk.seen h), h.countAt i) hc
    (fun c hc => hc.advance) ?_ ?_ n
  · -- A call that reports enters the slots of an interval and adds exactly their counts.
    intro c hc htrue
    obtain ⟨level, -, -, -, hreports, -⟩ := hc.reports (Prod.ext htrue rfl)
    have hle : c.walk.seen h ≤ (c.advance h).2.walk.seen h := by
      rw [hreports.seen_eq]
      exact Nat.le_max_left _ _
    show _ = _ + (c.advance h).2.walk.reading.added
    rw [hreports.added_eq, Finset.sum_range_add_sum_Ico _ hle]
  · -- A call that does not report enters nothing.
    intro c hc hfalse
    have hsame : (c.advance h).2.walk.seen h = c.walk.seen h := by
      cases hlive : c.exhausted with
      | true => rw [advance_of_exhausted h hlive]
      | false =>
          obtain ⟨level, hlevel, -⟩ := hc.climbs.exists_level
          rcases hc.advance_cases hlive hlevel with ⟨-, c', heq, -⟩ | ⟨-, c', heq, -, hrests, -⟩
          · rw [heq] at hfalse
            exact absurd hfalse (by simp)
          · rw [heq]
            exact hrests.seen_eq
    show ∑ i ∈ Finset.range ((c.advance h).2.walk.seen h), h.countAt i = _
    rw [hsame]

end Cursor

end LogBuckets
