import LogBuckets.Proofs.Cursor.PercentileLevels
import LogBuckets.Proofs.Layout.Spans

/-!
# `LogBuckets.Proofs.Cursor.PercentileEnd`: whether a percentile run ends

The percentile levels stop below 100, or at it, and stay there. The run along them
ends with the report of 100 percent only if it gets past all counts, and it gets past
a slot only if the slot does not reach the level in hand. The share of the total that
a slot makes is rounded too, and with a large total a slot before the last counts can
make as much as the last level, or 100 percent itself. Such a slot is reported for
ever (`Histogram.ReachedEarly`).

* `hasValue_share`, `share_lt_of_stall`: a share as a number, and how far it stays
  below the last level while the total and the ticks are not too many;
* `onShares_called_of_reached`: what a slot does that reaches every level;
* `not_report_of_passed`: how a run ends at a level that is reached by the last counts
  only;
* `percentiles_end_unless_reached_early`: so when it ends.
  `percentile_levels_never_end` is a run that does not.
-/

set_option autoImplicit false

namespace LogBuckets

open Binary64

/-! ### Shares -/

/-- A share as a number. The two counts are rounded, and so are their product with 100
and the quotient. -/
theorem hasValue_share {part total : Nat} (hpart : part < 2 ^ 64) (hpos : 0 < total)
    (htotal : total < 2 ^ 64) :
    HasValue (share part total) (rounded (rounded (100 * rounded part) / rounded total)) := by
  have hpart' : (part : ℚ) ≤ 2 ^ 64 := by exact_mod_cast hpart.le
  have hlow := rounded_nonneg (Nat.cast_nonneg part : (0 : ℚ) ≤ part)
  have hhigh := rounded_le_two_pow (Nat.cast_nonneg part) hpart'
  -- Neither the product nor the quotient leaves the range: both are at most `2 ^ 71`.
  have hproduct : 100 * rounded part ≤ 2 ^ 71 := by linarith
  have hround := rounded_le_two_pow (by positivity) hproduct
  have hone : (1 : ℚ) ≤ rounded total :=
    two_pow_le_rounded (j := 0) (by decide) (by rw [zpow_zero]; exact_mod_cast hpos)
  have hquotient : rounded (100 * rounded part) / rounded total ≤ 2 ^ 71 := by
    rw [div_le_iff₀ (by linarith)]
    linarith
  have hnonneg := rounded_nonneg (q := 100 * rounded part) (by positivity)
  have hmul := hasValue_hundred.mul (hasValue_ofCount hpart)
    (rounded_lt_two_pow (by positivity) hproduct (by decide))
  rw [share, if_neg hpos.ne']
  exact hmul.div (hasValue_ofCount htotal) (by linarith)
    (rounded_lt_two_pow (div_nonneg hnonneg (by linarith)) hquotient (by decide))

/-- The share of a part of the total is a number: a part that is less than the total
leaves no room for 0 divided by 0. -/
theorem Histogram.exists_share {h : Histogram} (htotal : h.total = h.countBelow h.slotCount)
    {part : Nat} (hless : part < h.total) : ∃ q, HasValue (share part h.total) q := by
  have hcut : h.total ≤ Tally.limit := htotal.trans_le (h.countBelow_le_limit h.slotCount)
  have hsize : Tally.limit = 2 ^ 64 - 1 := rfl
  exact ⟨_, hasValue_share (by omega) (Nat.zero_lt_of_lt hless) (by omega)⟩

/-- A part of a total that is not too large is a share below 100, by about what one
count makes. -/
theorem rounded_share_le {part total : Nat} (hless : part < total) (hfew : total ≤ 2 ^ 50) :
    rounded (rounded (100 * rounded part) / rounded total) ≤ 100 - 92 / total + 2 ^ (-47 : ℤ) := by
  have hpos : (0 : ℚ) < total := by exact_mod_cast Nat.zero_lt_of_lt hless
  have hone : (part : ℚ) + 1 ≤ total := by exact_mod_cast hless
  have hfew' : (total : ℚ) ≤ 2 ^ 50 := by exact_mod_cast hfew
  -- Counts below `2 ^ 53` are not rounded. That leaves the product, which is off by 8 at
  -- the most, and the quotient, by the last digit of a number below 128.
  rw [rounded_natCast (by omega : part < 2 ^ 53), rounded_natCast (by omega : total < 2 ^ 53)]
  have hproduct : rounded (100 * part) ≤ 100 * part + 8 := by
    have hnear := (abs_le.1 (abs_rounded_sub_le (q := 100 * part) (j := 4) (by positivity)
      (by decide) (by norm_num; linarith))).2
    norm_num at hnear
    linarith
  have hquotient : rounded (100 * part) / total ≤ 100 - 92 / total := by
    rw [div_le_iff₀ hpos, sub_mul, div_mul_cancel₀ _ hpos.ne']
    linarith
  have hpart : (0 : ℚ) < 92 / total := by positivity
  have hnonneg : 0 ≤ rounded (100 * part) / total :=
    div_nonneg (rounded_nonneg (by positivity)) hpos.le
  have hnear := (abs_le.1 (abs_rounded_sub_le (q := rounded (100 * part) / total) (j := -46)
    hnonneg (by decide) (by norm_num; linarith))).2
  norm_num at hnear ⊢
  linarith

/-- It is below a level that stays, if the ticks are not too many for the total. -/
theorem share_lt_of_stall {level : Float} {q : ℚ} {ticks part total : Nat}
    (hlevel : HasValue level q) (hq : q ≤ 100) (hticks : 0 < ticks)
    (hstall : Plan.nextValue level ticks q = q) (hless : part < total)
    (hfew : ticks * total ≤ 2 ^ 50) : share part total < level := by
  have hpos : 0 < total := Nat.zero_lt_of_lt hless
  have hfewTicks : ticks ≤ 2 ^ 50 := (Nat.le_mul_of_pos_right ticks hpos).trans hfew
  have hfewCounts : total ≤ 2 ^ 50 := (Nat.le_mul_of_pos_left total hticks).trans hfew
  -- Both numbers are known up to their roundings, so rationals are compared.
  have hvalue := hasValue_share (by omega : part < 2 ^ 64) hpos (by omega : total < 2 ^ 64)
  rw [hvalue.lt_iff hlevel]
  have hshare := rounded_share_le hless hfewCounts
  have hclose := Plan.hundred_sub_le_of_stall hlevel hq hticks (by omega) hstall
  -- What one count makes is more than what is left to 100.
  have hfar : ticks * 2 ^ (-44 : ℤ) + 2 ^ (-46 : ℤ) < 92 / (total : ℚ) := by
    have hpos' : (0 : ℚ) < total := by exact_mod_cast hpos
    have hfew' : (ticks : ℚ) * total ≤ 2 ^ 50 := by exact_mod_cast hfew
    have hfewCounts' : (total : ℚ) ≤ 2 ^ 50 := by exact_mod_cast hfewCounts
    rw [lt_div_iff₀ hpos', add_mul]
    norm_num
    linarith
  norm_num at hshare hclose hfar ⊢
  linarith

/-- A slot before the last counts makes as much of the total as a level asks for. -/
def Histogram.ReachedEarly (h : Histogram) (level : Float) : Prop :=
  ∃ i : Nat, h.countAt i ≠ 0 ∧ level ≤ share (h.countBelow (i + 1)) h.total ∧
    h.countBelow (i + 1) < h.total

namespace Cursor

variable {h : Histogram} {ticks n i : Nat} {c : Cursor}

/-! ### Slots that are never passed -/

/-- A cursor that has not passed a slot with counts after it does not pass it, if the
slot reaches the level in hand. -/
theorem OnShares.advance_of_reached (hc : c.OnShares h ticks n)
    (htotal : h.total = h.countBelow h.slotCount) (hcount : h.countAt i ≠ 0)
    (hreached : Plan.percentileLevel ticks n ≤ share (h.countBelow (i + 1)) h.total)
    (hahead : h.countBelow (i + 1) < h.total) (hindex : c.walk.index ≤ i) :
    (c.advance h).2.OnShares h ticks (n + 1) ∧ (c.advance h).2.walk.index ≤ i := by
  have hmem : i ∈ h.reaching (Plan.percentileLevel ticks n) c.walk.index :=
    ⟨hindex, hcount, hreached⟩
  -- The slot reaches the level, so a report rests there or on an earlier slot.
  rcases hc.advance_cases htotal with ⟨c', heq, hc', hreports⟩ | ⟨c', -, -, hcompletes, -⟩
  · obtain ⟨j, hj, hleast, -⟩ := hreports.rests
    have hle := hleast.2 hmem
    rw [heq]
    refine ⟨hc', ?_⟩
    show c'.walk.index ≤ i
    omega
  · exfalso
    -- The final step needs that no slot ahead reaches the level, but this one does.
    have hseen : c.walk.seen h ≤ i + 1 := by
      rw [Walk.index] at hindex
      rw [Walk.seen]
      omega
    have hpending : c.walk.reading.cumulative < h.total := by
      rw [hc.sound.cumulative_eq]
      exact (h.countBelow_mono hseen).trans_lt hahead
    have hall := hcompletes.none_reaches hpending i hmem
    have hmono := h.countBelow_mono (Nat.le_add_right i 1)
    omega

/-- So with a slot that reaches every level and has counts after it, there is no end
of the levels. -/
theorem onShares_called_of_reached (htotal : h.total = h.countBelow h.slotCount)
    (hcount : h.countAt i ≠ 0)
    (hreached : ∀ n, Plan.percentileLevel ticks n ≤ share (h.countBelow (i + 1)) h.total)
    (hahead : h.countBelow (i + 1) < h.total) (n : Nat) :
    ((start (.percentiles ticks 0.0 false)).called h n).OnShares h ticks n ∧
      ((start (.percentiles ticks 0.0 false)).called h n).walk.index ≤ i := by
  induction n with
  | zero =>
      refine ⟨onShares_start h ticks, ?_⟩
      show ((0 : Nat) : Int) - 1 ≤ i
      omega
  | succ n ih =>
      rw [called_succ]
      exact ih.1.advance_of_reached htotal hcount (hreached n) hahead ih.2

/-- A slot that makes 100 percent reaches every level. -/
theorem not_exhausted_of_hundred (hticks : 0 < ticks) (htotal : h.total = h.countBelow h.slotCount)
    (hcount : h.countAt i ≠ 0) (hshare : 100.0 ≤ share (h.countBelow (i + 1)) h.total)
    (hahead : h.countBelow (i + 1) < h.total) (n : Nat) :
    ((start (.percentiles ticks 0.0 false)).called h n).exhausted = false := by
  obtain ⟨r, hr⟩ := Histogram.exists_share htotal hahead
  have hreached : ∀ n, Plan.percentileLevel ticks n ≤ share (h.countBelow (i + 1)) h.total := by
    intro n
    obtain ⟨q, hq, -⟩ := Plan.hasValue_percentileLevel hticks n
    exact hq.le_trans hasValue_hundred hr (Plan.percentileLevel_le_hundred hticks n) hshare
  exact (onShares_called_of_reached htotal hcount hreached hahead n).1.not_exhausted

/-! ### The end of the levels -/

/-- A level that is reached by the last counts only is the last one that is reported
before 100 percent. -/
theorem not_report_of_passed (htotal : h.total = h.countBelow h.slotCount)
    (hpassed : ¬ h.ReachedEarly (Plan.percentileLevel ticks n)) :
    (((start (.percentiles ticks 0.0 false)).called h (n + 2)).advance h).1 = false := by
  -- Had one more level been reported, then counts would have been ahead of the slot on
  -- which the level before rests, which is that level reached early.
  by_contra hmore
  rw [Bool.not_eq_false] at hmore
  have hnext := report_of_le hmore (Nat.le_succ (n + 1))
  have hon := onShares_called htotal (report_of_le hmore (Nat.le_add_right n 2))
  have hon' := onShares_called htotal hnext
  rw [called_succ] at hnext hmore
  obtain ⟨-, hreports⟩ := hon.reportsShare htotal hnext
  obtain ⟨-, hreports'⟩ := hon'.reportsShare htotal hmore
  obtain ⟨i, hindex, ⟨⟨-, hcount, hreached⟩, -⟩, -⟩ := hreports.rests
  -- Counts were ahead after this slot, or the next level would not have been reported.
  have hpending := hreports'.pending
  rw [called_succ, hreports.sound.cumulative_eq] at hpending
  have hi := Histogram.lt_slotCount_of_countAt_ne hcount
  have hseen : ((start (.percentiles ticks 0.0 false)).called h n |>.advance h).2.walk.seen h
      = i + 1 := by
    rw [Walk.index] at hindex
    rw [Walk.seen]
    omega
  rw [hseen] at hpending
  exact hpassed ⟨i, hcount, hreached, hpending⟩

/-- When a run along percentile levels ends. There is a last level, up to which the
levels climb and at which they stay.

1. If the last level is reached by the last counts only, the run ends three calls after
   it at the latest, and the levels that it reports before 100 percent climb;
2. if it is reached before, the run never ends, and goes on to report the last level;
3. as long as the ticks times the total are not above `2 ^ 50`, it is not. -/
theorem percentiles_end_unless_reached_early (layout : Layout) (offset : Nat)
    (events : List Event) (ticks : Nat) :
    let h := (Histogram.empty layout offset).after events
    let level := Plan.percentileLevel (max 1 ticks)
    let c := fun n => (start (.percentilesBy ticks)).called h n
    ∃ last : Nat,
      (∀ n < last, level n < level (n + 1)) ∧
      (∀ n, last ≤ n → level n = level last) ∧
      level last ≤ 100.0 ∧
      (¬ h.ReachedEarly (level last) → (c (last + 3)).exhausted = true ∧
        ∀ n, ((c (n + 2)).advance h).1 = true →
          (c (n + 1)).reading.percentile < (c (n + 2)).reading.percentile) ∧
      (h.ReachedEarly (level last) → ∀ n, ((c n).advance h).1 = true ∧
        (last ≤ n → (c (n + 1)).reading.percentile = level last)) ∧
      (max 1 ticks * h.total ≤ 2 ^ 50 → ¬ h.ReachedEarly (level last)) := by
  intro h level c
  have hticks : 0 < max 1 ticks := by omega
  have htotal := Histogram.total_eq_countBelow_slotCount layout offset events
  have hcall : ∀ n, c (n + 1) = ((c n).advance h).2 := called_succ h _
  obtain ⟨last, hstall, hclimb⟩ := Plan.exists_lastLevel hticks
  have hstay : ∀ n, last ≤ n → level n = level last := fun n =>
    Plan.percentileLevel_of_stall hstall
  -- A call that is followed by a report has reported a level, not 100 percent.
  have hlevels : ∀ n, ((c (n + 1)).advance h).1 = true →
      (c (n + 1)).reading.percentile = level n := by
    intro n hmore
    have hon := onShares_called htotal (report_of_le hmore (Nat.le_succ n))
    rw [hcall] at hmore ⊢
    exact (hon.reportsShare htotal hmore).2.percentile_eq
  obtain ⟨q, hq, hhigh⟩ := Plan.hasValue_percentileLevel hticks last
  refine ⟨last, hclimb, hstay, Plan.percentileLevel_le_hundred hticks last, ?_, ?_, ?_⟩
  · intro hpassed
    constructor
    · have hnone : ((c (last + 2)).advance h).1 = false := not_report_of_passed htotal hpassed
      have hend := (c (last + 2)).advance_reports_or_exhausts h
      rw [hnone, ← hcall] at hend
      exact hend.resolve_left Bool.false_ne_true
    · intro n hmore
      rw [hlevels n (report_of_le hmore (Nat.le_succ (n + 1))), hlevels (n + 1) hmore]
      -- Before the last level the levels increase; from there on nothing is reported.
      rcases Nat.lt_or_ge n last with hlt | hge
      · exact hclimb n hlt
      · rw [← hstay n hge] at hpassed
        have hnone : ((c (n + 2)).advance h).1 = false := not_report_of_passed htotal hpassed
        rw [hnone] at hmore
        exact absurd hmore Bool.false_ne_true
  · rintro ⟨i, hcount, hreached, hahead⟩
    -- The levels never rise above the last one, so the slot that reaches that one early
    -- reaches all of them.
    obtain ⟨r, hr⟩ := Histogram.exists_share htotal hahead
    have hall : ∀ n, level n ≤ share (h.countBelow (i + 1)) h.total := by
      intro n
      obtain ⟨p, hp, -⟩ := Plan.hasValue_percentileLevel hticks n
      exact hp.le_trans hq hr (Plan.percentileLevel_le_of_stall hticks hstall n) hreached
    have hon := onShares_called_of_reached htotal hcount hall hahead
    intro n
    refine ⟨(hon n).1.report htotal, fun hn => ?_⟩
    rw [hlevels n ((hon (n + 1)).1.report htotal), hstay n hn]
  · rintro hfew ⟨i, hcount, hreached, hahead⟩
    have hsame : Plan.nextValue (level last) (max 1 ticks) q = q := by
      have hnext := Plan.hasValue_next hq hhigh hticks
      rw [← Plan.percentileLevel, hstall] at hnext
      exact hnext.value_unique hq
    obtain ⟨r, hr⟩ := Histogram.exists_share htotal hahead
    -- With so few ticks, a share short of the total is below the level that stays.
    have hless := share_lt_of_stall hq hhigh hticks hsame hahead hfew
    exact not_lt.2 ((hq.le_iff hr).1 hreached) ((hr.lt_iff hq).1 hless)

/-- Of 1152921504606846977 counts, all but one are 100 percent when rounded. With one
level for each halving, the last level is 100, so the run does not get past them. -/
theorem percentile_levels_never_end :
    ∃ layout, Layout.make 1 255 2 = .ok layout ∧
      let h := (Histogram.empty layout 0).after [.record 1 1152921504606846976, .record 2 1]
      h.total = 1152921504606846977 ∧ h.countBelow 2 = 1152921504606846976 ∧
      ¬ ∃ n, ((start (.percentilesBy 1)).called h n).exhausted = true := by
  let recorded := fun g => (Histogram.empty g 0).after [.record 1 1152921504606846976, .record 2 1]
  obtain ⟨layout, hmake, htotal, hbelow, hcount, hshare⟩ :
      ∃ g, Layout.make 1 255 2 = .ok g ∧ (recorded g).total = 1152921504606846977 ∧
        (recorded g).countBelow 2 = 1152921504606846976 ∧ (recorded g).countAt 1 ≠ 0 ∧
        100.0 ≤ share ((recorded g).countBelow 2) (recorded g).total :=
    Layout.exists_make_ok (by decide +kernel)
  refine ⟨layout, hmake, htotal, hbelow, ?_⟩
  rintro ⟨n, hexhausted⟩
  -- One count, that of 2, is above slot 1.
  have hahead : (recorded layout).countBelow 2 < (recorded layout).total := by
    rw [hbelow, htotal]
    exact Nat.lt_succ_self _
  have hlive := not_exhausted_of_hundred Nat.one_pos
    (Histogram.total_eq_countBelow_slotCount layout 0 _) hcount hshare hahead n
  exact Bool.false_ne_true (hlive.symm.trans hexhausted)

end Cursor

end LogBuckets
