import LogBuckets.Proofs.Cursor.Slots
import Mathlib.Algebra.Order.BigOperators.Group.Finset
import Mathlib.Data.Nat.Nth

/-!
# `LogBuckets.Proofs.Cursor.Recorded`: the slots that hold counts, in turn

With the plan `Plan.recorded` a cursor passes over empty slots, and it stops when
the counts up to the slot in view make the total. The counts in view and the total
are both cut at the greatest count, so once they are, the slots above are not
looked at. `Histogram.IsRecorded` says which slots are reported: those that hold
counts and that a walk reaches with counts ahead.

How many such slots a walk has behind it is the number of reports that were made
(`OnRecorded`), so report number `n` is on the slot that Mathlib's `Nat.nth` numbers
`n` among them.

* `toRecorded_cases`: one move leads to the next such slot, or there is none left
  and the total is in view;
* `OnRecorded.advance`, `OnRecorded.advance_of_end`: so does one call;
* `reading_called_recorded`: so does every call of a run;
* `recorded_reports_all_restricted`: the run makes the reports of the run over all
  slots, restricted to these slots.
-/

set_option autoImplicit false

namespace LogBuckets

/-- The slot holds counts, and those below it do not make the total. -/
def Histogram.IsRecorded (h : Histogram) (i : Nat) : Prop :=
  h.countAt i ≠ 0 ∧ h.countBelow i < h.total

/-- Whether a slot is reported can be computed, so the reports can be numbered. -/
instance (h : Histogram) : DecidablePred h.IsRecorded := fun i =>
  inferInstanceAs (Decidable (h.countAt i ≠ 0 ∧ h.countBelow i < h.total))

namespace Histogram

variable {h : Histogram} {i a b : Nat}

/-- Only slots hold counts. -/
theorem IsRecorded.lt_slotCount (hi : h.IsRecorded i) : i < h.slotCount :=
  lt_slotCount_of_countAt_ne hi.1

/-- Slots that are not reported do not add to the number of those that are. -/
theorem count_isRecorded_of_none (hab : a ≤ b) (hnone : ∀ i, a ≤ i → i < b → ¬ h.IsRecorded i) :
    Nat.count h.IsRecorded b = Nat.count h.IsRecorded a := by
  obtain ⟨d, rfl⟩ := Nat.exists_eq_add_of_le hab
  have hzero : Nat.count (fun k => h.IsRecorded (a + k)) d = 0 :=
    Nat.count_of_forall_not fun k hk => hnone (a + k) (by omega) (by omega)
  rw [Nat.count_add, hzero, Nat.add_zero]

/-- Below the cut, a slot that holds counts is never reached with the total in
view. -/
theorem isRecorded_iff_of_sum_le (htotal : h.total = h.countBelow h.slotCount)
    (hfew : ∑ j ∈ Finset.range h.slotCount, h.countAt j ≤ Tally.limit) (i : Nat) :
    h.IsRecorded i ↔ h.countAt i ≠ 0 := by
  refine ⟨And.left, fun hi => ⟨hi, ?_⟩⟩
  have hlt : i < h.slotCount := lt_slotCount_of_countAt_ne hi
  have hpart : ∑ j ∈ Finset.range (i + 1), h.countAt j
      ≤ ∑ j ∈ Finset.range h.slotCount, h.countAt j :=
    Finset.sum_le_sum_of_subset (Finset.range_mono hlt)
  rw [Finset.sum_range_succ] at hpart
  rw [htotal, countBelow, countBelow]
  omega

/-- While counts are ahead, so is a slot that holds some. -/
theorem exists_isRecorded (htotal : h.total = h.countBelow h.slotCount)
    (hahead : h.countBelow a < h.total) : ∃ i, a ≤ i ∧ h.IsRecorded i := by
  -- Otherwise all slots from `a` on are empty, one after the other.
  by_contra hnone
  have hsame : ∀ b, a ≤ b → h.countBelow b = h.countBelow a := by
    intro b hab
    induction b, hab using Nat.le_induction with
    | base => rfl
    | succ b hab ih =>
        have hempty : h.countAt b = 0 := by
          by_contra hcount
          exact hnone ⟨b, hab, hcount, by rw [ih]; exact hahead⟩
        rw [countBelow_succ, hempty, Tally.add_zero (h.countBelow_le_limit b), ih]
  -- So the sum at `a` is that of all slots, which is the total.
  rcases Nat.le_total a h.slotCount with hle | hge
  · rw [htotal, hsame _ hle] at hahead
    exact Nat.lt_irrefl _ hahead
  · have hmono := h.countBelow_mono hge
    omega

end Histogram

namespace Walk

variable {h : Histogram} {w : Walk}

/-- To the next slot that is reported, or to the end of the counts. -/
theorem toRecorded_cases (hs : w.Sound h) (hnext : w.next ≤ h.slotCount)
    (htotal : h.total = h.countBelow h.slotCount) :
    (∃ w' i, w.toRecorded h = (true, w') ∧ w'.Sound h ∧ w'.next = i + 1 ∧
      IsLeast {i | w.next ≤ i ∧ h.IsRecorded i} i ∧
      w'.reading = h.slotReport i w.reading.reached) ∨
    (∃ w', w.toRecorded h = (false, w') ∧ ∀ i, w.next ≤ i → ¬ h.IsRecorded i) := by
  -- The cases are those of the loop: an empty slot, which is passed over, one to
  -- report, no slot left, and no counts ahead. The slots do not end before the counts.
  fun_induction w.toRecorded h with
  | case1 w hpending hlt w' hzero ih =>
      have hcount : h.countAt w.next = 0 := hzero
      -- An empty slot is not one to report, so the next one is the same as seen from after
      -- it.
      have hsame : ∀ i, w.next ≤ i ∧ h.IsRecorded i ↔ w.next + 1 ≤ i ∧ h.IsRecorded i := by
        intro i
        refine and_congr_left fun hi => ⟨fun hle => ?_, Nat.le_of_succ_le⟩
        refine Nat.lt_of_le_of_ne hle ?_
        rintro rfl
        exact hi.1 hcount
      have hrest := ih (hs.enter hlt) hlt
      simp only [w', next_enter, ← hsame] at hrest
      rcases hrest with hfound | ⟨w'', heq, hnone⟩
      · exact Or.inl hfound
      · refine Or.inr ⟨w'', heq, fun i hle hi => ?_⟩
        exact hnone i ((hsame i).1 ⟨hle, hi⟩).1 hi
  | case2 w hpending hlt w' hcount =>
      have hseen : w.seen h = w.next := Nat.min_eq_left hnext
      have hahead := pending_iff.1 hpending
      rw [hs.cumulative_eq, hseen] at hahead
      refine Or.inl ⟨w'.reportSlot, w.next, rfl, (hs.enter hlt).congr rfl rfl, rfl, ?_,
        hs.reading_reportSlot hlt⟩
      exact ⟨⟨Nat.le_refl _, hcount, hahead⟩, fun i hi => hi.1⟩
  | case3 w hpending hend => exact absurd (hs.next_lt_of_pending htotal hpending) hend
  | case4 w hpending =>
      refine Or.inr ⟨w, rfl, fun i hle hi => ?_⟩
      -- All counts are in view, so they have been entered before any slot that is still
      -- ahead.
      have hall := pending_eq_false_iff.1 (Bool.eq_false_of_not_eq_true hpending)
      have hmono := h.countBelow_mono (Nat.le_trans (Nat.min_le_left _ _) hle : w.seen h ≤ i)
      rw [hs.cumulative_eq] at hall
      exact Nat.not_le.2 hi.2 (Nat.le_trans hall hmono)

end Walk

namespace Cursor

variable {h : Histogram} {c : Cursor} {n : Nat}

/-- The cursor has reported `n` slots, and so many that are to be reported are
behind it. -/
structure OnRecorded (h : Histogram) (n : Nat) (c : Cursor) : Prop where
  plan_eq : c.plan = .recorded
  not_exhausted : c.exhausted = false
  sound : c.walk.Sound h
  next_le : c.walk.next ≤ h.slotCount
  count_eq : Nat.count h.IsRecorded c.walk.next = n

/-- Before the first call, no slot with counts has been passed. -/
theorem onRecorded_start (h : Histogram) : OnRecorded h 0 (start .recorded) where
  plan_eq := rfl
  not_exhausted := rfl
  sound := Walk.sound_start h
  next_le := Nat.zero_le _
  count_eq := Nat.count_zero _

/-- What a call does, for a cursor of this plan that is not exhausted. -/
theorem OnRecorded.advance_eq (hc : c.OnRecorded h n) :
    c.advance h = c.conclude (c.walk.toRecorded h) := by
  rw [Cursor.advance, if_neg (by simp [hc.not_exhausted]), hc.plan_eq]

/-- As long as there is one, a call reports the next slot. -/
theorem OnRecorded.advance (hc : c.OnRecorded h n) (htotal : h.total = h.countBelow h.slotCount)
    (hn : n < Nat.count h.IsRecorded h.slotCount) :
    ∃ c', c.advance h = (true, c') ∧ c'.OnRecorded h (n + 1) ∧
      c'.reading = h.slotReport (Nat.nth h.IsRecorded n) c.reading.reached := by
  rcases Walk.toRecorded_cases hc.sound hc.next_le htotal with
    ⟨w, i, hmoved, hs, hnext, ⟨⟨hle, hi⟩, hleast⟩, hreading⟩ | ⟨w, hmoved, hnone⟩
  · -- None is passed over, so slot `i` is number `n` of those to report.
    have hcount : Nat.count h.IsRecorded i = n := by
      rw [← hc.count_eq]
      refine Histogram.count_isRecorded_of_none hle fun j hj hlt hrecorded => ?_
      exact Nat.not_le.2 hlt (hleast ⟨hj, hrecorded⟩)
    have hslot : Nat.nth h.IsRecorded n = i := by rw [← hcount, Nat.nth_count hi]
    have hreported : c.reported w = { c with walk := w } := by
      simp [reported, hc.plan_eq, Plan.step?]
    refine ⟨c.reported w, ?_, ?_, ?_⟩
    · rw [hc.advance_eq, hmoved]
      rfl
    · rw [hreported]
      refine ⟨hc.plan_eq, hc.not_exhausted, hs, ?_, ?_⟩
      · rw [hnext]
        exact hi.lt_slotCount
      · rw [hnext, Nat.count_succ, if_pos hi, hcount]
    · rw [hreported, hslot]
      exact hreading
  · -- If none were ahead, those before the walk would be all there are, and they are only
    -- `n`.
    have hsame := Histogram.count_isRecorded_of_none hc.next_le fun i hle _ => hnone i hle
    rw [hc.count_eq] at hsame
    omega

/-- After the last one there is no report. -/
theorem OnRecorded.advance_of_end (hc : c.OnRecorded h n)
    (htotal : h.total = h.countBelow h.slotCount)
    (hn : Nat.count h.IsRecorded h.slotCount ≤ n) : (c.advance h).1 = false := by
  rcases Walk.toRecorded_cases hc.sound hc.next_le htotal with
    ⟨w, i, -, -, -, ⟨⟨hle, hi⟩, -⟩, -⟩ | ⟨w, hmoved, -⟩
  · have hmono := Nat.count_monotone h.IsRecorded hle
    have hmore := Nat.count_strict_mono hi hi.lt_slotCount
    rw [hc.count_eq] at hmono
    omega
  · rw [hc.advance_eq, hmoved]
    rfl

/-! ### The run over recorded slots -/

/-- Each of the first calls passes one more slot with counts. -/
theorem onRecorded_called (htotal : h.total = h.countBelow h.slotCount)
    (hn : n ≤ Nat.count h.IsRecorded h.slotCount) :
    ((start .recorded).called h n).OnRecorded h n := by
  induction n with
  | zero => exact onRecorded_start h
  | succ n ih =>
      obtain ⟨c', hadvance, hc', -⟩ := (ih (Nat.le_of_succ_le hn)).advance htotal hn
      rw [called_succ, hadvance]
      exact hc'

/-- The report of each call: it is of slot number `n` among those with counts, and
starts where the one before it begins. -/
theorem reading_called_recorded (htotal : h.total = h.countBelow h.slotCount)
    (hn : n < Nat.count h.IsRecorded h.slotCount) :
    (((start .recorded).called h n).advance h).1 = true ∧
    ((start .recorded).called h (n + 1)).reading = h.slotReport (Nat.nth h.IsRecorded n)
      (if n = 0 then 0 else h.layout.valueAt (Nat.nth h.IsRecorded (n - 1))) := by
  -- By induction, as each report starts from where the one before it has got to.
  induction n with
  | zero =>
      obtain ⟨c', hadvance, -, hreading⟩ := (onRecorded_start h).advance htotal hn
      rw [called_succ]
      show ((start .recorded).advance h).1 = true ∧ ((start .recorded).advance h).2.reading = _
      rw [hadvance]
      exact ⟨rfl, hreading⟩
  | succ n ih =>
      obtain ⟨c', hadvance, -, hreading⟩ :=
        (onRecorded_called htotal (Nat.le_of_lt hn)).advance htotal hn
      have hreached : ((start .recorded).called h (n + 1)).reading.reached
          = h.layout.valueAt (Nat.nth h.IsRecorded n) :=
        congrArg Reading.reached (ih (Nat.lt_of_succ_lt hn)).2
      rw [hreached] at hreading
      rw [called_succ _ _ (n + 1), hadvance]
      exact ⟨rfl, hreading⟩

/-- Once all slots with counts were reported, nothing is. -/
theorem advance_called_recorded_of_le (htotal : h.total = h.countBelow h.slotCount)
    (hn : Nat.count h.IsRecorded h.slotCount ≤ n) :
    (((start .recorded).called h n).advance h).1 = false := by
  have hlast := (onRecorded_called htotal (Nat.le_refl _)).advance_of_end htotal (Nat.le_refl _)
  rcases Nat.eq_or_lt_of_le hn with rfl | hlt
  · exact hlast
  · exact (called_of_no_report hlast hlt).2

/-- When all recorded slots were reported, so were all counts. -/
theorem cumulative_called_recorded (htotal : h.total = h.countBelow h.slotCount) :
    ((start .recorded).called h (Nat.count h.IsRecorded h.slotCount)).reading.cumulative
      = h.total := by
  have hc := onRecorded_called htotal (Nat.le_refl (Nat.count h.IsRecorded h.slotCount))
  refine Nat.le_antisymm (hc.sound.cumulative_le htotal) ?_
  -- Were counts ahead, so would be a slot to report, one more than there are.
  by_contra hless
  have hseen : ((start .recorded).called h (Nat.count h.IsRecorded h.slotCount)).walk.seen h
      = ((start .recorded).called h (Nat.count h.IsRecorded h.slotCount)).walk.next :=
    Nat.min_eq_left hc.next_le
  have hahead := Nat.not_le.1 hless
  rw [reading, hc.sound.cumulative_eq, hseen] at hahead
  obtain ⟨i, hle, hi⟩ := Histogram.exists_isRecorded htotal hahead
  have hmono := Nat.count_monotone h.IsRecorded hle
  have hmore := Nat.count_strict_mono hi hi.lt_slotCount
  rw [hc.count_eq] at hmono
  omega

/-- The run over the slots that hold counts is the run over all slots without the
rest. There is a list of slots, `slot 0` up to `slot (number - 1)`, such that:

1. it is in strictly ascending order;
2. on it are the slots that hold counts and whose counts below, cut at the limit, are
   not the total yet;
3. that is every slot that holds counts, if the sum of all counts is not cut;
4. call number `n` reports `slot n`. The reading is the one that the run over all
   slots has for that slot, but has gone up from the value reported before it, or
   from 0 if it is the first. It goes up to the value of the slot and adds its count;
5. there are no other reports;
6. the last report has the total in view;
7. there is none if the total is 0. -/
theorem recorded_reports_all_restricted (layout : Layout) (offset : Nat) (events : List Event) :
    let h := (Histogram.empty layout offset).after events
    let all := fun n => (start .all).called h n
    let c := fun n => (start .recorded).called h n
    ∃ (number : Nat) (slot : Nat → Nat),
      (∀ n m, n < m → m < number → slot n < slot m) ∧
      (∀ i, (∃ n < number, slot n = i) ↔
        h.countAt i ≠ 0 ∧ min Tally.limit (∑ j ∈ Finset.range i, h.countAt j) < h.total) ∧
      (∑ j ∈ Finset.range layout.slotCount, h.countAt j ≤ Tally.limit →
        ∀ i, (∃ n < number, slot n = i) ↔ h.countAt i ≠ 0) ∧
      (∀ n < number, ((c n).advance h).1 = true ∧
        (c (n + 1)).reading = { (all (slot n + 1)).reading with
          reachedBefore := if n = 0 then 0 else layout.valueAt (slot (n - 1)) } ∧
        (c (n + 1)).reading.reached = (c (n + 1)).reading.value ∧
        (c (n + 1)).reading.added = (c (n + 1)).reading.count) ∧
      (∀ n, number ≤ n → ((c n).advance h).1 = false) ∧
      (c number).reading.cumulative = h.total ∧
      (h.total = 0 → number = 0) := by
  intro h all c
  have hlayout : h.layout = layout := Histogram.layout_after_empty layout offset events
  have hcount : h.slotCount = layout.slotCount := by rw [h.slotCount_eq, hlayout]
  have htotal := Histogram.total_eq_countBelow_slotCount layout offset events
  -- The slots reported are numbered in ascending order, and these are all of them.
  have hslots : ∀ i, (∃ n < Nat.count h.IsRecorded h.slotCount, Nat.nth h.IsRecorded n = i) ↔
      h.IsRecorded i := by
    intro i
    constructor
    · rintro ⟨n, hn, rfl⟩
      exact Nat.nth_mem n fun hfinite => hn.trans_le (Nat.count_le_card hfinite _)
    · intro hi
      exact ⟨Nat.count h.IsRecorded i, Nat.count_strict_mono hi hi.lt_slotCount,
        Nat.nth_count hi⟩
  refine ⟨Nat.count h.IsRecorded h.slotCount, Nat.nth h.IsRecorded, ?_, hslots, ?_, ?_, ?_,
    cumulative_called_recorded htotal, ?_⟩
  · intro n m hnm hm
    exact Nat.nth_lt_nth' hnm fun hfinite => hm.trans_le (Nat.count_le_card hfinite _)
  · intro hfew i
    rw [hslots, Histogram.isRecorded_iff_of_sum_le htotal (by rw [hcount]; exact hfew)]
  · intro n hn
    obtain ⟨hfound, hreading⟩ := reading_called_recorded htotal hn
    have hslot := ((hslots _).1 ⟨n, hn, rfl⟩).lt_slotCount
    -- The two reports of the slot differ in where they start from, and in nothing else.
    have hall : (all (Nat.nth h.IsRecorded n + 1)).reading = h.slotReport _ _ :=
      (reading_called_all hslot).2
    rw [hlayout] at hreading
    refine ⟨hfound, ?_, ?_, ?_⟩
    · show ((start .recorded).called h (n + 1)).reading = _
      rw [hreading, hall]
      rfl
    · show ((start .recorded).called h (n + 1)).reading.reached = _
      rw [hreading]
      rfl
    · show ((start .recorded).called h (n + 1)).reading.added = _
      rw [hreading]
      rfl
  · intro n hn
    exact advance_called_recorded_of_le htotal hn
  · intro hzero
    refine Nat.count_of_forall_not fun i _ hi => ?_
    exact Nat.not_lt_zero _ (hzero ▸ hi.2)

end Cursor

end LogBuckets
