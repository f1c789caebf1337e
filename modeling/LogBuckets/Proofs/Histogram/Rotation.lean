import LogBuckets.Cursor.Basic
import LogBuckets.Histogram.Summary
import LogBuckets.Proofs.Histogram.Counts

/-!
# `LogBuckets.Proofs.Histogram.Rotation`: the rotation does not show

Two histograms `Agree` if they have one layout and show the same count in
every slot, the same total and the same least and greatest value. Their
rotations, and so their arrays of counts, may differ.

* `Agree.apply`: the same event keeps them in agreement, and
  `Agree.reply` that it is answered in the same way;
* `Agree.minimum` … `Agree.deviation`: they answer every question in the
  same way;
* `Agree.advance`: every cursor, in whatever state, takes the same step
  on both and is the same cursor after it. The cursor does not hold the
  histogram, so this is an equation and not a relation again.

A histogram and its rotated twin agree when they are empty, and therefore
after every history: `rotation_invisible`.
-/

set_option autoImplicit false

namespace LogBuckets.Histogram

/-- Whether two histograms show the same, slot by slot. -/
structure Agree (h h' : Histogram) : Prop where
  layout : h.layout = h'.layout
  countAt : ∀ i, h.countAt i = h'.countAt i
  total : h.total = h'.total
  least : h.least = h'.least
  greatest : h.greatest = h'.greatest

namespace Agree

variable {h h' : Histogram}

/-! ### Events -/

/-- Empty histograms of one layout agree, for any two offsets. -/
theorem empty (layout : Layout) (offset offset' : Nat) :
    Agree (Histogram.empty layout offset) (Histogram.empty layout offset') where
  layout := rfl
  countAt i := by rw [countAt_empty, countAt_empty]
  total := rfl
  least := rfl
  greatest := rfl

/-- Forgetting everything keeps the agreement. -/
theorem reset (agree : Agree h h') : Agree h.reset h'.reset where
  layout := agree.layout
  countAt i := by rw [countAt_reset, countAt_reset]
  total := rfl
  least := rfl
  greatest := rfl

/-- So does counting in the same slot, which may be in different cells. -/
theorem add (agree : Agree h h') {i : Nat} (hi : i < h.layout.slotCount) (v : Int64)
    (n : Nat) : Agree (h.add i v n) (h'.add i v n) where
  layout := agree.layout
  countAt j := by
    have hi' : i < h'.layout.slotCount := agree.layout ▸ hi
    -- A slot is looked up in its own cell on either side, so cells do not show.
    rw [countAt_add h hi, countAt_add h' hi', agree.countAt]
  total := by
    show Tally.add h.total n = Tally.add h'.total n
    rw [agree.total]
  least := by
    show (if v ≠ 0 ∧ v < h.least then v else h.least)
      = if v ≠ 0 ∧ v < h'.least then v else h'.least
    rw [agree.least]
  greatest := by
    show (if h.greatest < v then v else h.greatest)
      = if h'.greatest < v then v else h'.greatest
    rw [agree.greatest]

/-- Whether a record is taken depends on the layout alone. -/
theorem reply (agree : Agree h h') (e : Event) : h.reply e = h'.reply e := by
  cases e with
  | reset => rfl
  | record v n =>
      show some (h.record v n).1 = some (h'.record v n).1
      rw [record_fst, record_fst, agree.layout]

/-- The same event takes the same branch on both, because the branch depends
on the layout and the event alone. -/
theorem apply (agree : Agree h h') (e : Event) : Agree (h.apply e) (h'.apply e) := by
  -- A record that changes nothing, one that a slot takes, or a reset.
  rcases h.apply_cases e with
    ⟨v, n, rfl, hidle, heq⟩ | ⟨v, n, i, rfl, hslot, hn, heq⟩ | ⟨rfl, heq⟩
  · rw [heq]
    rcases hidle with hnone | rfl
    · rw [apply_record_of_none (agree.layout ▸ hnone)]
      exact agree
    · rw [apply_record_zero]
      exact agree
  · rw [heq, apply_record_of_some (agree.layout ▸ hslot) hn]
    exact agree.add (Layout.slot?_lt_slotCount hslot) v n
  · rw [heq]
    exact agree.reset

/-- So the same history keeps histograms in agreement. -/
theorem after (agree : Agree h h') (events : List Event) :
    Agree (h.after events) (h'.after events) := by
  induction events generalizing h h' with
  | nil => exact agree
  | cons e rest ih => exact ih (agree.apply e)

/-- A history is answered in the same way by both. -/
theorem replies (agree : Agree h h') (events : List Event) :
    h.replies events = h'.replies events := by
  induction events generalizing h h' with
  | nil => rfl
  | cons e rest ih =>
      rw [Histogram.replies, Histogram.replies, agree.reply, ih (agree.apply e)]

/-! ### Questions -/

/-- Both have the same slots. -/
theorem slotCount (agree : Agree h h') : h.slotCount = h'.slotCount := by
  rw [slotCount_eq, slotCount_eq, agree.layout]

/-- The count of a value is read through the slots. -/
theorem countOf (agree : Agree h h') (v : Int64) : h.countOf v = h'.countOf v := by
  rw [Histogram.countOf, Histogram.countOf, agree.layout]
  split
  · exact agree.countAt _
  · rfl

/-- The minimum reads the count of the first slot and the least value. -/
theorem minimum (agree : Agree h h') : h.minimum = h'.minimum := by
  rw [Histogram.minimum, Histogram.minimum, agree.countAt, agree.least, agree.layout]

/-- The maximum reads the greatest value. -/
theorem maximum (agree : Agree h h') : h.maximum = h'.maximum := by
  rw [Histogram.maximum, Histogram.maximum, agree.greatest, agree.layout]

/-- The walk to a rank adds up the same counts, so it stops at the same slot. It ends
with the slots that are ahead, as the walk itself does. -/
theorem slotAtRankFrom? (agree : Agree h h') (rank i below : Nat) :
    h.slotAtRankFrom? rank i below = h'.slotAtRankFrom? rank i below := by
  fun_induction h.slotAtRankFrom? rank i below with
  | case1 i below hi upTo hle =>
      rw [Histogram.slotAtRankFrom?, ← agree.slotCount, if_pos hi, ← agree.countAt]
      exact (if_pos hle).symm
  | case2 i below hi upTo hgt ih =>
      rw [ih, Histogram.slotAtRankFrom?.eq_def h' rank i below, ← agree.slotCount,
        if_pos hi, ← agree.countAt]
      exact (if_neg hgt).symm
  | case3 i below hi =>
      rw [Histogram.slotAtRankFrom?, ← agree.slotCount, if_neg hi]

/-- A rank is answered by the slot that the walk stops at. -/
theorem valueAtRank (agree : Agree h h') (rank : Nat) :
    h.valueAtRank rank = h'.valueAtRank rank := by
  rw [Histogram.valueAtRank, Histogram.valueAtRank, slotAtRank?, slotAtRank?,
    agree.slotAtRankFrom?, agree.layout]

/-- A percentage becomes the same rank, as the totals are the same. -/
theorem valueAtPercentile (agree : Agree h h') (p : Float) :
    h.valueAtPercentile p = h'.valueAtPercentile p := by
  rw [Histogram.valueAtPercentile, Histogram.valueAtPercentile, agree.total,
    agree.valueAtRank]

/-- The middles of the slots are those of the layout. -/
theorem middleAt (agree : Agree h h') (i : Nat) : h.middleAt i = h'.middleAt i := by
  rw [Histogram.middleAt, Histogram.middleAt, agree.layout]

/-- The mean adds up the counts in the order of the slots, not of the cells. So even the
rounding is the same. -/
theorem mean (agree : Agree h h') : h.mean = h'.mean := by
  have hsum : h.middleSum = h'.middleSum := by
    simp only [middleSum, agree.countAt, agree.middleAt]
    exact Nat.fold_congr agree.slotCount _ _
  rw [Histogram.mean, Histogram.mean, hsum, agree.total]

/-- So does the deviation. -/
theorem deviation (agree : Agree h h') : h.deviation = h'.deviation := by
  have hsum : ∀ center, h.squareSum center = h'.squareSum center := fun center => by
    simp only [squareSum, agree.countAt, agree.middleAt]
    exact Nat.fold_congr agree.slotCount _ _
  rw [Histogram.deviation, Histogram.deviation, hsum, agree.mean, agree.total]

/-- The summary is made of answers that agree. -/
theorem summary (agree : Agree h h') : h.summary = h'.summary := by
  have hentry : h.summaryEntry = h'.summaryEntry := funext fun entry => by
    rw [summaryEntry, summaryEntry, agree.valueAtPercentile]
  rw [Histogram.summary, Histogram.summary, hentry]

/-! ### Cursors -/

/-- Whether counts are ahead depends on the total. -/
theorem pending (agree : Agree h h') (w : Walk) : w.pending h = w.pending h' := by
  rw [Walk.pending, Walk.pending, agree.total]

/-- Entering a slot shows the same in both. -/
theorem enter (agree : Agree h h') (w : Walk) : w.enter h = w.enter h' := by
  simp only [Walk.enter, agree.countAt, agree.layout, agree.total]

/-- Both have their end at the same number. -/
theorem leave (agree : Agree h h') (w : Walk) : w.leave h = w.leave h' := by
  rw [Walk.leave, Walk.leave, agree.slotCount]

/-- The four ways to a report look at counts and bounds of slots only. -/
theorem toNextSlot (agree : Agree h h') (w : Walk) : w.toNextSlot h = w.toNextSlot h' := by
  rw [Walk.toNextSlot, Walk.toNextSlot, agree.slotCount, agree.enter, agree.leave]

/-- The loop passes the same empty slots in both. -/
theorem toRecorded (agree : Agree h h') (w : Walk) : w.toRecorded h = w.toRecorded h' := by
  -- The loops run in step: each condition depends on the layout, the total or the walk, and
  -- what is entered is equal.
  fun_induction w.toRecorded h with
  | case1 w hpending hnext w' hzero ih =>
      rw [ih, Walk.toRecorded.eq_def h' w, ← agree.pending, if_pos hpending,
        ← agree.slotCount, if_pos hnext, ← agree.enter]
      exact (if_pos hzero).symm
  | case2 w hpending hnext w' hcount =>
      rw [Walk.toRecorded, ← agree.pending, if_pos hpending, ← agree.slotCount, if_pos hnext,
        ← agree.enter]
      exact (if_neg hcount).symm
  | case3 w hpending hnext =>
      rw [Walk.toRecorded, ← agree.pending, if_pos hpending, ← agree.slotCount, if_neg hnext,
        agree.leave]
  | case4 w hpending =>
      rw [Walk.toRecorded, ← agree.pending, if_neg hpending]

/-- A share is a part of the same total. -/
theorem reachesShare (agree : Agree h h') (level : Float) (w : Walk) :
    w.reachesShare h level = w.reachesShare h' level := by
  rw [Walk.reachesShare, Walk.reachesShare, agree.total]

/-- The search for a share enters the same slots in both. -/
theorem seekShare (agree : Agree h h') (level : Float) (w : Walk) :
    w.seekShare h level = w.seekShare h' level := by
  fun_induction w.seekShare h level with
  | case1 w hreach =>
      rw [Walk.seekShare, ← agree.reachesShare, if_pos hreach]
  | case2 w hreach hpending hnext ih =>
      rw [ih, Walk.seekShare.eq_def h' level w, ← agree.reachesShare, if_neg hreach,
        ← agree.pending, if_pos hpending, ← agree.slotCount, if_pos hnext, ← agree.enter]
  | case3 w hreach hpending hnext =>
      rw [Walk.seekShare, ← agree.reachesShare, if_neg hreach, ← agree.pending,
        if_pos hpending, ← agree.slotCount, if_neg hnext, agree.leave]
  | case4 w hreach hpending =>
      rw [Walk.seekShare, ← agree.reachesShare, if_neg hreach, ← agree.pending,
        if_neg hpending]

/-- So a percentile level is reached at the same slot. -/
theorem toShare (agree : Agree h h') (level : Float) (w : Walk) :
    w.toShare h level = w.toShare h' level := by
  rw [Walk.toShare, Walk.toShare, agree.pending, agree.seekShare]

/-- The start of the next slot is that of the layout. -/
theorem nextExceeds (agree : Agree h h') (value : Int64) (w : Walk) :
    w.nextExceeds h value = w.nextExceeds h' value := by
  rw [Walk.nextExceeds, Walk.nextExceeds, agree.slotCount, agree.layout]

/-- Climbing enters the same slots and adds the same counts in both. -/
theorem climb (agree : Agree h h') (bound : Int64) (w : Walk) :
    w.climb h bound = w.climb h' bound := by
  fun_induction w.climb h bound with
  | case1 w hlow hnext w' ih =>
      rw [ih, Walk.climb.eq_def h' bound w, if_pos hlow, ← agree.slotCount, if_pos hnext,
        ← agree.enter]
  | case2 w hlow hnext =>
      rw [Walk.climb, if_pos hlow, ← agree.slotCount, if_neg hnext, agree.leave]
  | case3 w hlow =>
      rw [Walk.climb, if_neg hlow]

/-- So a value level is reported with the same counts. -/
theorem toLevel (agree : Agree h h') (level : Int64) (w : Walk) :
    w.toLevel h level = w.toLevel h' level := by
  simp only [Walk.toLevel, agree.layout, agree.pending, agree.nextExceeds, agree.climb]

/-- A cursor in any state does the same on both histograms: the same answer,
and the same cursor afterwards. -/
theorem advance (agree : Agree h h') (c : Cursor) : c.advance h = c.advance h' := by
  rw [Cursor.advance, Cursor.advance]
  simp only [agree.toNextSlot, agree.toRecorded, agree.toShare, agree.toLevel]

/-- And the reports of any cursor are the same, however many are asked for. -/
theorem readings (agree : Agree h h') (c : Cursor) (limit : Nat) :
    c.readings h limit = c.readings h' limit := by
  induction limit generalizing c with
  | zero => rfl
  | succ limit ih =>
      rw [Cursor.readings, Cursor.readings, agree.advance]
      split
      · rw [ih]
      · rfl

end Agree

/-- A histogram and one whose counts are rotated by any offset cannot be told
apart. They answer the same history in the same way, and after it:

1. they show the same ends, total, counts, percentiles, mean, deviation and
   summary;
2. a cursor of any plan makes the same reports on both, however many of them
   are asked for, and
3. a cursor that stands anywhere takes the same step on both, successful or
   not, and stands at the same place after it. -/
theorem rotation_invisible (layout : Layout) (offset : Nat) (events : List Event) :
    let h := (Histogram.empty layout 0).after events
    let h' := (Histogram.empty layout offset).after events
    (Histogram.empty layout 0).replies events
      = (Histogram.empty layout offset).replies events ∧
    (h.minimum = h'.minimum ∧ h.maximum = h'.maximum ∧ h.total = h'.total ∧
      h.slotCount = h'.slotCount ∧ (∀ v, h.countOf v = h'.countOf v) ∧
      (∀ i, h.countAt i = h'.countAt i) ∧
      (∀ p, h.valueAtPercentile p = h'.valueAtPercentile p) ∧
      h.mean = h'.mean ∧ h.deviation = h'.deviation ∧ h.summary = h'.summary) ∧
    (∀ plan limit, (Cursor.start plan).readings h limit
      = (Cursor.start plan).readings h' limit) ∧
    ∀ c : Cursor, c.advance h = c.advance h' := by
  intro h h'
  have hfresh := Agree.empty layout 0 offset
  have agree : Agree h h' := hfresh.after events
  exact ⟨hfresh.replies events,
    ⟨agree.minimum, agree.maximum, agree.total, agree.slotCount, agree.countOf,
      agree.countAt, agree.valueAtPercentile, agree.mean, agree.deviation, agree.summary⟩,
    fun plan limit => agree.readings (Cursor.start plan) limit, agree.advance⟩

end LogBuckets.Histogram
