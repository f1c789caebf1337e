import LogBuckets.Cursor.Basic
import LogBuckets.Histogram.Run
import LogBuckets.Proofs.Histogram.Access

/-!
# `LogBuckets.Proofs.Cursor.Access`: cursors only look at slots there are

A walk looks up the count of each slot that it enters. Here are the ways to a report
once more, with `Histogram.fetch?` for that, which gives nothing for a slot that the
histogram does not have. Nothing is then what the whole way gives.

Only `Walk.enter` looks anything up, and every loop asks whether there is a slot left
before it enters one. So it is enough to go through the branches of each loop once,
along its own recursion, and nothing has to be known about where the walk was:
`advance?_eq` holds for every cursor, in whatever state.

* `accesses_in_bounds`: in every state that a histogram can get into, all lookups are
  for cells that there are.
-/

set_option autoImplicit false

namespace LogBuckets

namespace Walk

variable {h : Histogram} {w w' : Walk}

/-! ### Entering a slot -/

/-- `enter` with a lookup that may go wrong. The slot that comes next afterwards is
what makes the loops end. -/
def enter? (h : Histogram) (w : Walk) : Option { w' : Walk // w'.next = w.next + 1 } :=
  (h.fetch? w.next).map fun count =>
    let value := h.layout.valueAt w.next
    let cumulative := Tally.add w.reading.cumulative count
    ⟨{ next := w.next + 1
       reading :=
        { w.reading with
          count
          value
          cumulative
          floor := h.layout.slotFloor value
          ceiling := h.layout.slotCeiling value
          middle := h.layout.slotMiddle value
          percentile := share cumulative h.total } }, rfl⟩

/-- A slot that the histogram has can be entered. -/
theorem enter?_eq (hnext : w.next < h.slotCount) :
    w.enter? h = some ⟨w.enter h, w.next_enter h⟩ := by
  rw [h.slotCount_eq] at hnext
  rw [enter?, Histogram.fetch?_eq hnext]
  rfl

/-! ### The four ways to a report -/

/-- `toNextSlot` with lookups that may go wrong. -/
def toNextSlot? (h : Histogram) (w : Walk) : Option (Bool × Walk) :=
  if w.next < h.slotCount then (w.enter? h).map fun w' => (true, w'.1.reportSlot)
  else some (false, w.leave h)

/-- To the next slot, no lookup goes wrong: the walk asks for a slot before it enters
one. -/
theorem toNextSlot?_eq (h : Histogram) (w : Walk) : w.toNextSlot? h = some (w.toNextSlot h) := by
  unfold toNextSlot? toNextSlot
  split
  · rename_i hnext
    rw [enter?_eq hnext]
    rfl
  · rfl

/-- `toRecorded` with lookups that may go wrong. -/
def toRecorded? (h : Histogram) (w : Walk) : Option (Bool × Walk) :=
  if w.pending h then
    if w.next < h.slotCount then
      (w.enter? h).bind fun ⟨w', _⟩ =>
        if w'.reading.count = 0 then w'.toRecorded? h else some (true, w'.reportSlot)
    else some (false, w.leave h)
  else some (false, w)
termination_by h.slotCount - w.next
decreasing_by omega

/-- None does on the way to the next slot that holds counts. -/
theorem toRecorded?_eq (h : Histogram) (w : Walk) : w.toRecorded? h = some (w.toRecorded h) := by
  -- The cases are those of the loop itself. In the first two a slot is entered.
  fun_induction w.toRecorded h with
  | case1 w hpending hnext w' hzero ih =>
      rw [toRecorded?, if_pos hpending, if_pos hnext, enter?_eq hnext, Option.bind_some]
      exact (if_pos hzero).trans ih
  | case2 w hpending hnext w' hcount =>
      rw [toRecorded?, if_pos hpending, if_pos hnext, enter?_eq hnext, Option.bind_some]
      exact if_neg hcount
  | case3 w hpending hend => rw [toRecorded?, if_pos hpending, if_neg hend]
  | case4 w hpending => rw [toRecorded?, if_neg hpending]

/-- `seekShare` with lookups that may go wrong. -/
def seekShare? (h : Histogram) (level : Float) (w : Walk) : Option (Bool × Walk) :=
  if w.reachesShare h level then some (true, w)
  else if w.pending h then
    if w.next < h.slotCount then
      (w.enter? h).bind fun ⟨w', _⟩ => w'.seekShare? h level
    else some (false, w.leave h)
  else some (false, w)
termination_by h.slotCount - w.next
decreasing_by omega

/-- None does while a percentile level is sought. -/
theorem seekShare?_eq (h : Histogram) (level : Float) (w : Walk) :
    w.seekShare? h level = some (w.seekShare h level) := by
  fun_induction w.seekShare h level with
  | case1 w hreach => rw [seekShare?, if_pos hreach]
  | case2 w hreach hpending hnext ih =>
      rw [seekShare?, if_neg hreach, if_pos hpending, if_pos hnext, enter?_eq hnext,
        Option.bind_some]
      exact ih
  | case3 w hreach hpending hend => rw [seekShare?, if_neg hreach, if_pos hpending, if_neg hend]
  | case4 w hreach hpending => rw [seekShare?, if_neg hreach, if_neg hpending]

/-- `toShare` with lookups that may go wrong. -/
def toShare? (h : Histogram) (level : Float) (w : Walk) : Option (Bool × Walk) :=
  if w.pending h then
    (w.seekShare? h level).map fun (found, w') =>
      if found then
        let w'' := w'.report w'.reading.ceiling
        (true, { w'' with reading := { w''.reading with percentile := level } })
      else (false, w')
  else some (false, w)

/-- None does on the way to a percentile level. -/
theorem toShare?_eq (h : Histogram) (level : Float) (w : Walk) :
    w.toShare? h level = some (w.toShare h level) := by
  unfold toShare? toShare
  split
  · rw [seekShare?_eq]
    rfl
  · rfl

/-- `climb` with lookups that may go wrong. -/
def climb? (h : Histogram) (bound : Int64) (w : Walk) : Option Walk :=
  if w.reading.value < bound then
    if w.next < h.slotCount then
      (w.enter? h).bind fun ⟨w', _⟩ =>
        climb? h bound
          { w' with reading := { w'.reading with added := w'.reading.added + w'.reading.count } }
    else some (w.leave h)
  else some w
termination_by h.slotCount - w.next
decreasing_by
  show h.slotCount - w'.next < h.slotCount - w.next
  omega

/-- None does while a walk climbs, whatever it climbs to. The bound is not asked to be
the start of a slot. -/
theorem climb?_eq (h : Histogram) (bound : Int64) (w : Walk) :
    w.climb? h bound = some (w.climb h bound) := by
  fun_induction w.climb h bound with
  | case1 w hbelow hnext w' ih =>
      rw [climb?, if_pos hbelow, if_pos hnext, enter?_eq hnext, Option.bind_some]
      exact ih
  | case2 w hbelow hend => rw [climb?, if_pos hbelow, if_neg hend]
  | case3 w hbelow => rw [climb?, if_neg hbelow]

/-- `toLevel` with lookups that may go wrong. -/
def toLevel? (h : Histogram) (level : Int64) (w : Walk) : Option (Bool × Walk) :=
  let bound := h.layout.slotFloor level
  let w' := { w with reading := { w.reading with added := 0 } }
  if w'.pending h || w'.nextExceeds h bound then
    (w'.climb? h bound).map fun w'' => (true, w''.report level)
  else some (false, w')

/-- None does on the way to a value level. -/
theorem toLevel?_eq (h : Histogram) (level : Int64) (w : Walk) :
    w.toLevel? h level = some (w.toLevel h level) := by
  simp only [toLevel?, toLevel, climb?_eq]
  split <;> rfl

end Walk

/-! ### Calls -/

namespace Cursor

/-- `advance` with lookups that may go wrong. -/
def advance? (h : Histogram) (c : Cursor) : Option (Bool × Cursor) :=
  if c.exhausted then some (false, c)
  else
    match c.plan with
    | .all => (c.walk.toNextSlot? h).map c.conclude
    | .recorded => (c.walk.toRecorded? h).map c.conclude
    | .percentiles ticks level closed =>
      (c.walk.toShare? h level).map fun
      | (true, walk) => (true, c.reported walk)
      | (false, walk) =>
        if closed then (false, c.ended walk)
        else
          (true,
            { c with
              plan := .percentiles ticks level true
              walk := { walk with reading := { walk.reading with percentile := 100.0 } } })
    | .linear _ level => (c.walk.toLevel? h level).map c.conclude
    | .log _ _ level => (c.walk.toLevel? h level).map c.conclude

/-- A call never looks up a count that is not there, wherever the cursor is. -/
theorem advance?_eq (h : Histogram) (c : Cursor) : c.advance? h = some (c.advance h) := by
  unfold advance? advance
  split
  · rfl
  · cases c.plan with
    | all => exact congrArg (Option.map _) (Walk.toNextSlot?_eq h c.walk)
    | recorded => exact congrArg (Option.map _) (Walk.toRecorded?_eq h c.walk)
    | percentiles ticks level closed =>
        exact congrArg (Option.map _) (Walk.toShare?_eq h level c.walk)
    | linear width level => exact congrArg (Option.map _) (Walk.toLevel?_eq h level c.walk)
    | log base exact level => exact congrArg (Option.map _) (Walk.toLevel?_eq h level c.walk)

/-- Take a histogram of any layout and rotation, after any records and resets.

1. There are slots, as many counts as slots, and the rotation, which is what the offset
   leaves after whole turns, is one of them;
2. the rotation takes the slots to the cells one to one and onto, and every cell is
   worked out without a difference below 0 or a sum beyond 64 digits;
3. a record, the count of a slot by any number, the least value, and each call of a
   cursor in any state look up no count that is not there. -/
theorem accesses_in_bounds (g : Layout) (offset : Nat) (events : List Event) :
    let h := (Histogram.empty g offset).after events
    (0 < g.slotCount ∧ h.counts.size = g.slotCount ∧
      h.rotation = offset % g.slotCount ∧ h.rotation < g.slotCount) ∧
    (Set.BijOn h.cell (Set.Iio g.slotCount) (Set.Iio g.slotCount) ∧
      ∀ i < g.slotCount, h.cell? i = some (h.cell i)) ∧
    (∀ v n, h.record? v n = some (h.record v n)) ∧
    (∀ i, h.countAt? i = some (h.countAt i)) ∧
    h.minimum? = some h.minimum ∧
    ∀ c : Cursor, c.advance? h = some (c.advance h) := by
  intro h
  have hlayout : h.layout = g := (Histogram.empty g offset).layout_after events
  have hrotation : h.rotation = offset % g.slotCount :=
    (Histogram.empty g offset).rotation_after events
  have hsize : h.counts.size = g.slotCount := by rw [h.size_counts, hlayout]
  refine ⟨⟨g.slotCount_pos, hsize, hrotation, ?_⟩, ⟨?_, ?_⟩, h.record?_eq, h.countAt?_eq,
    h.minimum?_eq, advance?_eq h⟩
  · rw [← hlayout]
    exact h.rotation_lt
  · rw [← hlayout]
    exact h.cell_bijOn
  · intro i hi
    exact Histogram.cell?_eq (by rwa [hlayout])

end Cursor

end LogBuckets
