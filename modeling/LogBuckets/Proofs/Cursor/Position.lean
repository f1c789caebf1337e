import LogBuckets.Proofs.Cursor.Run
import LogBuckets.Proofs.Cursor.Walk

/-!
# `LogBuckets.Proofs.Cursor.Position`: what a cursor shows is where it is

The five plans move a walk in different ways, and some of them move it
even when there is nothing to report. None of them goes back, and after
each move the walk shows the slot it has entered last. `Walk.Onward` is
the relation between a walk and what a move makes of it.

* `onward_enter`, `onward_leave`: the two moves that all others consist of;
* `onward_toNextSlot`, `onward_toRecorded`, `onward_toShare`,
  `onward_toLevel`: so the four ways to a report go onward, whether they
  find one or not. A level may be any word, the bound that comes with it
  decides only how far the walk goes;
* `onward_advance`: so every call of a cursor does, whatever its plan;
* `Sound.slotPart_of_index_eq`, `Sound.slotPart_of_index_ne`: what is in view
  before the first slot and from there on, by the number `Walk.index` of the
  slot;
* `called_shows`: so that is in view after any number of calls.
-/

set_option autoImplicit false

namespace LogBuckets

namespace Walk

/-- A walk that shows what is to be seen where it is, and is not behind `w`. -/
structure Onward (h : Histogram) (w w' : Walk) : Prop where
  sound : w'.Sound h
  seen_le : w.seen h ≤ w'.seen h

variable {h : Histogram} {w w' w'' : Walk}

/-- A walk that stays is not behind itself. -/
theorem Onward.refl (hs : w.Sound h) : w.Onward h w where
  sound := hs
  seen_le := Nat.le_refl _

/-- Going onward twice is going onward. -/
theorem Onward.trans (ho : w.Onward h w') (ho' : w'.Onward h w'') : w.Onward h w'' where
  sound := ho'.sound
  seen_le := Nat.le_trans ho.seen_le ho'.seen_le

/-- Starting a report, or changing one, goes nowhere. -/
theorem Onward.congr (ho : w.Onward h w') (hnext : w''.next = w'.next)
    (hpart : w''.reading.slotPart = w'.reading.slotPart) : w.Onward h w'' where
  sound := ho.sound.congr hnext hpart
  seen_le := by
    have hseen : w''.seen h = w'.seen h := by rw [seen, seen, hnext]
    rw [hseen]
    exact ho.seen_le

/-! ### Moves -/

/-- Entering a slot goes one further. -/
theorem onward_enter (hs : w.Sound h) (hnext : w.next < h.slotCount) :
    w.Onward h (w.enter h) where
  sound := hs.enter hnext
  seen_le := by
    rw [seen_enter hnext]
    exact Nat.le_succ _

/-- Leaving the last slot keeps it in view. -/
theorem onward_leave (hs : w.Sound h) (hend : ¬ w.next < h.slotCount) :
    w.Onward h (w.leave h) := by
  obtain ⟨hsound, hsame⟩ := hs.leave (Nat.not_lt.1 hend)
  exact ⟨hsound, Nat.le_of_eq hsame.symm⟩

/-- The way to the next slot enters it, or leaves the last one. -/
theorem onward_toNextSlot (hs : w.Sound h) : w.Onward h (w.toNextSlot h).2 := by
  unfold toNextSlot
  split
  · rename_i hnext
    exact (onward_enter hs hnext).congr rfl rfl
  · rename_i hend
    exact onward_leave hs hend

/-- The way to the next slot with counts goes onward, along its own loop. -/
theorem onward_toRecorded (hs : w.Sound h) : w.Onward h (w.toRecorded h).2 := by
  -- The cases are those of the loop: an empty slot, which is passed over, one to
  -- report, no slot left, and no counts ahead. Only the first goes on.
  fun_induction w.toRecorded h with
  | case1 w hpending hnext w' hzero ih =>
      have henter := onward_enter hs hnext
      exact henter.trans (ih henter.sound)
  | case2 w hpending hnext w' hcount => exact (onward_enter hs hnext).congr rfl rfl
  | case3 w hpending hend => exact onward_leave hs hend
  | case4 w hpending => exact .refl hs

/-- So does the search for a share. -/
theorem onward_seekShare (level : Float) (hs : w.Sound h) :
    w.Onward h (w.seekShare h level).2 := by
  -- The slot in view reaches the level, or another one is tried, or there is none
  -- left, or no counts are ahead.
  fun_induction w.seekShare h level with
  | case1 w hreach => exact .refl hs
  | case2 w hreach hpending hnext ih =>
      have henter := onward_enter hs hnext
      exact henter.trans (ih henter.sound)
  | case3 w hreach hpending hend => exact onward_leave hs hend
  | case4 w hreach hpending => exact .refl hs

/-- So does the way to a percentile level, which ends in a report or not. -/
theorem onward_toShare (level : Float) (hs : w.Sound h) : w.Onward h (w.toShare h level).2 := by
  have hseek := onward_seekShare level hs
  unfold toShare
  split
  · dsimp only
    split
    · exact hseek.congr rfl rfl
    · exact hseek
  · exact .refl hs

/-- Climbing goes onward, to any bound. -/
theorem onward_climb (bound : Int64) (hs : w.Sound h) : w.Onward h (w.climb h bound) := by
  fun_induction w.climb h bound with
  | case1 w hlow hnext w₁ ih =>
      -- The counts that are added up on the way have no part in `Sound`.
      have henter : w.Onward h { w₁ with reading := { w₁.reading with
          added := w₁.reading.added + w₁.reading.count } } :=
        (onward_enter hs hnext).congr rfl rfl
      exact henter.trans (ih henter.sound)
  | case2 w hlow hend => exact onward_leave hs hend
  | case3 w hhigh => exact .refl hs

/-- So does the way to a value level. -/
theorem onward_toLevel (level : Int64) (hs : w.Sound h) : w.Onward h (w.toLevel h level).2 := by
  have hclear : w.Onward h w.cleared := (Onward.refl hs).congr rfl rfl
  have hclimb := hclear.trans (onward_climb (h.layout.slotFloor level) hclear.sound)
  rw [toLevel_eq]
  split
  · exact hclimb.congr rfl rfl
  · exact hclear

/-! ### Where a walk is -/

/-- The number of the slot in view: -1 before the first slot, and the number of
slots once the last one has been left. -/
def index (w : Walk) : Int :=
  w.next - 1

variable {h : Histogram} {w : Walk}

/-- The index is at most the number of slots. It gets there when the last slot is
left. -/
theorem Sound.index_le (hs : w.Sound h) : w.index ≤ h.slotCount := by
  have hnext := hs.next_le
  rw [index]
  omega

/-- Before the first slot nothing was entered. -/
theorem seen_of_index_eq (hindex : w.index = -1) : w.seen h = 0 := by
  rw [index] at hindex
  rw [seen]
  omega

/-- Leaving the last slot does not take it out of view. -/
theorem seen_of_index_ne (hindex : w.index ≠ -1) :
    w.seen h = (min w.index (h.slotCount - 1)).toNat + 1 := by
  have hcount : 0 < h.slotCount := by
    rw [h.slotCount_eq]
    exact h.layout.slotCount_pos
  rw [index] at hindex ⊢
  rw [seen]
  omega

/-- All counts have been seen once the last slot was left. -/
theorem seen_of_index_eq_slotCount (hindex : w.index = h.slotCount) :
    w.seen h = h.slotCount := by
  rw [index] at hindex
  rw [seen]
  omega

/-- Before the first slot everything in view is 0. -/
theorem Sound.slotPart_of_index_eq (hs : w.Sound h) (hindex : w.index = -1) :
    w.reading.slotPart = {} := by
  rw [hs.slotPart_eq, seen_of_index_eq hindex]
  rfl

/-- From the first slot on, it is what there is to see of the slot and below.
The two ways to the least value of the slot agree. -/
theorem Sound.slotPart_of_index_ne (hs : w.Sound h) (hindex : w.index ≠ -1) :
    let j := (min w.index (h.slotCount - 1)).toNat
    let value := h.layout.valueAt j
    w.reading.slotPart =
      { count := h.countAt j
        cumulative := h.countBelow (j + 1)
        value
        floor := value
        ceiling := h.layout.slotCeiling value
        middle := h.layout.slotMiddle value } := by
  intro j value
  have hseen : w.seen h = j + 1 := seen_of_index_ne hindex
  have hj : j < h.layout.slotCount := by
    have hle := w.seen_le h
    rw [h.slotCount_eq] at hle
    omega
  have hfloor : h.layout.slotFloor value = value := Layout.slotFloor_valueAt hj
  rw [hs.slotPart_eq, hseen, Histogram.view, hfloor]

end Walk

namespace Cursor

variable {h : Histogram} {c : Cursor}

/-- Making a report does not move the walk. -/
@[simp] theorem walk_reported (c : Cursor) (w : Walk) : (c.reported w).walk = w := by
  unfold reported
  split <;> rfl

/-- Nor does the end of a call, either way. -/
@[simp] theorem walk_conclude (c : Cursor) (answer : Bool × Walk) :
    (c.conclude answer).2.walk = answer.2 := by
  obtain ⟨found, w⟩ := answer
  cases found with
  | true => exact c.walk_reported w
  | false => rfl

/-- A call takes the walk onward, whatever the plan and whatever the answer. -/
theorem onward_advance (hs : c.walk.Sound h) : c.walk.Onward h (c.advance h).2.walk := by
  -- An exhausted cursor does not move. Else there is one case for each plan.
  unfold advance
  split
  · exact .refl hs
  · split
    · rw [walk_conclude]
      exact Walk.onward_toNextSlot hs
    · rw [walk_conclude]
      exact Walk.onward_toRecorded hs
    · rename_i ticks level closed _
      have hshare := Walk.onward_toShare level hs
      split
      · rename_i w hfound
        rw [hfound] at hshare
        rw [walk_reported]
        exact hshare
      · rename_i w hnone
        rw [hnone] at hshare
        -- The last report, of 100 percent, changes the percentile and nothing else.
        split
        · exact hshare
        · exact hshare.congr rfl rfl
    · rw [walk_conclude]
      exact Walk.onward_toLevel _ hs
    · rw [walk_conclude]
      exact Walk.onward_toLevel _ hs

/-- After any number of calls, what is in view is what there is to see. -/
theorem sound_called (h : Histogram) (plan : Plan) (n : Nat) :
    ((start plan).called h n).walk.Sound h :=
  called_induction (P := fun c => c.walk.Sound h) (Walk.sound_start h)
    (fun _ hs => (onward_advance hs).sound) n

/-- The counts in view never go down. -/
theorem monotone_cumulative_called (h : Histogram) (plan : Plan) :
    Monotone fun n => ((start plan).called h n).reading.cumulative := by
  refine monotone_nat_of_le_succ ?_
  intro n
  have hs := sound_called h plan n
  have honward := onward_advance hs
  show ((start plan).called h n).walk.reading.cumulative
    ≤ ((start plan).called h (n + 1)).walk.reading.cumulative
  rw [called_succ, hs.cumulative_eq, honward.sound.cumulative_eq]
  exact h.countBelow_mono honward.seen_le

/-- What a cursor shows is decided by where it is, whatever the plan, the
histogram and the number of calls, and whether the calls found a report:

1. it is between the place before the first slot, -1, and the place past the
   last one;
2. before the first slot it shows zeros;
3. afterwards it shows the count, the least, the greatest and the middle value
   of the slot where it is, of the last one if that was left, and the capped sum
   of all counts up to there;
4. that sum is at most the total;
5. it is the total once the last slot was left;
6. it never goes down from call to call. -/
theorem called_shows (layout : Layout) (offset : Nat) (events : List Event)
    (plan : Plan) :
    let h := (Histogram.empty layout offset).after events
    let c := fun n => (start plan).called h n
    (∀ n,
      let r := (c n).reading
      let index := (c n).walk.index
      let j := (min index (layout.slotCount - 1)).toNat
      (-1 ≤ index ∧ index ≤ layout.slotCount) ∧
      (index = -1 → r.count = 0 ∧ r.cumulative = 0 ∧ r.value = 0 ∧ r.floor = 0 ∧
        r.ceiling = 0 ∧ r.middle = 0) ∧
      (index ≠ -1 → r.count = h.countAt j ∧ r.value = layout.valueAt j ∧
        r.floor = layout.valueAt j ∧ r.ceiling = layout.slotCeiling (layout.valueAt j) ∧
        r.middle = layout.slotMiddle (layout.valueAt j) ∧
        r.cumulative = min Tally.limit (∑ i ∈ Finset.range (j + 1), h.countAt i)) ∧
      r.cumulative ≤ h.total ∧
      (index = layout.slotCount → r.cumulative = h.total)) ∧
    Monotone fun n => (c n).reading.cumulative := by
  intro h c
  have hlayout : h.layout = layout := Histogram.layout_after_empty layout offset events
  have hcount : h.slotCount = layout.slotCount := by rw [h.slotCount_eq, hlayout]
  -- The total is cut at the limit in the same way as the sum that a walk adds up.
  have htotal : h.total = h.countBelow h.slotCount := by
    rw [h.slotCount_eq]
    exact (Histogram.holds_accepted layout offset events).total_eq_countBelow
  refine ⟨?_, monotone_cumulative_called h plan⟩
  intro n r index j
  have hs : (c n).walk.Sound h := sound_called h plan n
  have hsum : r.cumulative = h.countBelow ((c n).walk.seen h) := hs.cumulative_eq
  have hle : index ≤ h.slotCount := hs.index_le
  rw [hcount] at hle
  refine ⟨⟨?_, hle⟩, ?_, ?_, ?_, ?_⟩
  · show -1 ≤ ((c n).walk.next : Int) - 1
    omega
  · intro hindex
    have hpart : r.slotPart = {} := hs.slotPart_of_index_eq hindex
    injection hpart with hslot hcumulative hvalue hfloor hceiling hmiddle
    exact ⟨hslot, hcumulative, hvalue, hfloor, hceiling, hmiddle⟩
  · intro hindex
    have hpart := hs.slotPart_of_index_ne hindex
    rw [hcount, hlayout] at hpart
    injection hpart with hslot hcumulative hvalue hfloor hceiling hmiddle
    exact ⟨hslot, hvalue, hfloor, hceiling, hmiddle, hcumulative⟩
  · rw [hsum, htotal]
    exact h.countBelow_mono ((c n).walk.seen_le h)
  · intro hindex
    rw [hsum, htotal, Walk.seen_of_index_eq_slotCount (hindex.trans (by rw [hcount]))]

end Cursor

end LogBuckets
