import LogBuckets.Histogram.Basic

/-!
# `LogBuckets.Histogram.Run`: histories of a histogram

What a histogram holds is the outcome of its history: a list of records
and resets, oldest first. `Histogram.after` plays a history;
`Histogram.apply_cases` says what one event can do, and
`Histogram.after_induction` takes what every event keeps to histories.
`samplesOf` says what should be left of it: the records since the last
reset that the layout has a slot for, with their counts. `accepted` reads
the same off the answers that the histogram gave on the way.
-/

set_option autoImplicit false

namespace LogBuckets

/-- One thing that is done to a histogram. -/
inductive Event where
  /-- So many occurrences of `value` are recorded. -/
  | record (value : Int64) (count : Nat)
  /-- Everything is forgotten. -/
  | reset

/-- The histogram after one event. -/
def Histogram.apply (h : Histogram) : Event → Histogram
  | .record v n => (h.record v n).2
  | .reset => h.reset

/-- The histogram after a history. -/
def Histogram.after (h : Histogram) (events : List Event) : Histogram :=
  events.foldl apply h

/-! ### What one event can do -/

namespace Histogram

/-- A value without a slot changes nothing. -/
theorem apply_record_of_none {h : Histogram} {v : Int64} (hslot : h.layout.slot? v = none)
    (n : Nat) : h.apply (.record v n) = h := by
  simp only [apply, record, hslot]

/-- Nor does a record of no occurrences. -/
theorem apply_record_zero (h : Histogram) (v : Int64) : h.apply (.record v 0) = h := by
  show (h.record v 0).2 = h
  unfold record
  split
  · rfl
  · rfl

/-- Any other record counts in the slot of its value. -/
theorem apply_record_of_some {h : Histogram} {v : Int64} {i n : Nat}
    (hslot : h.layout.slot? v = some i) (hn : 0 < n) :
    h.apply (.record v n) = h.add i v n := by
  simp only [apply, record, hslot, if_neg (Nat.ne_of_gt hn)]

/-- An event leaves the histogram as it is, or counts a positive number of
occurrences in the slot of a value, or is a reset. It is left alone only by
a record, of a value without a slot or of no occurrences. -/
theorem apply_cases (h : Histogram) (e : Event) :
    (∃ v n, e = .record v n ∧ (h.layout.slot? v = none ∨ n = 0) ∧ h.apply e = h) ∨
    (∃ v n i, e = .record v n ∧ h.layout.slot? v = some i ∧ 0 < n ∧
      h.apply e = h.add i v n) ∨
    (e = .reset ∧ h.apply e = h.reset) := by
  cases e with
  | reset => exact Or.inr (Or.inr ⟨rfl, rfl⟩)
  | record v n =>
      cases hslot : h.layout.slot? v with
      | none => exact Or.inl ⟨v, n, rfl, Or.inl hslot, apply_record_of_none hslot n⟩
      | some i =>
          cases n with
          | zero => exact Or.inl ⟨v, 0, rfl, Or.inr rfl, h.apply_record_zero v⟩
          | succ n =>
              have hn := n.succ_pos
              exact Or.inr (Or.inl ⟨v, n + 1, i, rfl, hslot, hn, apply_record_of_some hslot hn⟩)

/-- What every event keeps, every history keeps. -/
theorem after_induction {P : Histogram → Prop} {h : Histogram} (start : P h)
    (step : ∀ h e, P h → P (h.apply e)) (events : List Event) : P (h.after events) := by
  induction events generalizing h with
  | nil => exact start
  | cons e rest ih => exact ih (step h e start)

/-- No event changes the layout. -/
@[simp] theorem layout_apply (h : Histogram) (e : Event) :
    (h.apply e).layout = h.layout := by
  rcases h.apply_cases e with ⟨v, n, -, -, heq⟩ | ⟨v, n, i, -, -, -, heq⟩ | ⟨-, heq⟩
  · rw [heq]
  · rw [heq]; rfl
  · rw [heq]; rfl

/-- No event rotates the counts. -/
@[simp] theorem rotation_apply (h : Histogram) (e : Event) :
    (h.apply e).rotation = h.rotation := by
  rcases h.apply_cases e with ⟨v, n, -, -, heq⟩ | ⟨v, n, i, -, -, -, heq⟩ | ⟨-, heq⟩
  · rw [heq]
  · rw [heq]; rfl
  · rw [heq]; rfl

/-- So no history changes the layout. -/
@[simp] theorem layout_after (h : Histogram) (events : List Event) :
    (h.after events).layout = h.layout :=
  after_induction (P := fun h' => h'.layout = h.layout) rfl
    (fun h' e heq => (h'.layout_apply e).trans heq) events

/-- Nor does a history rotate the counts. -/
@[simp] theorem rotation_after (h : Histogram) (events : List Event) :
    (h.after events).rotation = h.rotation :=
  after_induction (P := fun h' => h'.rotation = h.rotation) rfl
    (fun h' e heq => (h'.rotation_apply e).trans heq) events

/-- A record is answered by whether the value has a slot, in every state. -/
theorem record_fst (h : Histogram) (v : Int64) (n : Nat) :
    (h.record v n).1 = (h.layout.slot? v).isSome := by
  unfold record
  split
  · next hnone => rw [hnone]; rfl
  · next i hsome =>
      rw [hsome]
      split <;> rfl

end Histogram

/-! ### What a history should leave -/

/-- The answer to one event: to a record, whether a slot holds the value.
A reset is not answered. -/
def Histogram.reply (h : Histogram) : Event → Option Bool
  | .record v n => some (h.record v n).1
  | .reset => none

/-- The answers to a history, oldest first. -/
def Histogram.replies (h : Histogram) : List Event → List (Option Bool)
  | [] => []
  | e :: events => h.reply e :: (h.apply e).replies events

/-- What one more event with its answer makes of the samples in hand: a
record of a positive count that was answered with `true` joins them, a reset
drops them all. -/
def keepAnswered (samples : List (Int64 × Nat)) :
    Event × Option Bool → List (Int64 × Nat)
  | (.record v n, answer) =>
    if answer = some true ∧ 0 < n then samples ++ [(v, n)] else samples
  | (.reset, _) => []

/-- The records since the last reset that were answered with `true` and
counted something, in the order of recording. -/
def Histogram.accepted (h : Histogram) (events : List Event) : List (Int64 × Nat) :=
  (events.zip (h.replies events)).foldl keepAnswered []

/-- What one more event makes of the samples in hand: a value with a slot
and a positive count joins them, a reset drops them all. -/
def Layout.keep (g : Layout) (samples : List (Int64 × Nat)) :
    Event → List (Int64 × Nat)
  | .record v n =>
    if (g.slot? v).isSome ∧ 0 < n then samples ++ [(v, n)] else samples
  | .reset => []

/-- The values that count after a history, with how often each was
recorded, in the order of recording. -/
def Layout.samplesOf (g : Layout) (events : List Event) : List (Int64 × Nat) :=
  events.foldl g.keep []

end LogBuckets
