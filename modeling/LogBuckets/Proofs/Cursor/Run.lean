import LogBuckets.Cursor.Basic
import Mathlib.Algebra.GroupWithZero.Nat
import Mathlib.Data.ENat.Basic

/-!
# `LogBuckets.Proofs.Cursor.Run`: calling a cursor again and again

`Cursor.called` is a cursor after so many calls of `advance`, whether they
made a report or not. A call that makes none is the last that does
anything: it exhausts the cursor, and an exhausted cursor stays as it is
(`advance_of_exhausted`, `advance_reports_or_exhausts`).

* `exists_reportCount`: so the calls that make a report come first, and
  `called_of_no_report`: nothing changes after them;
* `called_induction`: what every call keeps, every run keeps;
* `sum_readings`: a quantity that every report moves on by some amount has
  been moved on by the sum over all reports in the end.
-/

set_option autoImplicit false

namespace LogBuckets.Cursor

/-- The cursor after `n` calls of `advance`. -/
def called (h : Histogram) (c : Cursor) : (n : Nat) → Cursor
  | 0 => c
  | n + 1 => (c.advance h).2.called h n

/-! ### The end of a run -/

/-- An exhausted cursor answers `false` and stays as it is. -/
theorem advance_of_exhausted {c : Cursor} (h : Histogram) (hc : c.exhausted = true) :
    c.advance h = (false, c) := by
  rw [advance, if_pos hc]

/-- A call ends in a report, or for good. -/
theorem conclude_reports_or_exhausts (c : Cursor) (answer : Bool × Walk) :
    (c.conclude answer).1 = true ∨ (c.conclude answer).2.exhausted = true := by
  obtain ⟨found, walk⟩ := answer
  cases found with
  | true => exact Or.inl rfl
  | false => exact Or.inr rfl

/-- A call makes a report or exhausts the cursor. -/
theorem advance_reports_or_exhausts (h : Histogram) (c : Cursor) :
    (c.advance h).1 = true ∨ (c.advance h).2.exhausted = true := by
  by_cases hc : c.exhausted = true
  · rw [advance_of_exhausted h hc]
    exact Or.inr hc
  · rw [advance, if_neg hc]
    cases c.plan with
    | all => exact c.conclude_reports_or_exhausts _
    | recorded => exact c.conclude_reports_or_exhausts _
    | percentiles ticks level closed =>
        -- Percentile levels end in one more report, once.
        dsimp only
        split
        · exact Or.inl rfl
        · split
          · exact Or.inr rfl
          · exact Or.inl rfl
    | linear width level => exact c.conclude_reports_or_exhausts _
    | log base exact level => exact c.conclude_reports_or_exhausts _

/-- No number of calls moves an exhausted cursor. -/
theorem called_of_exhausted {c : Cursor} (h : Histogram) (hc : c.exhausted = true) (n : Nat) :
    c.called h n = c := by
  induction n with
  | zero => rfl
  | succ n ih => rw [called, advance_of_exhausted h hc, ih]

/-- One more call may come last as well as first. -/
theorem called_succ (h : Histogram) (c : Cursor) (n : Nat) :
    c.called h (n + 1) = ((c.called h n).advance h).2 := by
  induction n generalizing c with
  | zero => rfl
  | succ n ih => exact ih (c.advance h).2

/-- Only a cursor that is not exhausted makes a report. -/
theorem exhausted_eq_false_of_report {h : Histogram} {c : Cursor}
    (hreport : (c.advance h).1 = true) : c.exhausted = false := by
  rw [← Bool.not_eq_true]
  intro hc
  rw [advance_of_exhausted h hc] at hreport
  exact absurd hreport Bool.false_ne_true

/-- After a call without a report nothing changes any more. -/
theorem called_of_no_report {h : Histogram} {c : Cursor} {n m : Nat}
    (hnone : ((c.called h n).advance h).1 = false) (hm : n < m) :
    c.called h m = c.called h (n + 1) ∧ ((c.called h m).advance h).1 = false := by
  have hend := (c.called h n).advance_reports_or_exhausts h
  rw [hnone, ← called_succ] at hend
  have hexhausted : (c.called h (n + 1)).exhausted = true := hend.resolve_left Bool.false_ne_true
  -- The cursor is exhausted by the call without a report, and stays what it is then.
  have hsame : c.called h m = c.called h (n + 1) := by
    induction m, hm using Nat.le_induction with
    | base => rfl
    | succ m hm ih => rw [called_succ, ih, advance_of_exhausted h hexhausted]
  rw [hsame, advance_of_exhausted h hexhausted]
  exact ⟨rfl, rfl⟩

/-- A call that makes a report comes after calls that did. -/
theorem report_of_le {h : Histogram} {c : Cursor} {n m : Nat}
    (hreport : ((c.called h m).advance h).1 = true) (hn : n ≤ m) :
    ((c.called h n).advance h).1 = true := by
  rcases Nat.eq_or_lt_of_le hn with rfl | hlt
  · exact hreport
  · by_contra hnone
    have hend := (called_of_no_report (Bool.eq_false_of_not_eq_true hnone) hlt).2
    rw [hreport] at hend
    exact Bool.false_ne_true hend.symm

/-- The calls that make a report come first. There may be no end of them. -/
theorem exists_reportCount (h : Histogram) (c : Cursor) :
    ∃ count : ℕ∞, ∀ n : ℕ, ((c.called h n).advance h).1 = true ↔ n < count := by
  -- With a first call that makes no report, that call is where they end.
  by_cases hend : ∃ n, ((c.called h n).advance h).1 = false
  · have hfirst := Nat.find_spec hend
    refine ⟨Nat.find hend, fun n => ?_⟩
    rw [Nat.cast_lt]
    constructor
    · intro hreport
      by_contra hge
      rw [report_of_le hreport (Nat.not_lt.1 hge)] at hfirst
      exact Bool.false_ne_true hfirst.symm
    · intro hlt
      exact Bool.eq_true_of_not_eq_false (Nat.find_min hend hlt)
  · refine ⟨⊤, fun n => ⟨fun _ => ENat.natCast_lt_top n, fun _ => ?_⟩⟩
    exact Bool.eq_true_of_not_eq_false fun hnone => hend ⟨n, hnone⟩

/-! ### Inductions over runs -/

/-- What every call keeps, every run keeps. -/
theorem called_induction {P : Cursor → Prop} {h : Histogram} {c : Cursor} (start : P c)
    (step : ∀ c, P c → P (c.advance h).2) (n : Nat) : P (c.called h n) := by
  induction n generalizing c with
  | zero => exact start
  | succ n ih => exact ih (step c start)

/-- Let every report of a run move `f` on by what `g` reads off it, and let the
calls without a report leave `f` alone. Then the reports of the first `n` calls
have moved `f` on by all that is read off them. -/
theorem sum_readings {P : Cursor → Prop} {f : Cursor → Nat} {g : Reading → Nat}
    {h : Histogram} {c : Cursor} (start : P c) (step : ∀ c, P c → P (c.advance h).2)
    (report : ∀ c, P c → (c.advance h).1 = true →
      f (c.advance h).2 = f c + g (c.advance h).2.reading)
    (rest : ∀ c, P c → (c.advance h).1 = false → f (c.advance h).2 = f c) (n : Nat) :
    f (c.called h n) = f c + ((c.readings h n).map g).sum := by
  induction n generalizing c with
  | zero => rfl
  | succ n ih =>
      rw [called, readings]
      -- The next call is shared by both sides. Only a call with a report is on the list.
      cases hadvance : c.advance h with
      | mk found c' =>
          have hstep := step c start
          have hreport := report c start
          have hrest := rest c start
          have hend := c.advance_reports_or_exhausts h
          rw [hadvance] at hstep hreport hrest hend
          cases found with
          | true =>
              show f (c'.called h n)
                = f c + ((c'.reading :: c'.readings h n).map g).sum
              rw [ih hstep, hreport rfl, List.map_cons, List.sum_cons, Nat.add_assoc]
          | false =>
              -- The run is over, so the other calls change nothing.
              have hexhausted : c'.exhausted = true := hend.resolve_left Bool.false_ne_true
              show f (c'.called h n) = f c + 0
              rw [called_of_exhausted h hexhausted]
              exact hrest rfl

end LogBuckets.Cursor
