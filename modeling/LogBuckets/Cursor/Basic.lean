import LogBuckets.Cursor.Plan
import LogBuckets.Cursor.Walk

/-!
# `LogBuckets.Cursor.Basic`: reading a histogram report by report

A cursor is a walk and a plan. `advance` moves to the next report and
tells whether there was one; once there is none, there never is. The
histogram is not part of the cursor and must be the same in every call.

`readings` is the list of the first reports.
-/

set_option autoImplicit false

namespace LogBuckets

/-- A reader of a histogram. -/
structure Cursor where
  plan : Plan
  walk : Walk := {}
  /-- No report is left. This may be known as soon as the last one has
  been made. -/
  exhausted : Bool := false

namespace Cursor

/-- The cursor that follows a plan from before the first slot. -/
def start (plan : Plan) : Cursor where
  plan

/-- What the cursor shows. -/
def reading (c : Cursor) : Reading :=
  c.walk.reading

/-- The cursor after a report was made, ready for the one after it. -/
def reported (c : Cursor) (walk : Walk) : Cursor :=
  match c.plan.step? with
  | some plan => { c with plan, walk }
  | none => { c with walk, exhausted := true }

/-- The cursor after it found nothing to report. -/
def ended (c : Cursor) (walk : Walk) : Cursor :=
  { c with walk, exhausted := true }

/-- Ends in a report or for good. -/
def conclude (c : Cursor) : Bool × Walk → Bool × Cursor
  | (true, walk) => (true, c.reported walk)
  | (false, walk) => (false, c.ended walk)

/-- Moves to the next report. When the percentile levels have passed all
counts, 100 percent are reported once more, without moving. -/
def advance (h : Histogram) (c : Cursor) : Bool × Cursor :=
  if c.exhausted then (false, c)
  else
    match c.plan with
    | .all => c.conclude (c.walk.toNextSlot h)
    | .recorded => c.conclude (c.walk.toRecorded h)
    | .percentiles ticks level closed =>
      match c.walk.toShare h level with
      | (true, walk) => (true, c.reported walk)
      | (false, walk) =>
        if closed then (false, c.ended walk)
        else
          (true,
            { c with
              plan := .percentiles ticks level true
              walk := { walk with reading := { walk.reading with percentile := 100.0 } } })
    | .linear _ level => c.conclude (c.walk.toLevel h level)
    | .log _ _ level => c.conclude (c.walk.toLevel h level)

/-- The first `limit` reports, or all if there are fewer. -/
def readings (h : Histogram) (c : Cursor) : (limit : Nat) → List Reading
  | 0 => []
  | limit + 1 =>
    match c.advance h with
    | (true, c') => c'.reading :: c'.readings h limit
    | (false, _) => []

end Cursor

end LogBuckets
