import LogBuckets.Binary64

/-!
# `LogBuckets.Cursor.Plan`: where a cursor reports

A plan says which of the slots or levels a cursor reports, and where it
is in doing so. Plans are made by `Plan.percentilesBy`, `Plan.linearBy`
and `Plan.logBy`, which put a usable parameter in the place of one that
is not.
-/

set_option autoImplicit false

namespace LogBuckets

/-- What a cursor reports next, and how it goes on from there. -/
inductive Plan where
  /-- Every slot. -/
  | all
  /-- Every slot that holds counts. -/
  | recorded
  /-- Percentile levels, `ticks` of them for each halving of what is left
  to 100. `level` comes next; `closed` once 100 itself was reported. -/
  | percentiles (ticks : Nat) (level : Float) (closed : Bool)
  /-- Value levels `width` apart. `level` comes next. -/
  | linear (width level : Int64)
  /-- Value levels that grow by the factor `base`. `level` comes next;
  it is the integer part of `exact`, but for the first one, which may
  have more digits than `exact`. -/
  | log (base exact : Float) (level : Int64)

namespace Plan

/-- Percentile levels from 0 on; one tick is the least. -/
def percentilesBy (ticks : Nat) : Plan :=
  .percentiles (max 1 ticks) 0.0 false

/-- Levels `width`, `2 * width` and so on; a width of 1 is the least. -/
def linearBy (width : Int64) : Plan :=
  let width := if width < 1 then 1 else width
  .linear width width

/-- Levels `first`, `first * base` and so on; 1 is the least first level,
and a base that is not above 1 becomes 2. -/
def logBy (first : Int64) (base : Float) : Plan :=
  let first := if first < 1 then 1 else first
  .log (if 1.0 < base then base else 2.0) (Binary64.ofValue first) first

/-- The distance from one percentile level to the next: 100 divided by
`ticks` and by the power of two that has just passed the number of times
that what is left goes into 100. The divisor ends at the greatest word. -/
def percentileStep (level : Float) (ticks : Nat) : Float :=
  let halvings := Binary64.exponent (100.0 / (100.0 - level)) + 1
  100.0 / Binary64.ofCount (min (ticks <<< halvings) Int64.maxValue.toNatClampNeg)

/-- The level after `level`, unless it is past the greatest word. -/
def linearStep? (width level : Int64) : Option Int64 :=
  if Int64.maxValue - width < level then none else some (level + width)

/-- The plan after the level in hand was reported, or nothing if there
is no level left. Only the value levels can run out in this way. -/
def step? : Plan → Option Plan
  | .all => some .all
  | .recorded => some .recorded
  | .percentiles ticks level closed =>
    some (.percentiles ticks (level + percentileStep level ticks) closed)
  | .linear width level => (linearStep? width level).map (.linear width)
  | .log base exact _ =>
    let exact := exact * base
    if 9223372036854775808.0 ≤ exact then none
    else some (.log base exact (Binary64.toValue exact))

end Plan

end LogBuckets
