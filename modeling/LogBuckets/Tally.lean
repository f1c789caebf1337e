/-!
# `LogBuckets.Tally`: counts that stop at the greatest 64-bit number

A count never wraps and never overflows: past `Tally.limit` it stays
there. Counts are natural numbers, and only their sum is special.
Because the cut is a minimum, a sum that was cut before is cut once all
the same (`add_min`), so the order in which counts arrive does not show.
-/

set_option autoImplicit false

namespace LogBuckets.Tally

/-- The greatest count that is kept. -/
def limit : Nat := UInt64.size - 1

/-- The sum of two counts, cut off at `limit`. -/
def add (a b : Nat) : Nat :=
  min limit (a + b)

/-- Counting nothing changes no count that was kept. -/
@[simp] theorem add_zero {a : Nat} (h : a ≤ limit) : add a 0 = a := by
  simp only [add]; omega

/-- A summand that was cut before does not show: the exact sum is cut once. -/
theorem add_min (a b : Nat) : add (min limit a) b = min limit (a + b) := by
  simp only [add]; omega

end LogBuckets.Tally
