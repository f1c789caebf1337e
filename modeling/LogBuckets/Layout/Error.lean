/-!
# `LogBuckets.Layout.Error`: why a range cannot be laid out

A layout is asked for with the least value that has to be told from
zero, the greatest value to be kept, and a number of significant
figures. Each constructor is one way in which these do not fit
together; `LayoutError.message` is its wording.
-/

set_option autoImplicit false

namespace LogBuckets

/-- A reason to refuse a layout. All of them are the caller's to mend. -/
inductive LayoutError where
  /-- The lowest value is not positive. -/
  | lowestTooSmall (lowest : Int64)
  /-- The number of significant figures is not between 1 and 5. -/
  | figuresOutOfRange (figures : Nat)
  /-- The highest value is less than twice the lowest. -/
  | highestTooSmall (lowest highest : Int64)
  /-- The first bucket alone would reach the end of the 64-bit range:
  `unit` bits below the resolution and `half + 1` bits above it. -/
  | magnitudeTooLarge (unit half : Nat)
  deriving DecidableEq, Repr

/-- The wording of a refusal. -/
def LayoutError.message : LayoutError → String
  | .lowestTooSmall lowest =>
    "lowest trackable value must be at least 1, got " ++ lowest.toInt.repr
  | .figuresOutOfRange figures =>
    "significant figures must be between 1 and 5, got " ++ figures.repr
  | .highestTooSmall lowest highest =>
    "highest trackable value " ++ highest.toInt.repr ++
      " must be at least twice the lowest (" ++ lowest.toInt.repr ++ ")"
  | .magnitudeTooLarge unit half =>
    "unit magnitude " ++ unit.repr ++ " plus sub-bucket magnitude " ++ half.repr ++
      " exceeds 61"

end LogBuckets
