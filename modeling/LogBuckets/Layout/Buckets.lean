import LogBuckets.Word

/-!
# `LogBuckets.Layout.Buckets`: how many buckets reach past a value

Every bucket ends at twice the value at which the bucket before it ends.
So many buckets are needed that the last one ends past the highest value
that has to be kept, and they are counted by doubling the end of the first
one until it does.

Ends are words, and the last bucket may end at `2 ^ 63`, which is not one.
A `BucketSearch` therefore looks before it doubles: an end past half of the
greatest word stays as it is, and the bucket after it takes the rest of
the words.

* `step?`: to the next bucket, if there is need and room for it;
* `after`: the search after so many steps, or where it was over before;
* `total`: how many buckets a search that is over has found.

A word has room for fewer than 63 doublings, so 62 steps end every search.
`LogBuckets.Proofs.Layout.Buckets` shows this, and that no end is ever cut.
-/

set_option autoImplicit false

namespace LogBuckets

/-- A search for the number of buckets: `count` of them end at `reach`. -/
structure BucketSearch where
  count : Nat
  reach : Int64

namespace BucketSearch

/-- One bucket, of `2 ^ (half + 1)` slots that are `2 ^ unit` wide. -/
def start (unit half : Nat) : BucketSearch where
  count := 1
  reach := Word.shiftUp (Int64.ofNat (1 <<< (half + 1))) unit

/-- One bucket more, unless those in hand reach past `highest` already or
their end cannot be doubled. -/
def step? (highest : Int64) (s : BucketSearch) : Option BucketSearch :=
  if highest < s.reach then none
  else if Int64.maxValue / 2 < s.reach then none
  else some { count := s.count + 1, reach := Word.shiftUp s.reach 1 }

/-- The search after so many steps, or where it was over before. -/
def after (highest : Int64) (s : BucketSearch) : (steps : Nat) → BucketSearch
  | 0 => s
  | steps + 1 =>
    match s.step? highest with
    | some s' => s'.after highest steps
    | none => s

/-- The number of buckets that a search has found once it is over. If
those in hand do not reach past `highest`, their end could not be doubled,
and one more bucket reaches past every word. -/
def total (highest : Int64) (s : BucketSearch) : Nat :=
  if highest < s.reach then s.count else s.count + 1

end BucketSearch

/-- The number of buckets that reach past `highest`, when the first one has
`2 ^ (half + 1)` slots that are `2 ^ unit` wide. -/
def bucketsNeeded (unit half : Nat) (highest : Int64) : Nat :=
  ((BucketSearch.start unit half).after highest 62).total highest

end LogBuckets
