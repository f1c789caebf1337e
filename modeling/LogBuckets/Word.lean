/-!
# `LogBuckets.Word`: shifts and capped sums of 64-bit values

Recorded values are signed 64-bit words. The slot of a value comes from
shifting it down and back up, and the end of a slot may lie past the
greatest word, so the sum that finds it stops there. The operations are
kept on words, because they run once per value.
`LogBuckets.Proofs.Binary` says what each of them does to the integer
behind the word.
-/

set_option autoImplicit false

namespace LogBuckets.Word

/-- Divides `v` by `2 ^ k`, rounding down, for `k` below 64. -/
def shiftDown (v : Int64) (k : Nat) : Int64 :=
  v >>> Int64.ofNat k

/-- Multiplies `v` by `2 ^ k`, for `k` below 64; bits past the top are
dropped. -/
def shiftUp (v : Int64) (k : Nat) : Int64 :=
  v <<< Int64.ofNat k

/-- The sum of two words, or the end of the range that the exact sum
lies beyond. A wrapped sum betrays itself by moving the wrong way. -/
def addCapped (a b : Int64) : Int64 :=
  let sum := a + b
  if 0 ≤ b then
    if sum < a then Int64.maxValue else sum
  else
    if a < sum then Int64.minValue else sum

end LogBuckets.Word
