import LogBuckets.Binary64
import LogBuckets.Histogram.Basic

/-!
# `LogBuckets.Histogram.Statistics`: percentiles, mean and deviation

Every recorded value is known by its slot only. A percentile is answered
with the greatest value of a slot, because that is what the values of
the slot stay below; the mean and the deviation take every value to be
in the middle of its slot.

* `rank`: a percentile of a total, as the number of a sample in order;
* `slotAtRank?`, `valueAtRank`: where that sample is, by adding up the
  counts of the slots from below;
* `valueAtPercentile`: the two together;
* `middleSum`, `mean`, `deviation`.
-/

set_option autoImplicit false

namespace LogBuckets

/-- The nearest percentile that makes sense: from 0 to 100, and 0 for
what is no number. -/
def clampPercentile (p : Float) : Float :=
  if 0.0 < p then (if p < 100.0 then p else 100.0) else 0.0

/-- How many of `total` samples a percentile takes in, rounded to the
nearest number, and one at the least. -/
def rank (total : Nat) (p : Float) : Nat :=
  max 1 (Binary64.toCount (clampPercentile p * Binary64.ofCount total / 100.0 + 0.5))

namespace Histogram

/-- The first slot from slot `i` on at which the counts add up to `rank`,
the slots below `i` having added up to `below`. -/
def slotAtRankFrom? (h : Histogram) (rank : Nat) (i below : Nat) : Option Nat :=
  if i < h.slotCount then
    let upTo := Tally.add below (h.countAt i)
    if rank ≤ upTo then some i else h.slotAtRankFrom? rank (i + 1) upTo
  else none
termination_by h.slotCount - i

/-- The slot of sample number `rank`, the samples counted from 1 in
ascending order. -/
def slotAtRank? (h : Histogram) (rank : Nat) : Option Nat :=
  h.slotAtRankFrom? rank 0 0

/-- The greatest value in the slot of sample number `rank`, and 0 when
there are not so many samples. -/
def valueAtRank (h : Histogram) (rank : Nat) : Int64 :=
  match h.slotAtRank? rank with
  | some i => h.layout.slotCeiling (h.layout.valueAt i)
  | none => 0

/-- The greatest value, at slot resolution, among the lowest `p` percent
of the samples. -/
def valueAtPercentile (h : Histogram) (p : Float) : Int64 :=
  h.valueAtRank (rank h.total p)

/-- The middle of slot number `i`. -/
def middleAt (h : Histogram) (i : Nat) : Int64 :=
  h.layout.slotMiddle (h.layout.valueAt i)

/-- The exact sum of all samples, each taken to be in the middle of its
slot. -/
def middleSum (h : Histogram) : Int :=
  h.slotCount.fold
    (fun i _ sum =>
      let count := h.countAt i
      if count = 0 then sum else sum + count * (h.middleAt i).toInt) 0

/-- The mean of the samples; no number when there are none. -/
def mean (h : Histogram) : Float :=
  Float.ofInt h.middleSum / Binary64.ofCount h.total

/-- The sum of the squared distances of the samples from `center`, added
up slot by slot from below. -/
def squareSum (h : Histogram) (center : Float) : Float :=
  h.slotCount.fold
    (fun i _ sum =>
      let count := h.countAt i
      if count = 0 then sum
      else
        let distance := Binary64.ofValue (h.middleAt i) - center
        sum + distance * distance * Binary64.ofCount count) 0.0

/-- The standard deviation of the samples as a whole population; no
number when there are none. -/
def deviation (h : Histogram) : Float :=
  (h.squareSum h.mean / Binary64.ofCount h.total).sqrt

end Histogram

end LogBuckets
