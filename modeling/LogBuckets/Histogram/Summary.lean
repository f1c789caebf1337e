import LogBuckets.Histogram.Statistics

/-!
# `LogBuckets.Histogram.Summary`: a histogram on one line

The summary line shows ten percentiles, each with its value, in
ascending order.
-/

set_option autoImplicit false

namespace LogBuckets.Histogram

/-- The percentiles of the summary line, each with how it is written. -/
def summaryPercentiles : List (String × Float) :=
  [("0", 0.0), ("50", 50.0), ("75", 75.0), ("90", 90.0), ("95", 95.0),
    ("97.5", 97.5), ("99", 99.0), ("99.9", 99.9), ("99.99", 99.99), ("100", 100.0)]

/-- One entry of the summary line, with the blank that follows it. -/
def summaryEntry (h : Histogram) (entry : String × Float) : String :=
  "(" ++ entry.1 ++ " -> " ++ (h.valueAtPercentile entry.2).toInt.repr ++ ") "

/-- The summary line. -/
def summary (h : Histogram) : String :=
  "Histogram[" ++ String.join (summaryPercentiles.map h.summaryEntry) ++ "]"

end LogBuckets.Histogram
