/-!
# `LogBuckets.Binary64`: between integers and binary floating point

Percentiles, means and percentile levels are binary64 numbers. The
functions here say how an integer becomes one, how one becomes an
integer, and how many times a number can be halved before it drops
below 1. Every conversion rounds at most once, to the nearest number,
ties to the even one.
-/

set_option autoImplicit false

namespace LogBuckets.Binary64

/-- The binary64 number nearest to `n`, for `n` below `2 ^ 64`. -/
def ofCount (n : Nat) : Float :=
  n.toUInt64.toFloat

/-- The binary64 number nearest to `v`, for `v` from 0 on. -/
def ofValue (v : Int64) : Float :=
  v.toUInt64.toFloat

/-- The integer part of `x` as a count: 0 for what is negative or no
number at all, the greatest count for what is above it. -/
def toCount (x : Float) : Nat :=
  x.toUInt64.toNat

/-- The integer part of `x` as a value, for `x` from 0 up to `2 ^ 63`. -/
def toValue (x : Float) : Int64 :=
  x.toUInt64.toInt64

/-- The greatest `k` with `2 ^ k ≤ x`, for `x` from 1 on, read off the
exponent bits. It is 1024 for infinity. -/
def exponent (x : Float) : Nat :=
  (x.toBits >>> 52 &&& 0x7ff).toNat - 1023

end LogBuckets.Binary64
