/-!
# `LogBuckets.Bits`: bit lengths and rounded-up binary logarithms

Buckets are chosen by how many binary digits a value has, and the
number of slots in a bucket is a power of two with enough room for a
power of ten. Both are functions on natural numbers:

* `bitLength n`: how many binary digits `n` has, none for 0;
* `ceilLog2 n`: the least exponent whose power of two reaches `n`.

`LogBuckets.Proofs.Binary` pins each by one equivalence.
-/

set_option autoImplicit false

namespace LogBuckets

/-- The number of binary digits of `n`; 0 has none. -/
def bitLength (n : Nat) : Nat :=
  if n = 0 then 0 else n.log2 + 1

/-- The least `k` with `n ≤ 2 ^ k`. -/
def ceilLog2 (n : Nat) : Nat :=
  bitLength (n - 1)

end LogBuckets
