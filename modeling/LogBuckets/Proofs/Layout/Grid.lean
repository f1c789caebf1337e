import LogBuckets.Layout.Basic
import LogBuckets.Proofs.Layout.Buckets
import Mathlib.Order.Monotone.Basic
import Mathlib.Tactic.Ring

/-!
# `LogBuckets.Proofs.Layout.Grid`: the slots of a layout as exact numbers

Words end at `2 ^ 63`, the slots of a layout do not have to: buckets go
on doubling for ever. This file lays all of them out in natural numbers
and so has nothing to say about overflow. Slot number `i` begins at
`start i` and is `width i` wide, and the one law that the rest follows
from is that the next slot begins where this one ends:

* `start_succ`: `start (i + 1) = start i + width i`, in a bucket and
  across the end of one;
* `start_strictMono`: so slots are in ascending order;
* `start_slotCount`: the slots of the layout end at `bound`.

In the other direction `number n` is the slot of a natural number `n`,
found from the number of binary digits of `n`:

* `number_eq_iff`: slot `i` is the slot of `n` exactly if
  `start i ≤ n < start (i + 1)`.

Both directions go through *places*. A place is a bucket and an offset,
counted in slot widths of that bucket from the value 0. Every bucket but
the first starts half way up, and `IsPlace` says so; the places are in
bijection with the slot numbers (`bucketAt_offsetAt_of_isPlace`).
-/

set_option autoImplicit false

namespace LogBuckets.Layout

/-! ### Magnitudes and sizes -/

/-- The slots of half a bucket, as a power of two. -/
theorem halfCount_eq (g : Layout) : g.halfCount = 2 ^ g.halfMagnitude := by
  rw [halfCount, Nat.one_shiftLeft]

/-- The first bucket has both its halves. -/
theorem firstCount_eq (g : Layout) : g.firstCount = 2 * g.halfCount := by
  rw [firstCount, halfCount, Nat.one_shiftLeft, Nat.one_shiftLeft, Nat.pow_succ, Nat.mul_comm]

/-- The end of the layout, as a power of two. -/
theorem bound_eq (g : Layout) :
    g.bound = 2 ^ (g.unitMagnitude + g.halfMagnitude + g.bucketCount) := by
  rw [bound, Nat.one_shiftLeft]

/-- Five figures need `2 ^ 17` slots in a bucket, and fewer figures need
fewer. -/
theorem halfMagnitude_le (g : Layout) : g.halfMagnitude ≤ 17 := by
  have key : ∀ figures ≤ 5, halfMagnitudeOf figures ≤ 17 := by decide
  rw [g.halfMagnitude_eq]
  exact key g.figures g.figures_le_five

/-- Half a bucket has no more than `2 ^ 17` slots. -/
theorem halfCount_le (g : Layout) : g.halfCount ≤ 2 ^ 17 := by
  rw [halfCount_eq]
  exact Nat.pow_le_pow_right (by decide) g.halfMagnitude_le

/-- No fewer buckets reach past the highest value. -/
theorem bucketCount_isLeast (g : Layout) :
    IsLeast { n | 1 ≤ n ∧
      g.highest.toInt < (2 ^ (g.unitMagnitude + g.halfMagnitude + n) : Nat) } g.bucketCount := by
  rw [g.bucketCount_eq]
  exact bucketsNeeded_isLeast g.highest g.magnitude_le

/-- There is a first bucket. -/
theorem one_le_bucketCount (g : Layout) : 1 ≤ g.bucketCount :=
  g.bucketCount_isLeast.1.1

/-- The last bucket ends at `2 ^ 63` or before, because a bucket that ends
there reaches past every word. -/
theorem magnitudes_le (g : Layout) :
    g.unitMagnitude + g.halfMagnitude + g.bucketCount ≤ 63 := by
  have hmagnitude := g.magnitude_le
  have hword := g.highest.toInt_lt
  let room := 63 - (g.unitMagnitude + g.halfMagnitude)
  have hsum : g.unitMagnitude + g.halfMagnitude + room = 63 := by omega
  have hleast : g.bucketCount ≤ room := by
    refine g.bucketCount_isLeast.2 ⟨by omega, ?_⟩
    rw [hsum]
    exact hword
  omega

/-- So the layout ends with the words or before. -/
theorem bound_le (g : Layout) : g.bound ≤ 2 ^ 63 := by
  rw [bound_eq]
  exact Nat.pow_le_pow_right (by decide) g.magnitudes_le

/-- The buckets reach past the highest value. -/
theorem highest_lt_bound (g : Layout) : g.highest.toInt.toNat < g.bound := by
  have hreach := g.bucketCount_isLeast.1.2
  have hlowest := g.one_le_lowest
  have htwice := g.twice_lowest_le_highest
  rw [bound_eq]
  omega

/-! ### Places -/

/-- Whether `bucket` has a slot at `offset`: the first bucket takes every
offset it has, the others the upper half of theirs. -/
def IsPlace (g : Layout) (bucket offset : Nat) : Prop :=
  offset < g.firstCount ∧ (bucket = 0 ∨ g.halfCount ≤ offset)

/-- The bucket of slot number `i`. -/
def bucketAt (g : Layout) (i : Nat) : Nat :=
  i / g.halfCount - 1

/-- The offset of slot number `i` in its bucket. -/
def offsetAt (g : Layout) (i : Nat) : Nat :=
  i - g.bucketAt i * g.halfCount

/-- Slot numbers run on from bucket to bucket. -/
theorem bucketAt_mul_add_offsetAt (g : Layout) (i : Nat) :
    g.bucketAt i * g.halfCount + g.offsetAt i = i := by
  have hle : g.bucketAt i * g.halfCount ≤ i :=
    calc g.bucketAt i * g.halfCount ≤ i / g.halfCount * g.halfCount :=
          Nat.mul_le_mul_right _ (Nat.sub_le _ _)
      _ ≤ i := Nat.div_mul_le_self _ _
  rw [offsetAt]
  omega

/-- Every slot is at a place. -/
theorem isPlace_bucketAt_offsetAt (g : Layout) (i : Nat) :
    g.IsPlace (g.bucketAt i) (g.offsetAt i) := by
  have hpos := g.halfCount_pos
  have hsplit := g.bucketAt_mul_add_offsetAt i
  have hdiv := Nat.div_add_mod i g.halfCount
  have hmod := Nat.mod_lt i hpos
  rw [IsPlace, firstCount_eq]
  -- In row 0 the offset is the slot number, in every later row it is half a
  -- bucket more than the column.
  cases hrow : i / g.halfCount with
  | zero =>
      have hbucket : g.bucketAt i = 0 := by rw [bucketAt, hrow]
      rw [hrow, Nat.mul_zero] at hdiv
      rw [hbucket, Nat.zero_mul] at hsplit
      exact ⟨by omega, Or.inl hbucket⟩
  | succ row =>
      have hbucket : g.bucketAt i = row := by rw [bucketAt, hrow, Nat.add_sub_cancel]
      rw [hrow, Nat.mul_succ, Nat.mul_comm] at hdiv
      rw [hbucket] at hsplit
      exact ⟨by omega, Or.inr (by omega)⟩

/-- A place is found again from its slot number. -/
theorem bucketAt_offsetAt_of_isPlace {g : Layout} {bucket offset : Nat}
    (h : g.IsPlace bucket offset) :
    g.bucketAt (bucket * g.halfCount + offset) = bucket
      ∧ g.offsetAt (bucket * g.halfCount + offset) = offset := by
  obtain ⟨hlt, hhalf⟩ := h
  have hpos := g.halfCount_pos
  have hbucket : g.bucketAt (bucket * g.halfCount + offset) = bucket := by
    rw [firstCount_eq] at hlt
    rw [bucketAt, Nat.add_comm, Nat.add_mul_div_right _ _ hpos]
    -- The offset is in the first or second row of its bucket, and in the second one unless
    -- the bucket is the first.
    have hrow : offset / g.halfCount < 2 := Nat.div_lt_of_lt_mul (by omega)
    cases hhalf with
    | inl hzero => omega
    | inr hge =>
        have hone : 1 ≤ offset / g.halfCount := (Nat.one_le_div_iff hpos).2 hge
        omega
  refine ⟨hbucket, ?_⟩
  rw [offsetAt, hbucket, Nat.add_sub_cancel_left]

/-! ### Where slots begin -/

/-- How many values slot number `i` takes. -/
def width (g : Layout) (i : Nat) : Nat :=
  2 ^ (g.bucketAt i + g.unitMagnitude)

/-- The least value of slot number `i`, past the end of the words too. -/
def start (g : Layout) (i : Nat) : Nat :=
  g.offsetAt i * g.width i

/-- Every slot is wide enough for a value. -/
theorem width_pos (g : Layout) (i : Nat) : 0 < g.width i :=
  Nat.two_pow_pos _

/-- A place is its offset, in widths of its bucket, from 0. -/
theorem start_of_isPlace {g : Layout} {bucket offset : Nat}
    (h : g.IsPlace bucket offset) :
    g.start (bucket * g.halfCount + offset)
      = offset * 2 ^ (bucket + g.unitMagnitude) := by
  obtain ⟨hbucket, hoffset⟩ := bucketAt_offsetAt_of_isPlace h
  rw [start, width, hbucket, hoffset]

/-- A slot begins where the one before it ends. -/
theorem start_succ (g : Layout) (i : Nat) :
    g.start (i + 1) = g.start i + g.width i := by
  have hplace := g.isPlace_bucketAt_offsetAt i
  have hsplit := g.bucketAt_mul_add_offsetAt i
  have hfirst := g.firstCount_eq
  have hhalf := g.halfCount_pos
  obtain ⟨hlt, hor⟩ := hplace
  by_cases hlast : g.offsetAt i + 1 < g.firstCount
  · -- Inside a bucket the offset goes up by one.
    have hnext : g.IsPlace (g.bucketAt i) (g.offsetAt i + 1) := by
      refine ⟨hlast, ?_⟩
      cases hor with
      | inl h => exact Or.inl h
      | inr h => exact Or.inr (by omega)
    have hstart := start_of_isPlace hnext
    rw [← Nat.add_assoc, hsplit] at hstart
    rw [hstart, start, width]
    ring
  · -- The last slot of a bucket ends where the upper half of the next begins:
    -- half as many slots of twice the width.
    have hnext : g.IsPlace (g.bucketAt i + 1) g.halfCount :=
      ⟨by omega, Or.inr (Nat.le_refl _)⟩
    have hstart := start_of_isPlace hnext
    have hnumber : (g.bucketAt i + 1) * g.halfCount + g.halfCount = i + 1 := by
      rw [Nat.add_mul]
      omega
    have hoffset : g.offsetAt i + 1 = 2 * g.halfCount := by omega
    rw [hnumber] at hstart
    calc g.start (i + 1) = g.halfCount * 2 ^ (g.bucketAt i + 1 + g.unitMagnitude) := hstart
      _ = 2 * g.halfCount * 2 ^ (g.bucketAt i + g.unitMagnitude) := by ring
      _ = (g.offsetAt i + 1) * g.width i := by rw [hoffset, width]
      _ = g.start i + g.width i := by rw [start]; ring

/-- The first slot begins at 0. -/
theorem start_zero (g : Layout) : g.start 0 = 0 := by
  rw [start, offsetAt, Nat.zero_sub, Nat.zero_mul]

/-- Slots are in ascending order, as no width is 0. -/
theorem start_strictMono (g : Layout) : StrictMono g.start :=
  strictMono_nat_of_lt_succ fun i => by
    have := g.width_pos i
    rw [start_succ]
    omega

/-- The last slot of the layout ends at `bound`. -/
theorem start_slotCount (g : Layout) : g.start g.slotCount = g.bound := by
  have hone := g.one_le_bucketCount
  have hplace : g.IsPlace g.bucketCount g.halfCount :=
    ⟨by have := g.halfCount_pos; rw [firstCount_eq]; omega, Or.inr (Nat.le_refl _)⟩
  have hstart := start_of_isPlace hplace
  rw [← Nat.succ_mul] at hstart
  rw [slotCount, hstart, bound_eq, halfCount_eq, ← Nat.pow_add]
  congr 1
  omega

/-- The slots of the layout are those that begin before its end. -/
theorem lt_slotCount_iff (g : Layout) (i : Nat) :
    i < g.slotCount ↔ g.start i < g.bound := by
  rw [← start_slotCount, g.start_strictMono.lt_iff_lt]

/-! ### The slot of a number -/

/-- The bucket that takes the numbers of as many binary digits as `n`. -/
def bucketFor (g : Layout) (n : Nat) : Nat :=
  bitLength n - (g.unitMagnitude + g.halfMagnitude + 1)

/-- The number of the slot that takes `n`. -/
def number (g : Layout) (n : Nat) : Nat :=
  g.bucketFor n * g.halfCount + n / 2 ^ (g.bucketFor n + g.unitMagnitude)

/-- A number's bucket has a place for it. The digits of the number say how
large its offset is: fewer digits than the bucket's end, and as many as its
middle unless the bucket is the first. -/
theorem isPlace_bucketFor (g : Layout) (n : Nat) :
    g.IsPlace (g.bucketFor n) (n / 2 ^ (g.bucketFor n + g.unitMagnitude)) := by
  have hpos := Nat.two_pow_pos (g.bucketFor n + g.unitMagnitude)
  constructor
  · -- Below the end of the bucket, where one more digit would be needed.
    have hend : n < 2 ^ (g.bucketFor n + g.unitMagnitude + (g.halfMagnitude + 1)) := by
      rw [← bitLength_le_iff, bucketFor]
      omega
    rw [Nat.pow_add] at hend
    rw [firstCount_eq, halfCount_eq, ← Nat.pow_succ']
    exact Nat.div_lt_of_lt_mul hend
  · by_cases hzero : g.bucketFor n = 0
    · exact Or.inl hzero
    · -- Later buckets are entered by their highest digit, which is half of them.
      have hmiddle : 2 ^ (g.bucketFor n + g.unitMagnitude + g.halfMagnitude) ≤ n := by
        rw [← lt_bitLength_iff]
        unfold bucketFor at hzero ⊢
        omega
      rw [Nat.pow_add, Nat.mul_comm] at hmiddle
      rw [← halfCount_eq] at hmiddle
      exact Or.inr ((Nat.le_div_iff_mul_le hpos).2 hmiddle)

/-- The slot of a number begins at the multiple of its width below the number. -/
theorem start_number (g : Layout) (n : Nat) :
    g.start (g.number n)
      = n / 2 ^ (g.bucketFor n + g.unitMagnitude) * 2 ^ (g.bucketFor n + g.unitMagnitude) :=
  start_of_isPlace (g.isPlace_bucketFor n)

/-- The width of the slot of a number, by its bucket. -/
theorem width_number (g : Layout) (n : Nat) :
    g.width (g.number n) = 2 ^ (g.bucketFor n + g.unitMagnitude) := by
  rw [width, number, (bucketAt_offsetAt_of_isPlace (g.isPlace_bucketFor n)).1]

/-- The slot of a number does not begin above it. -/
theorem start_number_le (g : Layout) (n : Nat) : g.start (g.number n) ≤ n := by
  rw [start_number]
  exact Nat.div_mul_le_self _ _

/-- The slot after that of a number does. -/
theorem lt_start_number_succ (g : Layout) (n : Nat) : n < g.start (g.number n + 1) := by
  rw [start_succ, start_number, width_number]
  exact Nat.lt_div_mul_add (Nat.two_pow_pos _)

/-- The slot of a number is the one whose range holds it. -/
theorem number_eq_iff (g : Layout) (n i : Nat) :
    g.number n = i ↔ g.start i ≤ n ∧ n < g.start (i + 1) := by
  constructor
  · rintro rfl
    exact ⟨g.start_number_le n, g.lt_start_number_succ n⟩
  · -- Two slots that both hold `n` begin before each other's end.
    rintro ⟨hle, hlt⟩
    have hbelow := g.start_number_le n
    have habove := g.lt_start_number_succ n
    have h1 : g.number n < i + 1 :=
      g.start_strictMono.lt_iff_lt.1 (Nat.lt_of_le_of_lt hbelow hlt)
    have h2 : i < g.number n + 1 :=
      g.start_strictMono.lt_iff_lt.1 (Nat.lt_of_le_of_lt hle habove)
    omega

/-- Exactly the numbers below `bound` have a slot of the layout. -/
theorem number_lt_slotCount_iff (g : Layout) (n : Nat) :
    g.number n < g.slotCount ↔ n < g.bound := by
  rw [← start_slotCount]
  constructor
  · intro h
    exact Nat.lt_of_lt_of_le (g.lt_start_number_succ n) (g.start_strictMono.monotone h)
  · intro h
    exact g.start_strictMono.lt_iff_lt.1 (Nat.lt_of_le_of_lt (g.start_number_le n) h)

end LogBuckets.Layout
