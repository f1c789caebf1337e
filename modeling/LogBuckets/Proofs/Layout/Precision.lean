import LogBuckets.Proofs.Layout.Spans
import Mathlib.Algebra.Order.Group.Unbundled.Int

/-!
# `LogBuckets.Proofs.Layout.Precision`: what significant figures promise

A layout is asked for with a number of significant figures, and a value is
known by its slot only. This file says how much of the value that leaves. A
slot is never wider than `10 ^ -figures` of the values in it, as long as those
are at least `10 ^ figures` times the least value that has to be told from 0.

The reason is in the places of the slots (`Proofs.Layout.Grid`). Every bucket
but the first starts half way up, at `halfCount` slot widths from 0, and
`halfCount` is large enough to have room for the figures:

* `pow_figures_le_halfCount`: `10 ^ figures ≤ halfCount`;
* `width_mul_le`: so no slot is too wide for its place;
* `toInt_slotMiddle`: the middle of a slot is half a width from its start, and
  no sum leaves the words;
* `significant_figures_kept`: all of it for one value.
-/

set_option autoImplicit false

namespace LogBuckets.Layout

/-! ### Widths against places -/

/-- Twice as many slots as half a bucket has tell the whole numbers up to
`2 * 10 ^ figures` apart. -/
theorem pow_figures_le_halfCount (g : Layout) : 10 ^ g.figures ≤ g.halfCount := by
  have hreach : 2 * 10 ^ g.figures ≤ 2 ^ (g.halfMagnitude + 1) := by
    rw [← ceilLog2_le_iff, g.halfMagnitude_eq]
    show ceilLog2 (2 * Nat.pow 10 g.figures) ≤ ceilLog2 (2 * Nat.pow 10 g.figures) - 1 + 1
    omega
  rw [Nat.pow_succ] at hreach
  rw [halfCount_eq]
  omega

/-- The unit is not above the lowest value that has to be told apart. -/
theorem two_pow_unitMagnitude_le (g : Layout) : 2 ^ g.unitMagnitude ≤ g.lowest.toInt.toNat := by
  have hlow := g.one_le_lowest
  rw [g.unitMagnitude_eq]
  exact Nat.log2_self_le (by omega)

/-- A slot of the first bucket is no wider than the lowest value, and a slot of
a later bucket begins at `10 ^ figures` of its widths or above. -/
theorem width_mul_le (g : Layout) (i : Nat) :
    g.width i * 10 ^ g.figures
      ≤ max (g.start i) (g.lowest.toInt.toNat * 10 ^ g.figures) := by
  rcases (g.isPlace_bucketAt_offsetAt i).2 with hzero | hhalf
  · have hunit : g.width i ≤ g.lowest.toInt.toNat := by
      rw [width, hzero, Nat.zero_add]
      exact g.two_pow_unitMagnitude_le
    exact Nat.le_trans (Nat.mul_le_mul_right _ hunit) (Nat.le_max_right _ _)
  · have hroom : 10 ^ g.figures ≤ g.offsetAt i :=
      Nat.le_trans g.pow_figures_le_halfCount hhalf
    have hstart : g.width i * 10 ^ g.figures ≤ g.start i := by
      rw [start, Nat.mul_comm]
      exact Nat.mul_le_mul_right _ hroom
    exact Nat.le_trans hstart (Nat.le_max_left _ _)

/-! ### The middle -/

/-- Every slot ends with the words or before. -/
theorem start_succ_le {g : Layout} {i : Nat} (hi : i < g.slotCount) :
    g.start (i + 1) ≤ 2 ^ 63 := by
  have hmono := g.start_strictMono.monotone (Nat.succ_le_of_lt hi)
  rw [start_slotCount] at hmono
  exact Nat.le_trans hmono g.bound_le

/-- The middle of a slot, rounded down. -/
theorem toInt_slotMiddle {g : Layout} {v : Int64} {i : Nat} (h : g.slot? v = some i) :
    (g.slotMiddle v).toInt = (g.start i + g.width i / 2 : Nat) := by
  have hend := start_succ_le (slot?_lt_slotCount h)
  have hnext := g.start_succ i
  have hwidth := g.width_pos i
  rw [slotMiddle, Word.toInt_addCapped, Word.toInt_shiftDown _ (by decide), toInt_slotWidth h,
    toInt_slotFloor h]
  push_cast
  omega

/-- The middle of a slot is in the slot. -/
theorem slot?_slotMiddle {g : Layout} {v : Int64} {i : Nat} (h : g.slot? v = some i) :
    g.slot? (g.slotMiddle v) = some i := by
  have hnext := g.start_succ i
  have hwidth := g.width_pos i
  rw [slot?_eq_some_iff, toInt_slotMiddle h]
  exact ⟨slot?_lt_slotCount h, by omega, by omega⟩

/-- No value of a slot is further than half a width from its middle. -/
theorem two_mul_abs_slotMiddle_sub_le {g : Layout} {v : Int64} {i : Nat}
    (h : g.slot? v = some i) :
    2 * |(g.slotMiddle v).toInt - v.toInt| ≤ (g.width i : Int) := by
  obtain ⟨-, hlow, hhigh⟩ := (g.slot?_eq_some_iff v i).1 h
  have hnext := g.start_succ i
  rw [toInt_slotMiddle h, Int.abs_eq_natAbs]
  omega

/-! ### The figures -/

/-- A slot holds the values of a width, and the width is within the figures of
each of them. -/
theorem width_mul_le_max {g : Layout} {v : Int64} {i : Nat} (h : g.slot? v = some i) :
    (g.width i : Int) * 10 ^ g.figures ≤ max v.toInt (g.lowest.toInt * 10 ^ g.figures) := by
  obtain ⟨-, hlow, -⟩ := (g.slot?_eq_some_iff v i).1 h
  have hpositive := g.one_le_lowest
  rcases le_max_iff.1 (g.width_mul_le i) with hplace | hlowest
  · have hstart : (g.width i : Int) * 10 ^ g.figures ≤ g.start i := by exact_mod_cast hplace
    exact le_max_of_le_left (Int.le_trans hstart hlow)
  · have hunit : (g.width i : Int) * 10 ^ g.figures
        ≤ (g.lowest.toInt.toNat : Int) * 10 ^ g.figures := by exact_mod_cast hlowest
    rw [Int.toNat_of_nonneg (by omega)] at hunit
    exact le_max_of_le_right hunit

/-- How well a value is known by its slot, in exact integers:

1. it is at or above the floor of the slot, and
2. less than a width above it;
3. the width, times ten to the number of figures, is not above the value, or
   not above what the lowest value makes of it;
4. the middle of the slot is within half a width of the value, and in the slot;
5. so a value of at least `lowest * 10 ^ figures` is within `10 ^ -figures` of
   itself from every value that shares its slot. -/
theorem significant_figures_kept (g : Layout) {v : Int64} {i : Nat}
    (h : g.slot? v = some i) :
    (g.slotFloor v).toInt ≤ v.toInt ∧
    v.toInt < (g.slotFloor v).toInt + (g.slotWidth v).toInt ∧
    (g.slotWidth v).toInt * 10 ^ g.figures
      ≤ max v.toInt (g.lowest.toInt * 10 ^ g.figures) ∧
    2 * |(g.slotMiddle v).toInt - v.toInt| ≤ (g.slotWidth v).toInt ∧
    g.slot? (g.slotMiddle v) = some i ∧
    (g.lowest.toInt * 10 ^ g.figures ≤ v.toInt →
      ∀ w, g.slot? w = some i → |w.toInt - v.toInt| * 10 ^ g.figures ≤ v.toInt) := by
  obtain ⟨-, hlow, hhigh⟩ := (g.slot?_eq_some_iff v i).1 h
  have hnext := g.start_succ i
  have hfloor : (g.slotFloor v).toInt = g.start i := by
    rw [toInt_slotFloor_of_nonneg g (nonneg_of_slot? h), number_of_slot? h]
  have hwidth := width_mul_le_max h
  rw [hfloor, toInt_slotWidth h]
  refine ⟨hlow, by omega, hwidth, two_mul_abs_slotMiddle_sub_le h, slot?_slotMiddle h, ?_⟩
  intro hlarge w hw
  obtain ⟨-, hwlow, hwhigh⟩ := (g.slot?_eq_some_iff w i).1 hw
  -- Two values of one slot are less than its width apart.
  have hdistance : |w.toInt - v.toInt| ≤ (g.width i : Int) := by
    rw [Int.abs_eq_natAbs]
    omega
  have hpow : (0 : Int) ≤ 10 ^ g.figures := Int.pow_nonneg (by decide)
  calc |w.toInt - v.toInt| * 10 ^ g.figures
      ≤ (g.width i : Int) * 10 ^ g.figures := Int.mul_le_mul_of_nonneg_right hdistance hpow
    _ ≤ max v.toInt (g.lowest.toInt * 10 ^ g.figures) := hwidth
    _ = v.toInt := Int.max_eq_left hlarge

/-- Three figures keep 10007 in a slot of 8 values, from 10000 on. -/
theorem significant_figures_kept_five_digits :
    ∃ g, make 1 3600000000 3 = .ok g ∧ g.slot? 10007 = some 4322 ∧
      (g.slotFloor 10007).toInt = 10000 ∧ (g.slotWidth 10007).toInt = 8 ∧
      (g.slotMiddle 10007).toInt = 10004 ∧
      (g.slotWidth 10007).toInt * 10 ^ g.figures ≤ (10007 : Int64).toInt := by
  obtain ⟨g, hmake, hslot, hfloor, hwidth, hmiddle, hlarge⟩ :
      ∃ g, make 1 3600000000 3 = .ok g ∧ g.slot? 10007 = some 4322 ∧
        (g.slotFloor 10007).toInt = 10000 ∧ (g.slotWidth 10007).toInt = 8 ∧
        (g.slotMiddle 10007).toInt = 10004 ∧
        g.lowest.toInt * 10 ^ g.figures ≤ (10007 : Int64).toInt :=
    exists_make_ok (by decide)
  -- With `10 ^ 3` times the lowest value at or below 10007, the maximum is 10007.
  have hkept := (significant_figures_kept g hslot).2.2.1
  rw [Int.max_eq_left hlarge] at hkept
  exact ⟨g, hmake, hslot, hfloor, hwidth, hmiddle, hkept⟩

end LogBuckets.Layout
