import LogBuckets.Histogram.Statistics
import LogBuckets.Proofs.Cursor.Slots
import LogBuckets.Proofs.Histogram.Counts
import LogBuckets.Proofs.Layout.Precision
import Mathlib.Algebra.BigOperators.Ring.Finset
import Mathlib.Algebra.Order.BigOperators.Ring.Finset

/-!
# `LogBuckets.Proofs.Histogram.Mean`: the sum behind the mean

The mean takes every sample to be in the middle of its slot, and adds the
middles up slot by slot before it divides once. This file bounds the sum from
two sides.

* `middleSumBelow` is the sum as it stands before slot number `k`, and
  `middleSumBelow_bounds` says that no such sum, and no product that goes into
  one, reaches `2 ^ 127`, as long as the samples are no more than can be
  counted;
* `middleSum_eq_sum_readings`: it is the sum over the reports of a cursor that
  reports every slot;
* `Holds.middleSum_eq`: with so few samples no count has been cut, and the sum
  over the slots is the sum over the samples, each at the middle of its slot;
* `two_mul_pow_mul_abs_sub_le`: so it is off by no more than the samples are off
  one by one, and each is within its figures (`Proofs.Layout.Precision`);
* `middleSum_accuracy`: all of it for a histogram after any history.
-/

set_option autoImplicit false

namespace LogBuckets

/-! ### Sums over slots and sums over samples -/

/-- Every sample is in one slot. So what is added up over the slots, each
weighed by its samples, is added up over the samples. -/
theorem sum_weight_mul (g : Layout) (f : Nat → Int) (F : Int64 → Int)
    (hf : ∀ v i, g.slot? v = some i → f i = F v) {samples : List (Int64 × Nat)}
    (hslot : ∀ s ∈ samples, (g.slot? s.1).isSome) :
    ∑ i ∈ Finset.range g.slotCount, (weight (g.inSlot i) samples : Int) * f i
      = (samples.map fun s => (s.2 : Int) * F s.1).sum := by
  induction samples with
  | nil => simp
  | cons s rest ih =>
      have hrest := ih fun t ht => hslot t (List.mem_cons_of_mem s ht)
      obtain ⟨j, hj⟩ := Option.isSome_iff_exists.1 (hslot s List.mem_cons_self)
      -- Of all slots, the sample shows in its own alone.
      have hown : ∑ i ∈ Finset.range g.slotCount, (((g.inSlot i s.1).toNat * s.2 : Nat) : Int) * f i
          = (s.2 : Int) * F s.1 := by
        rw [Finset.sum_eq_single j]
        · have hin : g.inSlot j s.1 = true := (g.inSlot_eq_true_iff j s.1).2 hj
          rw [hin, Bool.toNat_true, Nat.one_mul, hf s.1 j hj]
        · intro i _ hne
          have hout : g.inSlot i s.1 = false := by
            rw [Bool.eq_false_iff, ne_eq, g.inSlot_eq_true_iff, hj, Option.some.injEq]
            exact fun heq => hne heq.symm
          rw [hout, Bool.toNat_false, Nat.zero_mul, Nat.cast_zero, Int.zero_mul]
        · intro hmem
          exact absurd (Finset.mem_range.2 (Layout.slot?_lt_slotCount hj)) hmem
      -- The sums for the sample and for the rest are one sum over the slots.
      rw [List.map_cons, List.sum_cons, ← hrest, ← hown, ← Finset.sum_add_distrib]
      refine Finset.sum_congr rfl fun i _ => ?_
      rw [weight_cons]
      push_cast
      exact Int.add_mul _ _ _

/-- A sum over samples, each at the middle of its slot, is off by no more than
the figures of the samples allow one by one. -/
theorem two_mul_pow_mul_abs_sub_le (g : Layout) {samples : List (Int64 × Nat)}
    (hslot : ∀ s ∈ samples, (g.slot? s.1).isSome) :
    2 * 10 ^ g.figures * |(samples.map fun s => (s.2 : Int) * (g.slotMiddle s.1).toInt).sum
        - (samples.map fun s => (s.2 : Int) * s.1.toInt).sum|
      ≤ (samples.map fun s =>
          (s.2 : Int) * max s.1.toInt (g.lowest.toInt * 10 ^ g.figures)).sum := by
  induction samples with
  | nil => simp
  | cons s rest ih =>
      -- The first sample is off by half a width of its slot, times its count, and the width
      -- is within the figures. The rest is off by what it is off.
      have hrest := ih fun t ht => hslot t (List.mem_cons_of_mem s ht)
      obtain ⟨j, hj⟩ := Option.isSome_iff_exists.1 (hslot s List.mem_cons_self)
      have hmiddle := Layout.two_mul_abs_slotMiddle_sub_le hj
      have hwidth := Layout.width_mul_le_max hj
      simp only [List.map_cons, List.sum_cons]
      generalize (rest.map fun s => (s.2 : Int) * (g.slotMiddle s.1).toInt).sum = a at hrest ⊢
      generalize (rest.map fun s => (s.2 : Int) * s.1.toInt).sum = b at hrest ⊢
      have hpow : (0 : Int) ≤ 10 ^ g.figures := Int.pow_nonneg (by decide)
      have hcount : (0 : Int) ≤ s.2 := Int.natCast_nonneg _
      have hone : 2 * 10 ^ g.figures * |(s.2 : Int) * (g.slotMiddle s.1).toInt - s.2 * s.1.toInt|
          ≤ (s.2 : Int) * max s.1.toInt (g.lowest.toInt * 10 ^ g.figures) := by
        calc 2 * 10 ^ g.figures * |(s.2 : Int) * (g.slotMiddle s.1).toInt - s.2 * s.1.toInt|
            = s.2 * (2 * |(g.slotMiddle s.1).toInt - s.1.toInt| * 10 ^ g.figures) := by
              rw [← Int.mul_sub, abs_mul, abs_of_nonneg hcount]
              ring
          _ ≤ s.2 * ((g.width j : Int) * 10 ^ g.figures) :=
              Int.mul_le_mul_of_nonneg_left
                (Int.mul_le_mul_of_nonneg_right hmiddle hpow) hcount
          _ ≤ s.2 * max s.1.toInt (g.lowest.toInt * 10 ^ g.figures) :=
              Int.mul_le_mul_of_nonneg_left hwidth hcount
      calc 2 * 10 ^ g.figures * |(s.2 : Int) * (g.slotMiddle s.1).toInt + a
              - (s.2 * s.1.toInt + b)|
          ≤ 2 * 10 ^ g.figures * (|(s.2 : Int) * (g.slotMiddle s.1).toInt - s.2 * s.1.toInt|
              + |a - b|) := by
            rw [add_sub_add_comm]
            exact Int.mul_le_mul_of_nonneg_left (abs_add_le _ _) (by omega)
        _ ≤ _ := by
            rw [Int.mul_add]
            exact Int.add_le_add hone hrest

namespace Histogram

/-! ### The sum, slot by slot -/

/-- The sum of the samples before slot number `k`, each taken to be in the
middle of its slot. -/
def middleSumBelow (h : Histogram) (k : Nat) : Int :=
  k.fold
    (fun i _ sum =>
      let count := h.countAt i
      if count = 0 then sum else sum + count * (h.middleAt i).toInt) 0

/-- The whole sum is the one before the end of the slots. -/
theorem middleSum_eq_middleSumBelow (h : Histogram) :
    h.middleSum = h.middleSumBelow h.slotCount :=
  rfl

/-- Slots without counts are passed over, and would not have shown anyway. -/
theorem middleSumBelow_eq (h : Histogram) (k : Nat) :
    h.middleSumBelow k = ∑ i ∈ Finset.range k, (h.countAt i : Int) * (h.middleAt i).toInt := by
  induction k with
  | zero => rfl
  | succ k ih =>
      rw [Finset.sum_range_succ, ← ih, middleSumBelow, Nat.fold_succ]
      show (if h.countAt k = 0 then h.middleSumBelow k
        else h.middleSumBelow k + h.countAt k * (h.middleAt k).toInt) = _
      split
      · next hzero => rw [hzero, Nat.cast_zero, Int.zero_mul, Int.add_zero]
      · rfl

/-- A cursor that reports every slot passes over none and makes no report twice. -/
theorem middleSum_eq_sum_readings (h : Histogram) {limit : Nat} (hall : h.slotCount ≤ limit) :
    h.middleSum = (((Cursor.start .all).readings h limit).map fun r =>
      (r.count : Int) * r.middle.toInt).sum := by
  have hreports := Cursor.map_readings_all (h := h)
    (f := fun r => (r.count : Int) * r.middle.toInt)
    (g := fun i => (h.countAt i : Int) * (h.middleAt i).toInt) (fun _ => rfl) hall
  rw [hreports, middleSum_eq_middleSumBelow, middleSumBelow_eq]
  rfl

/-- The middle of a slot is the middle of the slot of any value in it. -/
theorem toInt_middleAt (h : Histogram) {v : Int64} {i : Nat} (hslot : h.layout.slot? v = some i) :
    (h.middleAt i).toInt = (h.layout.slotMiddle v).toInt := by
  have hself := Layout.slot?_valueAt_self (Layout.slot?_lt_slotCount hslot)
  rw [middleAt, Layout.toInt_slotMiddle hself, Layout.toInt_slotMiddle hslot]

/-- No middle is negative, for slots hold no negative values. -/
theorem middleAt_nonneg (h : Histogram) {i : Nat} (hi : i < h.layout.slotCount) :
    0 ≤ (h.middleAt i).toInt := by
  rw [middleAt, Layout.toInt_slotMiddle (Layout.slot?_valueAt_self hi)]
  exact Int.natCast_nonneg _

namespace Holds

variable {h : Histogram} {samples : List (Int64 × Nat)}

/-! ### Few samples -/

/-- With few samples, the sum over the slots is the sum over the samples, each at the
middle of its slot. -/
theorem middleSum_eq (hs : h.Holds samples) (hfew : (samples.map Prod.snd).sum ≤ Tally.limit) :
    h.middleSum = (samples.map fun s => (s.2 : Int) * (h.layout.slotMiddle s.1).toInt).sum := by
  rw [middleSum_eq_middleSumBelow, middleSumBelow_eq, slotCount_eq,
    ← sum_weight_mul h.layout (fun i => (h.middleAt i).toInt) (fun v =>
      (h.layout.slotMiddle v).toInt) (fun v i hslot => h.toInt_middleAt hslot) hs.slotted]
  refine Finset.sum_congr rfl fun i _ => ?_
  rw [hs.countAt_eq_weight hfew]

/-- Neither a sum on the way to `middleSum` nor a product that is added to it
is negative or reaches `2 ^ 127`. -/
theorem middleSumBelow_bounds (hs : h.Holds samples)
    (hfew : (samples.map Prod.snd).sum ≤ Tally.limit) {k : Nat} (hk : k ≤ h.layout.slotCount) :
    0 ≤ h.middleSumBelow k ∧ h.middleSumBelow k < 2 ^ 127 := by
  have hcounts := hs.sum_countAt_range_le hfew k
  have hslots : ∀ i ∈ Finset.range k, i < h.layout.slotCount := by
    intro i hi
    have := Finset.mem_range.1 hi
    omega
  rw [middleSumBelow_eq]
  constructor
  · refine Finset.sum_nonneg fun i hi => ?_
    exact Int.mul_nonneg (Int.natCast_nonneg _) (h.middleAt_nonneg (hslots i hi))
  · -- No middle is above `2 ^ 63 - 1`, and the counts add up to no more than `2 ^ 64 - 1`.
    calc ∑ i ∈ Finset.range k, (h.countAt i : Int) * (h.middleAt i).toInt
        ≤ ∑ i ∈ Finset.range k, (h.countAt i : Int) * (2 ^ 63 - 1) := by
          refine Finset.sum_le_sum fun i _ => ?_
          have hword := (h.middleAt i).toInt_lt
          exact Int.mul_le_mul_of_nonneg_left (by omega) (Int.natCast_nonneg _)
      _ = (∑ i ∈ Finset.range k, h.countAt i : Nat) * (2 ^ 63 - 1) := by
          rw [← Finset.sum_mul, Nat.cast_sum]
      _ ≤ (Tally.limit : Int) * (2 ^ 63 - 1) :=
          Int.mul_le_mul_of_nonneg_right (by exact_mod_cast hcounts) (by decide)
      _ < 2 ^ 127 := by decide

end Holds

/-- The sum behind the mean, for a history whose accepted records since the last
reset count no more samples than can be counted:

1. added up slot by slot, it is never negative and never reaches `2 ^ 127`, and
   neither does what a slot adds to it;
2. after the last slot it is the sum over all reports of a cursor that reports
   every slot, and
3. it differs from the exact sum of the samples by no more than half of
   `10 ^ -figures` of each sample, or of `lowest * 10 ^ figures` for the samples
   below that;
4. the mean is this sum over the number of samples. -/
theorem middleSum_accuracy (layout : Layout) (offset : Nat) (events : List Event)
    (hfew : (((empty layout offset).accepted events).map Prod.snd).sum ≤ Tally.limit) :
    let h := (empty layout offset).after events
    let kept := (empty layout offset).accepted events
    (∀ k ≤ layout.slotCount, 0 ≤ h.middleSumBelow k ∧ h.middleSumBelow k < 2 ^ 127) ∧
    (∀ i < layout.slotCount, 0 ≤ h.countAt i * (h.middleAt i).toInt ∧
      h.countAt i * (h.middleAt i).toInt < 2 ^ 127) ∧
    h.middleSum = h.middleSumBelow layout.slotCount ∧
    (∀ limit ≥ layout.slotCount, h.middleSum =
      (((Cursor.start .all).readings h limit).map fun r => (r.count : Int) * r.middle.toInt).sum) ∧
    2 * 10 ^ layout.figures * |h.middleSum - (kept.map fun s => (s.2 : Int) * s.1.toInt).sum|
      ≤ (kept.map fun s =>
          (s.2 : Int) * max s.1.toInt (layout.lowest.toInt * 10 ^ layout.figures)).sum ∧
    h.mean = Float.ofInt h.middleSum / Binary64.ofCount (kept.map Prod.snd).sum := by
  intro h kept
  have hs : h.Holds kept := holds_accepted layout offset events
  have hlayout : h.layout = layout := layout_after_empty layout offset events
  have hpartial : ∀ k ≤ layout.slotCount,
      0 ≤ h.middleSumBelow k ∧ h.middleSumBelow k < 2 ^ 127 := by
    intro k hk
    exact hs.middleSumBelow_bounds hfew (by rw [hlayout]; exact hk)
  refine ⟨hpartial, ?_, ?_, ?_, ?_, ?_⟩
  · intro i hi
    have hproduct : 0 ≤ h.countAt i * (h.middleAt i).toInt :=
      Int.mul_nonneg (Int.natCast_nonneg _) (h.middleAt_nonneg (by rw [hlayout]; exact hi))
    -- What a slot adds is the difference of two sums.
    have hstep : h.middleSumBelow (i + 1)
        = h.middleSumBelow i + h.countAt i * (h.middleAt i).toInt := by
      rw [middleSumBelow_eq, middleSumBelow_eq, Finset.sum_range_succ]
    have hbefore := (hpartial i (by omega)).1
    have hafter := (hpartial (i + 1) hi).2
    exact ⟨hproduct, by omega⟩
  · rw [middleSum_eq_middleSumBelow, slotCount_eq, hlayout]
  · intro limit hall
    exact h.middleSum_eq_sum_readings (by rw [slotCount_eq, hlayout]; exact hall)
  · have hclose := two_mul_pow_mul_abs_sub_le h.layout hs.slotted
    rw [← hs.middleSum_eq hfew, hlayout] at hclose
    exact hclose
  · rw [mean, hs.total_eq, Nat.min_eq_right hfew]

/-- With three figures, 10007 is added up as 10004 and 20011 as 20008. What was
recorded before the reset, and the value that has no slot, have no part in the sum. -/
theorem middleSum_accuracy_several_records :
    ∃ layout, Layout.make 1 3600000000 3 = .ok layout ∧
      let h := (empty layout 0).after [.record 5 9, .reset, .record 10007 3, .record 20011 2,
        .record 9000000000 1, .record 10007 1, .record 1 5]
      h.middleSum = 4 * 10004 + 2 * 20008 + 5 * 1 ∧
        2 * 10 ^ 3 * |h.middleSum - (4 * 10007 + 2 * 20011 + 5 * 1)|
          ≤ 4 * 10007 + 2 * 20011 + 5 * 1000 := by
  obtain ⟨layout, hmake, hkept, hmiddle, hmiddle', hone, hfigures, hlowest⟩ :
      ∃ g, Layout.make 1 3600000000 3 = .ok g ∧
        g.samplesOf [.record 5 9, .reset, .record 10007 3, .record 20011 2, .record 9000000000 1,
            .record 10007 1, .record 1 5] = [(10007, 3), (20011, 2), (10007, 1), (1, 5)] ∧
        (g.slotMiddle 10007).toInt = 10004 ∧ (g.slotMiddle 20011).toInt = 20008 ∧
        (g.slotMiddle 1).toInt = 1 ∧ g.figures = 3 ∧ g.lowest = 1 :=
    Layout.exists_make_ok (by decide)
  -- What is kept can be evaluated from the events alone, without the histogram.
  have haccepted := accepted_eq_samplesOf (empty layout 0)
    [.record 5 9, .reset, .record 10007 3, .record 20011 2, .record 9000000000 1,
      .record 10007 1, .record 1 5]
  rw [layout_empty, hkept] at haccepted
  have hclose := (middleSum_accuracy layout 0 _ (by rw [haccepted]; decide)).2.2.2.2.1
  have hsum := (holds_of_samplesOf layout 0 hkept).middleSum_eq (by decide)
  rw [layout_after_empty] at hsum
  simp only [List.map_cons, List.map_nil, List.sum_cons, List.sum_nil, hmiddle, hmiddle', hone]
    at hsum
  rw [haccepted, hfigures, hlowest] at hclose
  exact ⟨layout, hmake, hsum, hclose⟩

end Histogram

end LogBuckets
