import LogBuckets.Histogram.Statistics
import LogBuckets.Proofs.Histogram.Counts

/-!
# `LogBuckets.Proofs.Histogram.OrderStatistic`: percentiles are order statistics

A percentile asks for a rank, and `Histogram.slotAtRank?` looks for it by
adding up counts from the lowest slot on, cutting the sum at
`Tally.limit`. The true answer is an element of the sorted samples
(`sampleOfRank?`). This file shows that the first is the slot of the
second.

* `slotAtRankFrom?_spec`: the slot found is the one at which the counts
  pass the rank; the rank is not found exactly if it is above all counts;
* `iff_lt_countP_of_pairwise`: in a sorted list, the elements that satisfy
  a property which passes down are those of low number;
* `slot?_sampleOfRank?`: so the sample of a rank is in the slot where the
  samples pass the rank;
* `valueAtRank_orderStatistic`: and the walk stops there. Cut counts do no
  harm, because no rank up to the total is above the limit;
* `valueAtPercentile_orderStatistic`: the same for a histogram after any
  history, and any percentile.
-/

set_option autoImplicit false

namespace LogBuckets

/-! ### Ranks in a list -/

/-- Number `t` of the values in ascending order, counted from 1. -/
def sampleOfRank? (values : List Int64) (t : Nat) : Option Int64 :=
  (values.mergeSort fun a b => decide (a ≤ b))[t - 1]?

/-- Sorting puts words in ascending order. -/
theorem pairwise_mergeSort_le (values : List Int64) :
    (values.mergeSort fun a b => decide (a ≤ b)).Pairwise (· ≤ ·) := by
  have hsorted : (values.mergeSort fun a b => decide (a ≤ b)).Pairwise
      fun a b => decide (a ≤ b) = true := by
    refine List.pairwise_mergeSort (fun a b c hab hbc => ?_) (fun a b => ?_) values
    · rw [decide_eq_true_eq] at hab hbc ⊢
      exact Int64.le_trans hab hbc
    · rw [Bool.or_eq_true, decide_eq_true_eq, decide_eq_true_eq]
      exact Int64.le_total a b
  exact hsorted.imp fun h => of_decide_eq_true h

/-- If a property passes down a list, from every element to those before it,
the elements that satisfy it come first: element number `k` is one of them
exactly if there are more than `k`. -/
theorem iff_lt_countP_of_pairwise {p : Int64 → Bool} {l : List Int64}
    (hdown : l.Pairwise fun a b => p b = true → p a = true) {k : Nat} {x : Int64}
    (hx : l[k]? = some x) : p x = true ↔ k < l.countP p := by
  induction l generalizing k with
  | nil => exact absurd hx (by simp)
  | cons a rest ih =>
      obtain ⟨hhead, htail⟩ := List.pairwise_cons.1 hdown
      -- Without the head there is nothing else either.
      have hnone : p a = false → rest.countP p = 0 := fun ha => by
        rw [List.countP_eq_zero]
        intro b hb hpb
        rw [hhead b hb hpb] at ha
        exact absurd ha (by decide)
      cases k with
      | zero =>
          rw [List.getElem?_cons_zero, Option.some.injEq] at hx
          subst hx
          cases ha : p a with
          | false =>
              rw [List.countP_cons_of_neg (by rw [ha]; decide), hnone ha]
              simp
          | true =>
              rw [List.countP_cons_of_pos ha]
              simp
      | succ k =>
          rw [List.getElem?_cons_succ] at hx
          -- If the head does not satisfy `p`, then neither does `x`. If it does, the count
          -- and the place both lose one.
          cases ha : p a with
          | false =>
              have hpx : p x = false := by
                cases hpx : p x with
                | false => rfl
                | true =>
                    rw [hhead x (List.mem_of_getElem? hx) hpx] at ha
                    exact ha
              rw [List.countP_cons_of_neg (by rw [ha]; decide), hnone ha, hpx]
              simp
          | true =>
              rw [List.countP_cons_of_pos ha, ih htail hx]
              omega

/-- There is a value of every rank up to the number of values. -/
theorem exists_sampleOfRank? {values : List Int64} {t : Nat} (hpos : 1 ≤ t)
    (hle : t ≤ values.length) : ∃ x, sampleOfRank? values t = some x := by
  have hlt : t - 1 < (values.mergeSort fun a b => decide (a ≤ b)).length := by
    rw [List.length_mergeSort]
    omega
  exact ⟨_, List.getElem?_eq_getElem hlt⟩

/-- The value of rank `t` is before a slot if and only if `t` of the values
are. -/
theorem below_sampleOfRank?_iff (g : Layout) {values : List Int64}
    (hslot : ∀ v ∈ values, (g.slot? v).isSome) {t : Nat} {x : Int64}
    (hx : sampleOfRank? values t = some x) (i : Nat) :
    g.below i x = true ↔ t - 1 < values.countP (g.below i) := by
  have hperm := List.mergeSort_perm values fun a b => decide (a ≤ b)
  -- Being before a slot passes down from greater to smaller values, as slots
  -- are in the order of their values. Both values need to have a slot.
  have hdown : (values.mergeSort fun a b => decide (a ≤ b)).Pairwise
      fun a b => g.below i b = true → g.below i a = true := by
    refine (pairwise_mergeSort_le values).imp_of_mem ?_
    intro a b ha hb hle hbelow
    obtain ⟨k, hk⟩ := Option.isSome_iff_exists.1 (hslot a (hperm.mem_iff.1 ha))
    obtain ⟨l, hl⟩ := Option.isSome_iff_exists.1 (hslot b (hperm.mem_iff.1 hb))
    have hkl := Layout.slot?_mono hk hl hle
    rw [Layout.below, hl, Option.any_some, decide_eq_true_eq] at hbelow
    rw [Layout.below, hk, Option.any_some, decide_eq_true_eq]
    omega
  rw [← hperm.countP_eq]
  exact iff_lt_countP_of_pairwise hdown hx

/-- The value of rank `t` is in the slot at which the number of values from
below passes `t`. -/
theorem slot?_sampleOfRank? (g : Layout) {values : List Int64}
    (hslot : ∀ v ∈ values, (g.slot? v).isSome) {t i : Nat} {x : Int64}
    (hx : sampleOfRank? values t = some x) (hfew : values.countP (g.below i) < t)
    (henough : t ≤ values.countP (g.below (i + 1))) : g.slot? x = some i := by
  have hthis := below_sampleOfRank?_iff g hslot hx i
  have hnext := below_sampleOfRank?_iff g hslot hx (i + 1)
  have hbefore : g.below (i + 1) x = true := hnext.2 (by omega)
  have hnot : ¬ g.below i x = true := by
    intro hb
    have := hthis.1 hb
    omega
  exact Layout.slot?_of_below hbefore hnot

namespace Histogram

/-! ### The walk to a rank -/

/-- The walk stops at the slot where the counts pass the rank, and comes to
the end only if they never do. -/
theorem slotAtRankFrom?_spec (h : Histogram) (t i : Nat) (hi : i ≤ h.slotCount)
    (hbelow : h.countBelow i < t) :
    (∃ k, h.slotAtRankFrom? t i (h.countBelow i) = some k ∧ k < h.slotCount
      ∧ h.countBelow k < t ∧ t ≤ h.countBelow (k + 1))
    ∨ (h.slotAtRankFrom? t i (h.countBelow i) = none ∧ h.countBelow h.slotCount < t) := by
  -- The induction is on the slots ahead. The sum that is carried along is
  -- always the one of the counts below the slot in hand.
  induction hahead : h.slotCount - i generalizing i with
  | zero =>
      have hend : i = h.slotCount := by omega
      subst hend
      refine Or.inr ⟨?_, hbelow⟩
      rw [slotAtRankFrom?, if_neg (Nat.lt_irrefl _)]
  | succ ahead ih =>
      rw [slotAtRankFrom?, if_pos (by omega), ← countBelow_succ]
      -- The counts pass the rank in this slot, or the walk goes on behind it.
      by_cases hpass : t ≤ h.countBelow (i + 1)
      · exact Or.inl ⟨i, if_pos hpass, by omega, hbelow, hpass⟩
      · have hrest := ih (i + 1) (by omega) (by omega) (by omega)
        simp only [if_neg hpass]
        exact hrest

/-- The walk to a rank starts before the first slot, with nothing counted. -/
theorem slotAtRank?_eq (h : Histogram) (t : Nat) :
    h.slotAtRank? t = h.slotAtRankFrom? t 0 (h.countBelow 0) := by
  rw [slotAtRank?, countBelow, Finset.range_zero, Finset.sum_empty, Nat.min_zero]

/-- A slot at which the counts pass something holds counts. -/
theorem countAt_pos_of_countBelow_lt {h : Histogram} {k t : Nat}
    (hlow : h.countBelow k < t) (hpass : t ≤ h.countBelow (k + 1)) : 0 < h.countAt k := by
  rw [countBelow_succ, Tally.add] at hpass
  omega

/-! ### The slot of a rank -/

/-- A histogram that holds samples answers a rank with the greatest value in
the slot of the sample of that rank. The counts pass the rank there and not
before. A rank above the total is answered with 0. -/
theorem valueAtRank_orderStatistic {h : Histogram} {samples : List (Int64 × Nat)}
    (hs : h.Holds samples) {t : Nat} (ht : 1 ≤ t) :
    (t ≤ h.total → ∃ x i, sampleOfRank? (spread samples) t = some x ∧
      h.slotAtRank? t = some i ∧ h.layout.slot? x = some i ∧
      h.valueAtRank t = h.layout.slotCeiling x ∧ 0 < h.countAt i ∧
      (spread samples).countP (h.layout.below i) < t ∧
      t ≤ (spread samples).countP (h.layout.below (i + 1))) ∧
    (h.total < t → h.valueAtRank t = 0) := by
  have htotal : h.total = h.countBelow h.slotCount := by
    rw [slotCount_eq, hs.total_eq_countBelow]
  have hstart : h.countBelow 0 < t := by
    rw [countBelow, Finset.range_zero, Finset.sum_empty, Nat.min_zero]
    omega
  have hwalk := h.slotAtRankFrom?_spec t 0 (Nat.zero_le _) hstart
  rw [← slotAtRank?_eq] at hwalk
  rcases hwalk with ⟨i, hfound, hi, hlow, hpass⟩ | ⟨hlost, hend⟩
  · -- The walk has stopped, so the rank is not above the total.
    have htotal_le : t ≤ h.total := by
      rw [htotal]
      exact Nat.le_trans hpass (h.countBelow_mono hi)
    have hlimit : t ≤ Tally.limit := by
      have := h.countBelow_le_limit h.slotCount
      omega
    have hfew := (hs.countBelow_lt_iff hlimit i).1 hlow
    have henough : t ≤ (spread samples).countP (h.layout.below (i + 1)) := by
      rw [← Nat.not_lt, ← hs.countBelow_lt_iff hlimit, Nat.not_lt]
      exact hpass
    -- More than `t - 1` of the values are before the next slot, so there is one of rank
    -- `t`.
    obtain ⟨x, hx⟩ := exists_sampleOfRank? ht
      (Nat.le_trans henough List.countP_le_length)
    have hxslot := slot?_sampleOfRank? h.layout
      (fun v hv => hs.isSome_slot?_of_mem_spread hv) hx hfew henough
    -- The answer depends on the slot alone, and the value of rank `t` is in it.
    have hanswer : h.valueAtRank t = h.layout.slotCeiling x := by
      rw [valueAtRank, hfound]
      exact Layout.slotCeiling_congr (Layout.slot?_valueAt_self (h.slotCount_eq ▸ hi)) hxslot
    refine ⟨?_, ?_⟩
    · intro _
      exact ⟨x, i, hx, hfound, hxslot, hanswer, countAt_pos_of_countBelow_lt hlow hpass,
        hfew, henough⟩
    · intro hlt
      omega
  · refine ⟨?_, ?_⟩
    · intro hle
      omega
    · intro _
      rw [valueAtRank, hlost]

/-- Every percentile is an order statistic at the resolution of the slots.
Let `t` be the rank that the percentile stands for, and `values` the values
that were accepted since the last reset, each as often as it was counted.
The rank is never 0.

1. Up to the total, the answer is the greatest value in the slot of value
   number `t` in ascending order. The slot at which the search stops is that
   one. It holds counts, fewer than `t` values lie in slots before it and at
   least `t` in slots up to it.
2. Above the total, the answer is 0.

Counts that have stopped at the limit change none of it. -/
theorem valueAtPercentile_orderStatistic (layout : Layout) (offset : Nat)
    (events : List Event) (p : Float) :
    let fresh := empty layout offset
    let h := fresh.after events
    let values := spread (fresh.accepted events)
    let t := rank h.total p
    1 ≤ t ∧
    (t ≤ h.total → ∃ x i, sampleOfRank? values t = some x ∧
      h.slotAtRank? t = some i ∧ layout.slot? x = some i ∧
      h.valueAtPercentile p = layout.slotCeiling x ∧ 0 < h.countAt i ∧
      values.countP (layout.below i) < t ∧ t ≤ values.countP (layout.below (i + 1))) ∧
    (h.total < t → h.valueAtPercentile p = 0) := by
  intro fresh h values t
  have hs : h.Holds (fresh.accepted events) := holds_accepted layout offset events
  have hlayout : h.layout = layout := layout_after_empty layout offset events
  have ht : 1 ≤ t := Nat.le_max_left _ _
  have hrank := valueAtRank_orderStatistic hs ht
  rw [hlayout] at hrank
  exact ⟨ht, hrank⟩

end Histogram

end LogBuckets
