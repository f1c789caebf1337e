import LogBuckets.Histogram.Run
import LogBuckets.Proofs.Layout.Slots
import Mathlib.Algebra.BigOperators.Group.Finset.Basic
import Mathlib.Data.List.Perm.Basic

/-!
# `LogBuckets.Proofs.Histogram.Samples`: weighing what was recorded

Samples are values with counts. `weight p` adds up the counts of the
values that satisfy `p`, without any cap, and `spread` writes every value
out as often as it was counted; the two agree (`countP_spread`).

A layout cuts the samples by slots. A sample has no more than one slot, so
the weights of the slots before a slot add up to the weight of the values
before it (`sum_weight_inSlot`), and all slots together hold everything
that has a slot at all (`weight_below_slotCount`).

`accepted_eq_samplesOf` ties samples to histories: what a histogram said
yes to is what its layout has slots for.
-/

set_option autoImplicit false

namespace LogBuckets

/-! ### Weights -/

/-- The sum of the counts of the samples whose value satisfies `p`. -/
def weight (p : Int64 → Bool) (samples : List (Int64 × Nat)) : Nat :=
  ((samples.filter fun s => p s.1).map Prod.snd).sum

/-- Every value as often as it was counted. -/
def spread (samples : List (Int64 × Nat)) : List Int64 :=
  samples.flatMap fun s => List.replicate s.2 s.1

/-- Without samples there is nothing to weigh. -/
@[simp] theorem weight_nil (p : Int64 → Bool) : weight p [] = 0 := rfl

/-- The weight sample by sample. A sample counts as a whole or not at all. -/
theorem weight_cons (p : Int64 → Bool) (s : Int64 × Nat) (samples : List (Int64 × Nat)) :
    weight p (s :: samples) = (p s.1).toNat * s.2 + weight p samples := by
  unfold weight
  cases hp : p s.1 with
  | false => simp [hp]
  | true => simp [hp]

/-- The weight with one more sample, which comes last. -/
theorem weight_concat (p : Int64 → Bool) (samples : List (Int64 × Nat)) (v : Int64)
    (n : Nat) :
    weight p (samples ++ [(v, n)]) = weight p samples + if p v then n else 0 := by
  unfold weight
  rw [List.filter_append, List.map_append, List.sum_append]
  cases hp : p v with
  | false => simp [hp]
  | true => simp [hp]

/-- Weights only look at the values of the samples. -/
theorem weight_congr {p q : Int64 → Bool} {samples : List (Int64 × Nat)}
    (h : ∀ s ∈ samples, p s.1 = q s.1) : weight p samples = weight q samples := by
  rw [weight, weight, List.filter_congr h]

/-- All samples together weigh what they count. -/
theorem weight_true (samples : List (Int64 × Nat)) :
    weight (fun _ => true) samples = (samples.map Prod.snd).sum := by
  rw [weight, List.filter_true]

/-- If every sample that `p` takes is taken by exactly one of `q` and `r`,
their weights add up. -/
theorem weight_eq_add {p q r : Int64 → Bool} {samples : List (Int64 × Nat)}
    (h : ∀ s ∈ samples, (p s.1).toNat = (q s.1).toNat + (r s.1).toNat) :
    weight p samples = weight q samples + weight r samples := by
  induction samples with
  | nil => rfl
  | cons s rest ih =>
      have hrest := ih fun t ht => h t (List.mem_cons_of_mem s ht)
      have hs := h s List.mem_cons_self
      rw [weight_cons, weight_cons, weight_cons, hrest, hs, Nat.add_mul]
      omega

/-- Counting in the values written out is weighing the samples. -/
theorem countP_spread (p : Int64 → Bool) (samples : List (Int64 × Nat)) :
    (spread samples).countP p = weight p samples := by
  induction samples with
  | nil => rfl
  | cons s rest ih =>
      -- A sample counts as a whole or not at all, as its copies do.
      have hcons : spread (s :: rest) = List.replicate s.2 s.1 ++ spread rest :=
        List.flatMap_cons
      rw [hcons, List.countP_append, ih, List.countP_replicate, weight_cons]
      cases p s.1 with
      | false => simp
      | true => simp

/-- No choice of values outweighs all samples together. -/
theorem weight_le_sum (p : Int64 → Bool) (samples : List (Int64 × Nat)) :
    weight p samples ≤ (samples.map Prod.snd).sum := by
  rw [← weight_true, ← countP_spread, ← countP_spread]
  exact List.countP_mono_left fun _ _ _ => rfl

/-- A value with a positive count is among the values written out. -/
theorem mem_spread {samples : List (Int64 × Nat)} (hpos : ∀ s ∈ samples, 0 < s.2)
    (v : Int64) : v ∈ spread samples ↔ v ∈ samples.map Prod.fst := by
  rw [spread, List.mem_flatMap, List.mem_map]
  constructor
  · rintro ⟨s, hs, hv⟩
    exact ⟨s, hs, (List.eq_of_mem_replicate hv).symm⟩
  · rintro ⟨s, hs, rfl⟩
    have := hpos s hs
    exact ⟨s, hs, List.mem_replicate.2 ⟨by omega, rfl⟩⟩

/-- Cutting every summand at the limit first does not show in a sum that is
cut itself. -/
theorem Tally.min_sum_min (f : Nat → Nat) (k : Nat) :
    min limit (∑ i ∈ Finset.range k, min limit (f i))
      = min limit (∑ i ∈ Finset.range k, f i) := by
  induction k with
  | zero => rfl
  | succ k ih =>
      rw [Finset.sum_range_succ, Finset.sum_range_succ]
      omega

/-! ### Weights by slot -/

/-- Whether slot number `i` holds the value `v`. -/
def Layout.inSlot (g : Layout) (i : Nat) (v : Int64) : Bool :=
  g.slot? v == some i

/-- The test for a slot, as an equation. -/
theorem Layout.inSlot_eq_true_iff (g : Layout) (i : Nat) (v : Int64) :
    g.inSlot i v = true ↔ g.slot? v = some i := by
  rw [inSlot, beq_iff_eq]

/-- Whether the value `v` is in a slot before slot number `i`. -/
def Layout.below (g : Layout) (i : Nat) (v : Int64) : Bool :=
  (g.slot? v).any (· < i)

/-- The values before the next slot are those before this slot and those in
it. -/
theorem Layout.below_succ (g : Layout) (i : Nat) (v : Int64) :
    (g.below (i + 1) v).toNat = (g.below i v).toNat + (g.inSlot i v).toNat := by
  unfold below inSlot
  cases g.slot? v with
  | none => rfl
  | some j =>
      show (decide (j < i + 1)).toNat = (decide (j < i)).toNat + (some j == some i).toNat
      -- The slot of the value is before slot `i`, is slot `i`, or is after it.
      rcases Nat.lt_trichotomy j i with hlt | rfl | hgt
      · rw [decide_eq_true (by omega : j < i + 1), decide_eq_true hlt,
          beq_false_of_ne (by rw [ne_eq, Option.some.injEq]; omega)]
        rfl
      · rw [decide_eq_true (Nat.lt_add_one j), decide_eq_false (Nat.lt_irrefl j),
          beq_self_eq_true]
        rfl
      · rw [decide_eq_false (by omega : ¬ j < i + 1), decide_eq_false (by omega : ¬ j < i),
          beq_false_of_ne (by rw [ne_eq, Option.some.injEq]; omega)]
        rfl

/-- A value before the next slot and not before this one is in this one. -/
theorem Layout.slot?_of_below {g : Layout} {i : Nat} {v : Int64}
    (hbefore : g.below (i + 1) v = true) (hnot : ¬ g.below i v = true) :
    g.slot? v = some i := by
  unfold below at hbefore hnot
  cases hslot : g.slot? v with
  | none =>
      rw [hslot, Option.any_none] at hbefore
      exact absurd hbefore Bool.false_ne_true
  | some j =>
      rw [hslot, Option.any_some, decide_eq_true_eq] at hbefore hnot
      have hj : j = i := by omega
      rw [hj]

/-- The weights of the slots before slot number `k` add up to the weight of
the values before it. -/
theorem sum_weight_inSlot (g : Layout) (samples : List (Int64 × Nat)) (k : Nat) :
    ∑ i ∈ Finset.range k, weight (g.inSlot i) samples = weight (g.below k) samples := by
  induction k with
  | zero =>
      have hnone : ∀ s ∈ samples, g.below 0 s.1 = false := by
        intro s _
        rw [Layout.below, Option.any_eq_false]
        intro j _
        exact decide_eq_false (Nat.not_lt_zero j)
      rw [Finset.range_zero, Finset.sum_empty, weight_congr (q := fun _ => false) hnone,
        weight, List.filter_false]
      rfl
  | succ k ih =>
      rw [Finset.sum_range_succ, ih]
      exact (weight_eq_add fun s _ => g.below_succ k s.1).symm

/-- All slots together hold all samples, if every sample has a slot. -/
theorem weight_below_slotCount (g : Layout) {samples : List (Int64 × Nat)}
    (hslot : ∀ s ∈ samples, (g.slot? s.1).isSome) :
    weight (g.below g.slotCount) samples = (samples.map Prod.snd).sum := by
  rw [← weight_true]
  refine weight_congr ?_
  intro s hs
  obtain ⟨j, hj⟩ := Option.isSome_iff_exists.1 (hslot s hs)
  rw [Layout.below, hj]
  exact decide_eq_true (Layout.slot?_lt_slotCount hj)

/-! ### Samples of a history -/

/-- Keeping what was answered with `true` is keeping what has a slot, as long as the
answer is that of the histogram at hand. -/
theorem keepAnswered_reply (h : Histogram) (samples : List (Int64 × Nat)) (e : Event) :
    keepAnswered samples (e, h.reply e) = h.layout.keep samples e := by
  cases e with
  | reset => rfl
  | record v n =>
      show (if some (h.record v n).1 = some true ∧ 0 < n then samples ++ [(v, n)]
        else samples) = if (h.layout.slot? v).isSome ∧ 0 < n then samples ++ [(v, n)]
        else samples
      simp only [Histogram.record_fst, Option.some.injEq]

/-- The records that were answered with `true` are those whose value has a
slot. -/
theorem Histogram.accepted_eq_samplesOf (h : Histogram) (events : List Event) :
    h.accepted events = h.layout.samplesOf events := by
  -- The samples in hand and the state in which the answers are given both
  -- move on with every event.
  have key : ∀ (events : List Event) (h : Histogram) (samples : List (Int64 × Nat)),
      (events.zip (h.replies events)).foldl keepAnswered samples
        = events.foldl h.layout.keep samples := by
    intro events
    induction events with
    | nil => intro h samples; rfl
    | cons e rest ih =>
        intro h samples
        rw [replies, List.zip_cons_cons, List.foldl_cons, List.foldl_cons,
          keepAnswered_reply, ih, layout_apply]
  exact key events h []

/-- A record alone leaves its value as the only sample. -/
theorem Histogram.accepted_record (h : Histogram) {v : Int64} {i n : Nat}
    (hslot : h.layout.slot? v = some i) (hn : 0 < n) : h.accepted [.record v n] = [(v, n)] := by
  rw [accepted_eq_samplesOf]
  exact if_pos ⟨Option.isSome_of_eq_some hslot, hn⟩

end LogBuckets
