import LogBuckets.Proofs.Layout.Grid
import Mathlib.Data.Nat.Log

/-!
# `LogBuckets.Proofs.Layout.Construction`: which layouts there are

`Layout.make` is the only way to a layout. What it asks of its parameters
is written down here as a list of demands, in the order of asking, each
with the refusal of parameters that do not meet it. The magnitudes are
stated with logarithms, not with the bit lengths that `make` works out.

* `make_eq_error_iff`: a refusal names the first demand that is not met;
* `make_eq_ok_iff`: and without one, there is exactly one layout with the
  parameters. So every layout is one that was made, and what is proved of
  all layouts is proved of all that can be made;
* `fits`: every number on the way to a layout is one of the type it is
  kept in;
* `make_accepts_exactly`: all of it together.
-/

set_option autoImplicit false

namespace LogBuckets

/-- The number of digits that is counted here is the logarithm of the library, rounded
up. -/
theorem ceilLog2_eq_clog (n : Nat) : ceilLog2 n = Nat.clog 2 n := by
  -- Both are the least exponent whose power of two reaches `n`.
  have hleast : ∀ k, ceilLog2 n ≤ k ↔ Nat.clog 2 n ≤ k := by
    intro k
    rw [ceilLog2_le_iff, Nat.clog_le_iff_le_pow (by decide)]
  exact Nat.le_antisymm ((hleast _).2 (Nat.le_refl _)) ((hleast _).1 (Nat.le_refl _))

namespace Layout

/-! ### Demands -/

/-- What is asked of the parameters of a layout, in the order of asking,
each with the refusal of parameters that do not meet it. -/
def demands (lowest highest : Int64) (figures : Nat) : List (Bool × LayoutError) :=
  let unit := Nat.log 2 lowest.toInt.toNat
  let half := Nat.clog 2 (2 * 10 ^ figures) - 1
  [(decide (1 ≤ lowest.toInt), .lowestTooSmall lowest),
    (decide (1 ≤ figures ∧ figures ≤ 5), .figuresOutOfRange figures),
    (decide (2 * lowest.toInt ≤ highest.toInt), .highestTooSmall lowest highest),
    (decide (unit + half ≤ 61), .magnitudeTooLarge unit half)]

/-- The refusal that goes with the first demand that is not met. -/
def firstUnmet (demands : List (Bool × LayoutError)) : Option LayoutError :=
  (demands.find? fun demand => !demand.1).map Prod.snd

/-- The first demand that is not met, one after the other. -/
theorem firstUnmet_cons (met : Bool) (e : LayoutError) (rest : List (Bool × LayoutError)) :
    firstUnmet ((met, e) :: rest) = if met then firstUnmet rest else some e := by
  cases met <;> simp [firstUnmet]

/-- What it means that all demands are met. -/
theorem firstUnmet_eq_none_iff {lowest highest : Int64} {figures : Nat} :
    firstUnmet (demands lowest highest figures) = none ↔
      1 ≤ lowest.toInt ∧ (1 ≤ figures ∧ figures ≤ 5) ∧ 2 * lowest.toInt ≤ highest.toInt ∧
        Nat.log 2 lowest.toInt.toNat + (Nat.clog 2 (2 * 10 ^ figures) - 1) ≤ 61 := by
  simp [firstUnmet, demands]

/-- The magnitude of half a bucket is one less than it takes for `2 * 10 ^ figures`
values. -/
theorem halfMagnitudeOf_eq (figures : Nat) :
    halfMagnitudeOf figures = Nat.clog 2 (2 * 10 ^ figures) - 1 := by
  rw [← ceilLog2_eq_clog]
  rfl

/-- The answer of `make`: the first refusal there is reason for, or else the
layout with the parameters that were given. -/
theorem make_cases (lowest highest : Int64) (figures : Nat) :
    (∃ e, firstUnmet (demands lowest highest figures) = some e ∧
      make lowest highest figures = .error e) ∨
    (firstUnmet (demands lowest highest figures) = none ∧
      ∃ g, make lowest highest figures = .ok g ∧
        g.lowest = lowest ∧ g.highest = highest ∧ g.figures = figures) := by
  have hunit : lowest.toInt.toNat.log2 = Nat.log 2 lowest.toInt.toNat := Nat.log2_eq_log_two
  have hhalf := halfMagnitudeOf_eq figures
  simp only [demands, firstUnmet_cons, ← hunit, ← hhalf, decide_eq_true_eq]
  unfold make
  -- One demand after the other, in the order in which `make` asks.
  by_cases hlow : 1 ≤ lowest.toInt
  · rw [if_pos hlow, dif_neg (by omega)]
    by_cases hfigures : 1 ≤ figures ∧ figures ≤ 5
    · rw [if_pos hfigures, dif_neg (by omega)]
      by_cases hhigh : 2 * lowest.toInt ≤ highest.toInt
      · rw [if_pos hhigh, dif_neg (by omega)]
        by_cases hwide : lowest.toInt.toNat.log2 + halfMagnitudeOf figures ≤ 61
        · rw [if_pos hwide]
          exact Or.inr ⟨rfl, _, dif_neg (by omega), rfl, rfl, rfl⟩
        · rw [if_neg hwide]
          exact Or.inl ⟨_, rfl, dif_pos (by omega)⟩
      · rw [if_neg hhigh, dif_pos (by omega)]
        exact Or.inl ⟨_, rfl, rfl⟩
    · rw [if_neg hfigures, dif_pos (by omega)]
      exact Or.inl ⟨_, rfl, rfl⟩
  · rw [if_neg hlow, dif_pos (by omega)]
    exact Or.inl ⟨_, rfl, rfl⟩

/-- A refusal names the first demand that is not met. -/
theorem make_eq_error_iff {lowest highest : Int64} {figures : Nat} {e : LayoutError} :
    make lowest highest figures = .error e ↔
      firstUnmet (demands lowest highest figures) = some e := by
  rcases make_cases lowest highest figures with ⟨e', hunmet, hmake⟩ | ⟨hunmet, g, hmake, -⟩
  · simp [hunmet, hmake]
  · simp [hunmet, hmake]

/-- Parameters are accepted if all demands are met. -/
theorem exists_make_eq_ok_iff {lowest highest : Int64} {figures : Nat} :
    (∃ g, make lowest highest figures = .ok g) ↔
      firstUnmet (demands lowest highest figures) = none := by
  rcases make_cases lowest highest figures with ⟨e', hunmet, hmake⟩ | ⟨hunmet, g, hmake, -⟩
  · simp [hunmet, hmake]
  · simp [hunmet, hmake]

/-- There is only one layout with given parameters: all else follows from
them. -/
theorem eq_of_parameters_eq {g g' : Layout} (hlowest : g.lowest = g'.lowest)
    (hhighest : g.highest = g'.highest) (hfigures : g.figures = g'.figures) : g = g' := by
  have hunit : g.unitMagnitude = g'.unitMagnitude := by
    rw [g.unitMagnitude_eq, g'.unitMagnitude_eq, hlowest]
  have hhalf : g.halfMagnitude = g'.halfMagnitude := by
    rw [g.halfMagnitude_eq, g'.halfMagnitude_eq, hfigures]
  have hcount : g.bucketCount = g'.bucketCount := by
    rw [g.bucketCount_eq, g'.bucketCount_eq, hunit, hhalf, hhighest]
  cases g
  cases g'
  subst hlowest hhighest hfigures hunit hhalf hcount
  rfl

/-- A layout is made from its own parameters, so there are no others than those
that can be made. -/
theorem make_eq_ok_iff {lowest highest : Int64} {figures : Nat} {g : Layout} :
    make lowest highest figures = .ok g ↔
      g.lowest = lowest ∧ g.highest = highest ∧ g.figures = figures := by
  constructor
  · intro hg
    rcases make_cases lowest highest figures with ⟨e, -, hmake⟩ | ⟨-, g', hmake, hparameters⟩
    · simp [hmake] at hg
    · -- The answer is the same layout, so its parameters are the given ones.
      obtain rfl : g' = g := Except.ok.inj (hmake.symm.trans hg)
      exact hparameters
  · rintro ⟨rfl, rfl, rfl⟩
    -- The fields of a layout say that its parameters meet all demands.
    have hmet : firstUnmet (demands g.lowest g.highest g.figures) = none := by
      rw [firstUnmet_eq_none_iff, ← Nat.log2_eq_log_two, ← g.unitMagnitude_eq,
        ← halfMagnitudeOf_eq, ← g.halfMagnitude_eq]
      exact ⟨g.one_le_lowest, ⟨g.one_le_figures, g.figures_le_five⟩,
        g.twice_lowest_le_highest, g.magnitude_le⟩
    rcases make_cases g.lowest g.highest g.figures with
      ⟨e, hunmet, -⟩ | ⟨-, g', hmake, hlowest, hhighest, hfigures⟩
    · simp [hmet] at hunmet
    · rw [hmake, eq_of_parameters_eq hlowest hhighest hfigures]

/-! ### Numbers that fit -/

/-- Every number on the way to a layout is one of the type it is kept in.
Magnitudes are unsigned words of 32 digits, numbers of slots and buckets
unsigned words of 64, values and the ends of buckets signed words of 64. A
shift is by fewer digits than a word has, and drops none. -/
structure Fits (g : Layout) : Prop where
  /-- The lowest value, doubled to be compared with the highest. -/
  twice_lowest : 2 * g.lowest.toInt < 2 ^ 63
  /-- The sum of the magnitudes. -/
  magnitudes : g.unitMagnitude + g.halfMagnitude < 2 ^ 32
  /-- The number of slots in the first bucket, which is a value too. -/
  firstCount : g.halfMagnitude + 1 < 64 ∧ g.firstCount = 2 ^ (g.halfMagnitude + 1) ∧
    g.firstCount < 2 ^ 63
  /-- The bits of the first bucket. -/
  firstMask : g.unitMagnitude < 64 ∧
    g.firstMask = (g.firstCount - 1) * 2 ^ g.unitMagnitude ∧ g.firstMask < 2 ^ 63
  /-- The ends of the buckets, from the shift that gives the first one on: the
  word that the search holds is the exact end, and so no doubling went too far. -/
  reach : ∀ steps,
    let s := (BucketSearch.start g.unitMagnitude g.halfMagnitude).after g.highest steps
    s.reach.toInt = (2 ^ (g.unitMagnitude + g.halfMagnitude + s.count) : Nat) ∧
      s.count + 1 < 2 ^ 64
  /-- No end is left to be worked out when the search gives its number. -/
  search : ((BucketSearch.start g.unitMagnitude g.halfMagnitude).after g.highest 62).step?
    g.highest = none
  /-- The number of slots in all buckets. -/
  slotCount : g.bucketCount + 1 < 2 ^ 64 ∧ (g.bucketCount + 1) * g.halfCount < 2 ^ 64

/-- Every layout fits: none of its numbers leaves its words. -/
theorem fits (g : Layout) : g.Fits where
  twice_lowest := by
    have htwice := g.twice_lowest_le_highest
    have hword := g.highest.toInt_lt
    omega
  magnitudes := by
    have hmagnitude := g.magnitude_le
    omega
  firstCount := by
    have hhalf := g.halfMagnitude_le
    have hcount := g.halfCount_le
    have hfirst := g.firstCount_eq
    refine ⟨by omega, ?_, by omega⟩
    rw [hfirst, halfCount_eq, Nat.pow_succ, Nat.mul_comm]
  firstMask := by
    have hmagnitude := g.magnitude_le
    have hmask : g.firstMask = (g.firstCount - 1) * 2 ^ g.unitMagnitude := by
      rw [Layout.firstMask, Nat.shiftLeft_eq]
    refine ⟨by omega, hmask, ?_⟩
    -- The mask ends with the first bucket, at `2 ^ 62` or before.
    calc g.firstMask = (g.firstCount - 1) * 2 ^ g.unitMagnitude := hmask
      _ ≤ g.firstCount * 2 ^ g.unitMagnitude := Nat.mul_le_mul_right _ (Nat.sub_le _ _)
      _ = 2 ^ (g.unitMagnitude + g.halfMagnitude + 1) := by
        rw [firstCount_eq, halfCount_eq]
        ring
      _ < 2 ^ 63 := Nat.pow_lt_pow_right (by decide) (by omega)
  reach steps := by
    have hexact := ((BucketSearch.exact_start g.highest g.magnitude_le).after steps).1
    have hroom := hexact.add_count_le
    exact ⟨hexact.reach_eq, by omega⟩
  search := (BucketSearch.exact_start g.highest g.magnitude_le).step?_after_eq_none
  slotCount := by
    have hcount := g.magnitudes_le
    -- At most 64 half buckets, of at most `2 ^ 17` slots.
    have hproduct : (g.bucketCount + 1) * g.halfCount ≤ 64 * 2 ^ 17 :=
      Nat.mul_le_mul (by omega) g.halfCount_le
    omega

/-! ### What is accepted -/

/-- Which parameters make a layout, and which layout.

1. They do exactly if the lowest value is positive, the figures are from 1 to 5,
   the highest value is at least twice the lowest, and the magnitudes that
   follow from the lowest value and the figures add up to no more than 61;
2. otherwise the refusal is the one of the first of these that fails;
3. the layout has the least number of buckets that reach past the highest value,
   and they end at `2 ^ 63` or before. Every bucket has `2 ^ halfMagnitude` slots,
   and the first twice as many. No number on the way leaves its type. -/
theorem make_accepts_exactly (lowest highest : Int64) (figures : Nat) :
    ((∃ g, make lowest highest figures = .ok g) ↔
      1 ≤ lowest.toInt ∧ (1 ≤ figures ∧ figures ≤ 5) ∧ 2 * lowest.toInt ≤ highest.toInt ∧
        Nat.log 2 lowest.toInt.toNat + (Nat.clog 2 (2 * 10 ^ figures) - 1) ≤ 61) ∧
    (∀ e, make lowest highest figures = .error e ↔
      firstUnmet (demands lowest highest figures) = some e) ∧
    ∀ g, make lowest highest figures = .ok g →
      (g.lowest = lowest ∧ g.highest = highest ∧ g.figures = figures) ∧
      g.unitMagnitude = Nat.log 2 lowest.toInt.toNat ∧
      g.halfMagnitude = Nat.clog 2 (2 * 10 ^ figures) - 1 ∧
      IsLeast { n | 1 ≤ n ∧
        highest.toInt < (2 ^ (g.unitMagnitude + g.halfMagnitude + n) : Nat) } g.bucketCount ∧
      g.unitMagnitude + g.halfMagnitude + g.bucketCount ≤ 63 ∧
      g.slotCount = (g.bucketCount + 1) * 2 ^ g.halfMagnitude ∧
      g.Fits := by
  refine ⟨exists_make_eq_ok_iff.trans firstUnmet_eq_none_iff, fun _ => make_eq_error_iff, ?_⟩
  intro g hg
  obtain ⟨rfl, rfl, rfl⟩ := make_eq_ok_iff.1 hg
  refine ⟨⟨rfl, rfl, rfl⟩, ?_, ?_, g.bucketCount_isLeast, g.magnitudes_le, ?_, g.fits⟩
  · rw [g.unitMagnitude_eq, Nat.log2_eq_log_two]
  · rw [g.halfMagnitude_eq, halfMagnitudeOf_eq]
  · rw [Layout.slotCount, halfCount_eq]

/-- All values from 0 up, at three figures: the search stops at an end that it
cannot double, and the bucket after it is the last one. -/
example : (make 1 Int64.maxValue 3).toOption.map (fun g => (g.bucketCount, g.slotCount))
    = some (53, 54 * 1024) := by
  decide

end Layout

end LogBuckets
