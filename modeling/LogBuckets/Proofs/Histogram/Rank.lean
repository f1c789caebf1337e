import LogBuckets.Proofs.Binary64.Arithmetic
import LogBuckets.Proofs.Histogram.OrderStatistic
import LogBuckets.Proofs.Layout.Spans

/-!
# `LogBuckets.Proofs.Histogram.Rank`: when a percentile has a sample

A percentile of `n` samples asks for the sample whose number is that percentage
of `n`, and a half more, cut to an integer. The number is worked out in binary64
and rounded four times on the way: `n` itself, times the percentage, over 100,
and a half more. A histogram has no sample past number `n`, and answers 0 when
rounding has gone there. This file says when that happens.

* `rank_eq`: the rank, with every rounding written out, for any percentile;
* `rank_le_rank_hundred`: no percentile asks for more than 100 does;
* `roundedRank_hundred_lt`, `rank_le_total`: up to a total of 2882303761517120
  no percentile asks for more than there is. Below `2 ^ 51` the rounding of the
  quotient still sees quarters, and a quarter more than `n` is not enough; above,
  it sees only halves, and takes what is off by less than a quarter back to `n`;
* `valueAtPercentile_recorded`: what this means for the answers after any
  history. `valueAtPercentile_past_all` is the least total for which the rank
  goes past all samples.
-/

set_option autoImplicit false

namespace LogBuckets

open Binary64

/-! ### The rank as a number -/

/-- Clamping leaves a number from 0 to 100, whatever it is given. -/
theorem hasValue_clampPercentile (p : Float) :
    ∃ q, HasValue (clampPercentile p) q ∧ q ≤ 100 := by
  rw [clampPercentile]
  split
  · next hpos =>
      split
      · next hless =>
          -- Above 0 there are numbers and infinity, and infinity is not below 100.
          rcases hasValue_zero.value_of_lt hpos with hinfinity | ⟨q, hq, -⟩
          · rw [lt_iff_compare, hinfinity] at hless
            exact absurd hless (by decide)
          · exact ⟨q, hq, ((hq.lt_iff hasValue_hundred).1 hless).le⟩
      · exact ⟨100, hasValue_hundred, le_rfl⟩
  · exact ⟨0, hasValue_zero, by norm_num⟩

/-- What is cut to the rank of `q` percent of `n` samples, rounded at every
step. -/
def roundedRank (q : ℚ) (n : ℕ) : ℚ :=
  rounded (rounded (rounded (q * rounded n) / 100) + 1 / 2)

/-- A higher percentage does not have a lower rank, rounded or not. -/
theorem roundedRank_mono {q r : ℚ} (hq : 0 ≤ q) (hle : q ≤ r) (n : ℕ) :
    roundedRank q n ≤ roundedRank r n := by
  have hn := rounded_nonneg (Nat.cast_nonneg n : (0 : ℚ) ≤ n)
  have hproduct : 0 ≤ q * rounded n := mul_nonneg hq hn
  have hquotient : 0 ≤ rounded (q * rounded n) / 100 :=
    div_nonneg (rounded_nonneg hproduct) (by norm_num)
  refine rounded_mono (add_nonneg (rounded_nonneg hquotient) (by norm_num)) ?_
  refine add_le_add_left (rounded_mono hquotient ?_) _
  exact div_le_div_of_nonneg_right
    (rounded_mono hproduct (mul_le_mul_of_nonneg_right hle hn)) (by norm_num)

/-- Nothing on the way to the rank is too large for binary64. -/
theorem rank_eq {p : Float} {q : ℚ} (hp : HasValue (clampPercentile p) q) (hhigh : q ≤ 100)
    {n : ℕ} (hn : n < 2 ^ 64) :
    rank n p = max 1 (min (2 ^ 64 - 1) ⌊roundedRank q n⌋₊) := by
  have hlimit : ∀ k < 1024, (2 : ℚ) ^ k < 2 ^ 1024 := fun k hk => pow_lt_pow_right₀ one_lt_two hk
  have hn' : (n : ℚ) ≤ 2 ^ 64 := by exact_mod_cast hn.le
  -- The count is at most `2 ^ 64`, so the product and the quotient are at most `2 ^ 71`,
  -- and the sum at most `2 ^ 72`.
  have hcount := rounded_nonneg (Nat.cast_nonneg n : (0 : ℚ) ≤ n)
  have hcount' := rounded_le_two_pow (Nat.cast_nonneg n) hn'
  have hproduct : 0 ≤ q * rounded n := mul_nonneg (Stores.nonneg hp) hcount
  have hproduct' : q * rounded n ≤ 2 ^ 71 := by
    calc q * rounded n ≤ 100 * 2 ^ 64 := mul_le_mul hhigh hcount' hcount (by norm_num)
      _ ≤ 2 ^ 71 := by norm_num
  have hround := rounded_nonneg hproduct
  have hround' := rounded_le_two_pow hproduct hproduct'
  have hquotient : 0 ≤ rounded (q * rounded n) / 100 := by positivity
  have hquotient' : rounded (q * rounded n) / 100 ≤ 2 ^ 71 := by linarith
  have hround₂ := rounded_nonneg hquotient
  have hround₂' := rounded_le_two_pow hquotient hquotient'
  have hsum : 0 ≤ rounded (rounded (q * rounded n) / 100) + 1 / 2 := by positivity
  have hsum' : rounded (rounded (q * rounded n) / 100) + 1 / 2 ≤ 2 ^ 72 := by linarith
  have hround₃' := rounded_le_two_pow hsum hsum'
  have htimes := hp.mul (hasValue_ofCount hn) (hround'.trans_lt (hlimit 71 (by decide)))
  have hover := htimes.div hasValue_hundred (by norm_num)
    (hround₂'.trans_lt (hlimit 71 (by decide)))
  have hmore := hover.add hasValue_half (hround₃'.trans_lt (hlimit 72 (by decide)))
  rw [rank, hmore.toCount_eq, roundedRank]

/-- A percentage of 100 is not changed by the clamp. -/
theorem hasValue_clampPercentile_hundred : HasValue (clampPercentile 100.0) 100 := by
  have hpos : (0.0 : Float) < 100.0 := (hasValue_zero.lt_iff hasValue_hundred).2 (by norm_num)
  have hself : ¬ (100.0 : Float) < 100.0 := by
    rw [hasValue_hundred.lt_iff hasValue_hundred]
    exact lt_irrefl _
  rw [clampPercentile, if_pos hpos, if_neg hself]
  exact hasValue_hundred

/-- No percentile asks for more than 100 does. -/
theorem rank_le_rank_hundred {n : ℕ} (hn : n < 2 ^ 64) (p : Float) : rank n p ≤ rank n 100.0 := by
  obtain ⟨q, hq, hhigh⟩ := hasValue_clampPercentile p
  rw [rank_eq hq hhigh hn, rank_eq hasValue_clampPercentile_hundred le_rfl hn]
  have hfloor := Nat.floor_mono (roundedRank_mono (Stores.nonneg hq) hhigh n)
  omega

/-! ### Ranks past all samples -/

/-- An integer that is off by `4 / 25`, rounded, with a half added, and rounded
again, does not come up to the next integer. -/
theorem rounded_rounded_add_half_lt {n : ℕ} (hn : n + 1 < 2 ^ 52) :
    rounded (rounded (n + 4 / 25) + 1 / 2) < n + 1 := by
  have hoff : (0 : ℚ) ≤ n + 4 / 25 := by positivity
  have hsum : 0 ≤ rounded (n + 4 / 25) + 1 / 2 := add_nonneg (rounded_nonneg hoff) (by norm_num)
  rcases Nat.lt_or_ge (n + 1) (2 ^ 51 + 1) with hlt | hge
  · -- There are places for quarters.
    have hfew : (n : ℚ) + 1 ≤ 2 ^ 51 := by exact_mod_cast Nat.lt_succ_iff.1 hlt
    have hup : rounded (n + 4 / 25) ≤ (4 * n + 1 : ℤ) * 2 ^ (-2 : ℤ) := by
      refine rounded_le hoff (by decide) ?_ ?_
      · norm_num
        linarith
      · norm_num
        linarith
    have hlast : rounded (rounded (n + 4 / 25) + 1 / 2) ≤ (4 * n + 3 : ℤ) * 2 ^ (-2 : ℤ) := by
      refine rounded_le hsum (by decide) ?_ ?_
      · norm_num at hup ⊢
        linarith
      · norm_num at hup ⊢
        linarith
    norm_num at hlast
    linarith
  · -- There are places for halves, and what is off is less than half of one.
    have hmany : (2 : ℚ) ^ 51 ≤ n := by exact_mod_cast Nat.le_of_succ_le_succ hge
    have hfew : (n : ℚ) + 1 < 2 ^ 52 := by exact_mod_cast hn
    have hback : rounded (n + 4 / 25) ≤ (2 * n : ℤ) * 2 ^ (-1 : ℤ) := by
      refine rounded_le_of_lt (by decide) ?_ ?_ ?_
      · norm_num
        linarith
      · norm_num
        linarith
      · norm_num
        linarith
    have hlast : rounded (rounded (n + 4 / 25) + 1 / 2) ≤ (2 * n + 1 : ℤ) * 2 ^ (-1 : ℤ) := by
      refine rounded_le hsum (by decide) ?_ ?_
      · norm_num at hback ⊢
        linarith
      · norm_num at hback ⊢
        linarith
    norm_num at hlast
    linarith

/-- The rank of 100 percent, as long as the product ends at place 5 or before and
so is not off by more than 16. -/
theorem roundedRank_hundred_lt {n : ℕ} (hn : 100 * n < 2 ^ 58) : roundedRank 100 n < n + 1 := by
  have hcast : 100 * (n : ℚ) < 2 ^ 58 := by exact_mod_cast hn
  have hself : rounded n = n := rounded_natCast (by omega)
  have hproduct : rounded (100 * n) ≤ 100 * n + 16 := by
    have hnear := abs_rounded_sub_le (q := 100 * n) (j := 5) (by positivity) (by decide)
      (by norm_num; linarith)
    have hoff := (abs_le.1 hnear).2
    norm_num at hoff
    linarith
  have hnonneg := rounded_nonneg (by positivity : (0 : ℚ) ≤ 100 * n)
  -- The product is off by 16, so the quotient is off by `4 / 25`.
  have hquotient : rounded (rounded (100 * n) / 100) ≤ rounded (n + 4 / 25) :=
    rounded_mono (by positivity) (by linarith)
  have hnonneg' := rounded_nonneg (by positivity : 0 ≤ rounded (100 * n) / 100)
  calc roundedRank 100 n = rounded (rounded (rounded (100 * n) / 100) + 1 / 2) := by
        rw [roundedRank, hself]
    _ ≤ rounded (rounded (n + 4 / 25) + 1 / 2) := rounded_mono (by positivity) (by linarith)
    _ < n + 1 := rounded_rounded_add_half_lt (by omega)

/-- Up to a total of 2882303761517120 every percentile asks for a sample that
there is. -/
theorem rank_le_total {n : ℕ} (hpos : 0 < n) (hfew : n ≤ 2882303761517120) (p : Float) :
    rank n p ≤ n := by
  refine (rank_le_rank_hundred (by omega) p).trans ?_
  rcases Nat.lt_or_ge (100 * n) (2 ^ 58) with hlt | hge
  · have hfloor : ⌊roundedRank 100 n⌋₊ < n + 1 :=
      (Nat.floor_lt' (Nat.succ_ne_zero n)).2 (by exact_mod_cast roundedRank_hundred_lt hlt)
    rw [rank_eq hasValue_clampPercentile_hundred le_rfl (by omega)]
    omega
  · -- Only three totals are left. Their products are off by more than 16, but
    -- not upwards.
    have hcases : n = 2882303761517118 ∨ n = 2882303761517119 ∨ n = 2882303761517120 := by omega
    rcases hcases with rfl | rfl | rfl
    · decide
    · decide
    · decide

namespace Histogram

/-! ### Answers -/

/-- The search for a rank finds nothing exactly if the rank is past the total. -/
theorem Holds.slotAtRank?_eq_none {h : Histogram} {samples : List (Int64 × Nat)}
    (hs : h.Holds samples) {t : Nat} (ht : h.total < t) : h.slotAtRank? t = none := by
  have hstart : h.countBelow 0 < t := by
    rw [countBelow, Finset.range_zero, Finset.sum_empty, Nat.min_zero]
    omega
  rcases h.slotAtRankFrom?_spec t 0 (Nat.zero_le _) hstart with
    ⟨i, -, hi, -, hpass⟩ | ⟨hlost, -⟩
  · have hmono := h.countBelow_mono (Nat.succ_le_of_lt hi)
    rw [Nat.succ_eq_add_one, slotCount_eq, ← hs.total_eq_countBelow] at hmono
    omega
  · rw [slotAtRank?_eq]
    exact hlost

/-- What a histogram answers to a percentile `p`, after any history. Let `t` be
the rank that `p` stands for.

1. The rank is never 0, and not above that of 100 percent. So if the latter is
   answered with a slot, every percentile is.
2. It is not above the total as long as the total is not above 2882303761517120.
3. When it is not above the total, the answer is the greatest value of a slot
   that holds counts, the one at which the search stops.
4. When it is, the search finds nothing and the answer is 0. -/
theorem valueAtPercentile_recorded (layout : Layout) (offset : Nat) (events : List Event)
    (p : Float) :
    let h := (empty layout offset).after events
    let t := rank h.total p
    1 ≤ t ∧ t ≤ rank h.total 100.0 ∧
    (0 < h.total → h.total ≤ 2882303761517120 → t ≤ h.total) ∧
    (t ≤ h.total → ∃ i < layout.slotCount, 0 < h.countAt i ∧ h.slotAtRank? t = some i ∧
      h.valueAtPercentile p = layout.slotCeiling (layout.valueAt i)) ∧
    (h.total < t → h.slotAtRank? t = none ∧ h.valueAtPercentile p = 0) := by
  intro h t
  have hs : h.Holds ((empty layout offset).accepted events) := holds_accepted layout offset events
  have hlayout : h.layout = layout := layout_after_empty layout offset events
  have hlimit : h.total < 2 ^ 64 := by
    have hcut : h.total ≤ Tally.limit := hs.total_eq ▸ Nat.min_le_left _ _
    have hsize : Tally.limit = 2 ^ 64 - 1 := rfl
    omega
  have ht : 1 ≤ t := Nat.le_max_left _ _
  obtain ⟨hfound, hlost⟩ := valueAtRank_orderStatistic hs ht
  refine ⟨ht, rank_le_rank_hundred hlimit p, fun hpos hfew => rank_le_total hpos hfew p, ?_, ?_⟩
  · intro hle
    obtain ⟨x, i, -, hslot, hxslot, -, hcount, -, -⟩ := hfound hle
    rw [hlayout] at hxslot
    refine ⟨i, Layout.slot?_lt_slotCount hxslot, hcount, hslot, ?_⟩
    show h.valueAtRank t = _
    rw [valueAtRank, hslot, hlayout]
  · intro hlt
    exact ⟨hs.slotAtRank?_eq_none hlt, hlost hlt⟩

/-- One value, recorded so often that 100 percent of its count are rounded to
more, is not found again. -/
theorem valueAtPercentile_past_all :
    ∃ layout, Layout.make 1 1000 3 = .ok layout ∧
      let h := (empty layout 0).after [.record 10 2882303761517121]
      h.total = 2882303761517121 ∧ h.countAt 10 = 2882303761517121 ∧
      rank h.total 100.0 = 2882303761517122 ∧ h.valueAtPercentile 100.0 = 0 ∧
      ∀ i, 0 < h.countAt i → layout.slotCeiling (layout.valueAt i) ≠ 0 := by
  obtain ⟨layout, hmake, hslot, hceiling⟩ :
      ∃ g, Layout.make 1 1000 3 = .ok g ∧ g.slot? 10 = some 10 ∧
        g.slotCeiling (g.valueAt 10) = 10 :=
    Layout.exists_make_ok (by decide)
  let h := (empty layout 0).after [.record 10 2882303761517121]
  have hs : h.Holds [(10, 2882303761517121)] := holds_of_record layout 0 hslot (by decide)
  have hcount : ∀ i, h.countAt i = if i = 10 then 2882303761517121 else 0 :=
    countAt_of_record layout 0 hslot (by decide)
  have htotal : h.total = 2882303761517121 := hs.total_eq.trans (by decide)
  have hrank : rank h.total 100.0 = 2882303761517122 := by
    rw [htotal]
    decide
  refine ⟨layout, hmake, htotal, hcount 10, hrank, ?_, ?_⟩
  · -- The rank is one above the total, so the walk comes to the end.
    show h.valueAtRank (rank h.total 100.0) = 0
    rw [valueAtRank, hs.slotAtRank?_eq_none (by rw [hrank, htotal]; decide)]
  · intro i hpos
    by_cases hi : i = 10
    · rw [hi, hceiling]
      decide
    · rw [hcount, if_neg hi] at hpos
      exact absurd hpos (Nat.lt_irrefl 0)

end Histogram

end LogBuckets
