import LogBuckets.Proofs.Binary64.Arithmetic
import LogBuckets.Proofs.Cursor.Percentiles

/-!
# `LogBuckets.Proofs.Cursor.PercentileLevels`: where the percentile levels end

The percentile levels climb towards 100 by ever smaller distances. Each distance is
about what is left to 100, divided by the ticks, so with exact numbers 100 would not
be reached. With binary64 numbers a distance is lost in rounding as soon as it is
less than half of the last digit of the level, and from then on the level stays
where it is.

One step is read off four roundings: of what is left (`hasValue_left`), of how many
times it goes into 100 (`halvings_spec`), of the distance (`hasValue_percentileStep`)
and of the level after it (`hasValue_next`).

* `nextValue_le_hundred`: no step leads past 100;
* `hundred_sub_le_of_stall`: a level that stays has come close to 100, closer with
  fewer ticks;
* `exists_lastLevel`: the levels climb up to some level, and stay there.
-/

set_option autoImplicit false

namespace LogBuckets.Plan

open Binary64

variable {level : Float} {q : ℚ} {ticks : Nat}

/-! ### The distance to the next level -/

/-- The power of two that what is left to 100 is divided by. -/
def halvings (level : Float) : Nat :=
  exponent (100.0 / (100.0 - level)) + 1

/-- What 100 is divided by for the distance to the next level. -/
def divisor (level : Float) (ticks : Nat) : Nat :=
  min (ticks <<< halvings level) (2 ^ 63 - 1)

/-- The step in terms of its divisor. -/
theorem percentileStep_eq (level : Float) (ticks : Nat) :
    percentileStep level ticks = 100.0 / ofCount (divisor level ticks) :=
  rfl

/-- What is left to 100, as a number. -/
theorem hasValue_left (hlevel : HasValue level q) (hq : q ≤ 100) :
    HasValue (100.0 - level) (rounded (100 - q)) := by
  have hlow := hlevel.nonneg
  refine hasValue_hundred.sub hlevel hq ?_
  exact rounded_lt_two_pow (k := 7) (by linarith) (by norm_num; linarith) (by decide)

/-- What is left to 100 is not more than 100. -/
theorem left_le (hlow : 0 ≤ q) (hq : q ≤ 100) : rounded (100 - q) ≤ 100 := by
  have hmono := rounded_mono (q := 100 - q) (r := 100) (by linarith) (by linarith)
  rw [Stores.rounded_eq hasValue_hundred] at hmono
  exact hmono

/-- Up to 100 the last digit is at place -46. -/
theorem abs_left_sub_le (hlow : 0 ≤ q) (hq : q ≤ 100) :
    |rounded (100 - q) - (100 - q)| ≤ 2 ^ (-47 : ℤ) := by
  have hnear := abs_rounded_sub_le (q := 100 - q) (j := -46) (by linarith) (by decide)
    (by norm_num; linarith)
  norm_num at hnear ⊢
  exact hnear

/-- The power of two has just passed the number of times that what is left goes into
100. If next to nothing is left, that number is infinite. -/
theorem halvings_spec (hlevel : HasValue level q) (hq : q ≤ 100) :
    (100 < rounded (100 - q) * 2 ^ halvings level ∧
      rounded (100 - q) * 2 ^ halvings level < 400) ∨
    (halvings level = 1025 ∧ rounded (100 - q) < 2 ^ (-47 : ℤ)) := by
  have hleft := hasValue_left hlevel hq
  have hmost := left_le hlevel.nonneg hq
  -- From here on only the rounded difference counts, under the name `d`.
  rw [halvings]
  generalize rounded (100 - q) = d at hleft hmost
  rcases hasValue_hundred.div_cases hleft (by norm_num) with
    ⟨hd, hquotient⟩ | ⟨⟨sign, hinfinity⟩, hsmall⟩
  · left
    -- Nothing above 100 is left, so the quotient is at least 1 and stays so when rounded.
    have hone : 1 ≤ 100 / d := (one_le_div₀ hd).2 hmost
    have hone' : 1 ≤ rounded (100 / d) := two_pow_le_rounded (j := 0) (by decide) hone
    obtain ⟨hlow, hhigh⟩ := hquotient.two_pow_exponent hone'
    generalize exponent (100.0 / (100.0 - level)) = k at hlow hhigh
    constructor
    · have hquotient' := lt_two_pow_of_rounded_lt hhigh
      rw [div_lt_iff₀ hd, mul_comm] at hquotient'
      exact hquotient'
    · -- The quotient may have been rounded up to the power of two, not to its double.
      cases k with
      | zero =>
          rw [Nat.zero_add, pow_one]
          linarith
      | succ k =>
          have hquotient' := two_pow_lt_of_le_rounded (by positivity) (Nat.lt_succ_self k) hlow
          rw [lt_div_iff₀ hd] at hquotient'
          rw [pow_succ, pow_succ]
          linarith
  · right
    -- The quotient is out of range only if `d` is below `100 / 2 ^ 64`, which is less than
    -- `2 ^ (-47)` by far.
    rw [exponent_of_infinity hinfinity]
    refine ⟨rfl, ?_⟩
    by_contra hmore
    have hless : d * 2 ^ 64 ≤ 100 := by
      refine le_trans ?_ hsmall
      exact mul_le_mul_of_nonneg_left (pow_le_pow_right₀ one_le_two (by decide)) hleft.nonneg
    norm_num at hmore hless
    linarith only [hmore, hless]

/-- The divisor is a word. -/
theorem divisor_lt (level : Float) (ticks : Nat) : divisor level ticks < 2 ^ 63 := by
  rw [divisor]
  omega

/-- As long as it is not cut at the greatest word, the divisor is at least the power of
two. Ticks only make it larger. -/
theorem two_pow_le_divisor (hticks : 0 < ticks) {k : ℕ} (hk : k ≤ halvings level)
    (hlimit : k ≤ 62) : 2 ^ k ≤ divisor level ticks := by
  have hshift : 2 ^ k ≤ ticks <<< halvings level := by
    rw [Nat.shiftLeft_eq]
    calc 2 ^ k ≤ 2 ^ halvings level := Nat.pow_le_pow_right Nat.two_pos hk
      _ ≤ ticks * 2 ^ halvings level := Nat.le_mul_of_pos_left _ hticks
  have hword : 2 ^ k ≤ 2 ^ 62 := Nat.pow_le_pow_right Nat.two_pos hlimit
  rw [divisor]
  omega

/-- The distance to the next level, as a number. -/
def distance (level : Float) (ticks : Nat) : ℚ :=
  rounded (100 / rounded (divisor level ticks))

/-- The same of the divisor as a binary64 number. Powers of two are not lost in
rounding. -/
theorem two_pow_le_rounded_divisor (hticks : 0 < ticks) {k : ℕ} (hk : k ≤ halvings level)
    (hlimit : k ≤ 62) : (2 : ℚ) ^ k ≤ rounded (divisor level ticks) := by
  have hcast : (2 : ℚ) ^ k ≤ divisor level ticks := by
    exact_mod_cast two_pow_le_divisor hticks hk hlimit
  rw [← zpow_natCast] at hcast ⊢
  exact two_pow_le_rounded (by omega) hcast

/-- So nothing is divided by less than 1. -/
theorem one_le_rounded_divisor (level : Float) (hticks : 0 < ticks) :
    1 ≤ rounded (divisor level ticks) := by
  have hpow := two_pow_le_rounded_divisor hticks (Nat.zero_le (halvings level)) (Nat.zero_le 62)
  rw [pow_zero] at hpow
  exact hpow

/-- The distance is at most 100 divided by the power of two. -/
theorem distance_le (hticks : 0 < ticks) {k : ℕ} (hk : k ≤ halvings level) (hlimit : k ≤ 62) :
    distance level ticks ≤ 100 / 2 ^ k := by
  have hdivisor := two_pow_le_rounded_divisor hticks hk hlimit
  have hpow : (0 : ℚ) < 2 ^ k := by positivity
  have hself := rounded_eq_self (n := 100) (j := -(k : ℤ)) (by decide) (by omega) (by decide)
  rw [zpow_neg, zpow_natCast, Int.cast_ofNat, ← div_eq_mul_inv] at hself
  rw [distance, ← hself]
  exact rounded_mono (div_nonneg (by norm_num) (hpow.le.trans hdivisor))
    (div_le_div_of_nonneg_left (by norm_num) hpow hdivisor)

/-- The distance itself is never rounded to 0. It may still be lost when it is added to
a level. -/
theorem distance_pos (level : Float) (hticks : 0 < ticks) : 0 < distance level ticks := by
  have hdivisor := one_le_rounded_divisor level hticks
  have hword : rounded (divisor level ticks) ≤ 2 ^ 63 :=
    rounded_le_two_pow (Nat.cast_nonneg _) (by exact_mod_cast (divisor_lt level ticks).le)
  rw [distance]
  generalize rounded (divisor level ticks) = d at hdivisor hword
  have hleast : (2 : ℚ) ^ (-63 : ℤ) ≤ 100 / d := by
    rw [le_div_iff₀ (by linarith)]
    norm_num
    linarith
  exact lt_of_lt_of_le (by positivity) (two_pow_le_rounded (by decide) hleast)

/-- The step is the number that its name says. -/
theorem hasValue_percentileStep (level : Float) (hticks : 0 < ticks) :
    HasValue (percentileStep level ticks) (distance level ticks) := by
  have hdivisor := one_le_rounded_divisor level hticks
  have hword := divisor_lt level ticks
  have hcount := hasValue_ofCount (n := divisor level ticks) (by omega)
  rw [percentileStep_eq, distance]
  generalize rounded (divisor level ticks) = d at hdivisor hcount
  have hpos : 0 < d := by linarith
  refine hasValue_hundred.div hcount hpos ?_
  -- A divisor of 1 or more leaves a quotient of 100 or less, below `2 ^ 7`, in range.
  refine rounded_lt_two_pow (k := 7) (by positivity) ?_ (by decide)
  rw [div_le_iff₀ hpos]
  linarith

/-! ### One step -/

/-- The value of the level after one of value `q`. -/
def nextValue (level : Float) (ticks : Nat) (q : ℚ) : ℚ :=
  rounded (q + distance level ticks)

/-- To be rounded past 100 a number has to be above it by half of the last digit. -/
theorem rounded_le_hundred {r : ℚ} (hr : 0 ≤ r) (hless : r < 100 + 2 ^ (-47 : ℤ)) :
    rounded r ≤ 100 := by
  norm_num at hless
  rcases lt_or_ge r 64 with hsmall | hlarge
  · have hround := rounded_le_two_pow (k := 6) hr (by norm_num; exact hsmall.le)
    linarith
  · have hround := rounded_le_of_lt (q := r) (n := 100 * 2 ^ 46) (j := -46) (by decide)
      (by norm_num; exact hlarge) (by norm_num; linarith) (by norm_num; linarith)
    norm_num at hround
    exact hround

/-- A step does not lead past 100: it is not that much longer than what is left. -/
theorem nextValue_le_hundred (hlevel : HasValue level q) (hq : q ≤ 100) (hticks : 0 < ticks) :
    nextValue level ticks q ≤ 100 := by
  have hpos := distance_pos level hticks
  have hlow := hlevel.nonneg
  have hoff := (abs_le.1 (abs_left_sub_le hlow hq)).2
  -- A distance that is cut at the greatest word is too short to be noticed.
  have htiny : 62 ≤ halvings level → distance level ticks < 2 ^ (-47 : ℤ) := fun hmany =>
    (distance_le hticks hmany le_rfl).trans_lt (by norm_num)
  refine rounded_le_hundred (by linarith) ?_
  -- As many halvings as `halvings` counts take 100 below what is left, so the distance is
  -- below it too. Beyond 62 halvings the divisor is cut, and the distance is tiny anyway.
  rcases halvings_spec hlevel hq with ⟨hpassed, -⟩ | ⟨hinfinite, -⟩
  · rcases Nat.lt_or_ge (halvings level) 62 with hfew | hmany
    · have hdistance := distance_le hticks le_rfl hfew.le
      have hless : (100 : ℚ) / 2 ^ halvings level < rounded (100 - q) :=
        (div_lt_iff₀ (by positivity)).2 hpassed
      linarith
    · linarith [htiny hmany]
  · linarith [htiny (by omega)]

/-- A step does not lead down. -/
theorem le_nextValue (hlevel : HasValue level q) (hticks : 0 < ticks) :
    q ≤ nextValue level ticks q := by
  have hpos := distance_pos level hticks
  have hmono := rounded_mono (r := q + distance level ticks) hlevel.nonneg (by linarith)
  rw [hlevel.rounded_eq] at hmono
  exact hmono

/-- The first step leads away from 0. -/
theorem nextValue_pos (hlevel : HasValue level q) (hticks : 0 < ticks) :
    0 < nextValue level ticks q := by
  have hpos := distance_pos level hticks
  have hlow := hlevel.nonneg
  have hmono := rounded_mono (r := q + distance level ticks) hpos.le (by linarith)
  rw [(hasValue_percentileStep level hticks).rounded_eq] at hmono
  exact hpos.trans_le hmono

/-- The level after a step, as a number. It is at most 100, so it is not too large. -/
theorem hasValue_next (hlevel : HasValue level q) (hq : q ≤ 100) (hticks : 0 < ticks) :
    HasValue (level + percentileStep level ticks) (nextValue level ticks q) := by
  refine hlevel.add (hasValue_percentileStep level hticks) ?_
  refine (nextValue_le_hundred hlevel hq hticks).trans_lt ?_
  calc (100 : ℚ) < 2 ^ 7 := by norm_num
    _ < 2 ^ 1024 := pow_lt_pow_right₀ one_lt_two (by decide)

/-- A distance that is lost in rounding is not above half of the last digit. -/
theorem distance_le_of_stall (hlow : 0 ≤ q) (hq : q ≤ 100) (hticks : 0 < ticks)
    (hstall : nextValue level ticks q = q) : distance level ticks ≤ 2 ^ (-47 : ℤ) := by
  have hpos := distance_pos level hticks
  have hless : q + distance level ticks < 2 ^ 7 := by
    -- A sum of 128 or more would not have been rounded to a level of 100 or less.
    by_contra hmore
    have hround := two_pow_le_rounded (j := 7) (by decide) (not_lt.1 hmore)
    rw [← nextValue, hstall] at hround
    norm_num at hround
    linarith
  -- Between 64 and 128 the last digit is worth `2 ^ (-46)`.
  have hnear := (abs_le.1 (abs_rounded_sub_le (j := -46) (by linarith) (by decide) hless)).1
  rw [← nextValue, hstall] at hnear
  norm_num at hnear ⊢
  linarith

/-- So 100 was divided by much. -/
theorem lt_mul_two_pow_of_stall (hlow : 0 ≤ q) (hq : q ≤ 100) (hticks : 0 < ticks)
    (hfew : ticks < 2 ^ 53) (hstall : nextValue level ticks q = q) :
    100 * 2 ^ 46 < (ticks : ℚ) * 2 ^ halvings level := by
  have hlost := distance_le_of_stall hlow hq hticks hstall
  have hdivisor := one_le_rounded_divisor level hticks
  have hlarge : 100 * 2 ^ 46 < rounded (divisor level ticks) := by
    rw [distance] at hlost
    generalize rounded (divisor level ticks) = d at hdivisor hlost ⊢
    -- A smaller divisor makes a distance of `2 ^ (-46)`, twice what is lost.
    by_contra hsmall
    have hle : (2 : ℚ) ^ (-46 : ℤ) ≤ 100 / d := by
      rw [le_div_iff₀ (by linarith)]
      norm_num at hsmall ⊢
      linarith
    have hround := (two_pow_le_rounded (by decide) hle).trans hlost
    norm_num at hround
  -- So few ticks, times a power of two, have the digits.
  have hexact : rounded ((ticks : ℤ) * 2 ^ (halvings level : ℤ)) = _ :=
    rounded_eq_self (Int.natCast_nonneg ticks) (by omega) (by exact_mod_cast hfew)
  rw [Int.cast_natCast, zpow_natCast] at hexact
  calc 100 * 2 ^ 46 < rounded (divisor level ticks) := hlarge
    _ ≤ rounded (ticks * 2 ^ halvings level) := by
      refine rounded_mono (Nat.cast_nonneg _) ?_
      have hcut : divisor level ticks ≤ ticks <<< halvings level := Nat.min_le_left _ _
      rw [Nat.shiftLeft_eq] at hcut
      exact_mod_cast hcut
    _ = ticks * 2 ^ halvings level := hexact

/-- A level that stays has come close to 100. -/
theorem hundred_sub_le_of_stall (hlevel : HasValue level q) (hq : q ≤ 100) (hticks : 0 < ticks)
    (hfew : ticks < 2 ^ 53) (hstall : nextValue level ticks q = q) :
    100 - q ≤ ticks * 2 ^ (-44 : ℤ) + 2 ^ (-47 : ℤ) := by
  have hlow := hlevel.nonneg
  have hone : (1 : ℚ) ≤ ticks := by exact_mod_cast hticks
  have hmany := lt_mul_two_pow_of_stall hlow hq hticks hfew hstall
  have hoff := (abs_le.1 (abs_left_sub_le hlow hq)).1
  have hleft := (hasValue_left hlevel hq).nonneg
  rcases halvings_spec hlevel hq with ⟨-, hless⟩ | ⟨-, hsmall⟩
  · -- The power of two is not much above what is left.
    have hscale : rounded (100 - q) * (100 * 2 ^ 46) ≤ ticks * 400 :=
      calc rounded (100 - q) * (100 * 2 ^ 46)
          ≤ rounded (100 - q) * (ticks * 2 ^ halvings level) :=
            mul_le_mul_of_nonneg_left hmany.le hleft
        _ = ticks * (rounded (100 - q) * 2 ^ halvings level) := by ring
        _ ≤ ticks * 400 := mul_le_mul_of_nonneg_left hless.le (by linarith)
    norm_num at hscale hoff ⊢
    linarith
  · -- An infinite quotient: next to nothing is left.
    norm_num at hsmall hoff ⊢
    linarith

/-! ### The levels of a run -/

/-- Every level is a number up to 100. -/
theorem hasValue_percentileLevel (hticks : 0 < ticks) (n : Nat) :
    ∃ q, HasValue (percentileLevel ticks n) q ∧ q ≤ 100 := by
  induction n with
  | zero => exact ⟨0, hasValue_zero, by norm_num⟩
  | succ n ih =>
      obtain ⟨q, hq, hhigh⟩ := ih
      exact ⟨_, hasValue_next hq hhigh hticks, nextValue_le_hundred hq hhigh hticks⟩

/-- No level of a run is above 100. -/
theorem percentileLevel_le_hundred (hticks : 0 < ticks) (n : Nat) :
    percentileLevel ticks n ≤ 100.0 := by
  obtain ⟨q, hq, hhigh⟩ := hasValue_percentileLevel hticks n
  exact (hq.le_iff hasValue_hundred).2 hhigh

/-- A step leads up, or nowhere. -/
theorem percentileLevel_lt_or_eq (hticks : 0 < ticks) (n : Nat) :
    percentileLevel ticks n < percentileLevel ticks (n + 1) ∨
      percentileLevel ticks (n + 1) = percentileLevel ticks n := by
  obtain ⟨q, hq, hhigh⟩ := hasValue_percentileLevel hticks n
  have hnext : HasValue (percentileLevel ticks (n + 1)) _ := hasValue_next hq hhigh hticks
  rcases (le_nextValue hq hticks).lt_or_eq with hlt | heq
  · exact Or.inl ((hq.lt_iff hnext).2 hlt)
  · have hpos := nextValue_pos hq hticks
    rw [← heq] at hnext hpos
    exact Or.inr (hnext.unique hq hpos)

/-- A level that stays once stays for good. -/
theorem percentileLevel_of_stall {n m : Nat}
    (hstall : percentileLevel ticks (n + 1) = percentileLevel ticks n) (hm : n ≤ m) :
    percentileLevel ticks m = percentileLevel ticks n := by
  induction m, hm using Nat.le_induction with
  | base => rfl
  | succ m hm ih =>
      rw [percentileLevel, ih]
      exact hstall

/-- The levels as numbers. -/
theorem exists_values (hticks : 0 < ticks) : ∃ value : ℕ → ℚ, Monotone value ∧
    ∀ n, HasValue (percentileLevel ticks n) (value n) := by
  choose value hvalue using hasValue_percentileLevel hticks
  refine ⟨value, monotone_nat_of_le_succ fun n => ?_, fun n => (hvalue n).1⟩
  have hn := (hvalue n).1
  have hnext := (hvalue (n + 1)).1
  rcases percentileLevel_lt_or_eq hticks n with hlt | heq
  · exact ((hn.lt_iff hnext).1 hlt).le
  · rw [heq] at hnext
    exact (hn.value_unique hnext).le

/-- No level is above one that stays. -/
theorem percentileLevel_le_of_stall (hticks : 0 < ticks) {last : Nat}
    (hstall : percentileLevel ticks (last + 1) = percentileLevel ticks last) (n : Nat) :
    percentileLevel ticks n ≤ percentileLevel ticks last := by
  obtain ⟨value, hmono, hvalue⟩ := exists_values hticks
  rcases Nat.le_total n last with hle | hge
  · exact ((hvalue n).le_iff (hvalue last)).2 (hmono hle)
  · rw [percentileLevel_of_stall hstall hge]
    exact ((hvalue last).le_iff (hvalue last)).2 le_rfl

/-- Some level stays: the levels cannot all be different, for there are only so many
binary64 numbers. -/
theorem exists_stall (hticks : 0 < ticks) :
    ∃ n, percentileLevel ticks (n + 1) = percentileLevel ticks n := by
  by_contra hnone
  obtain ⟨value, -, hvalue⟩ := exists_values hticks
  have hstrict : StrictMono value := strictMono_nat_of_lt_succ fun n => by
    have hlt := (percentileLevel_lt_or_eq hticks n).resolve_right fun heq => hnone ⟨n, heq⟩
    exact ((hvalue n).lt_iff (hvalue (n + 1))).1 hlt
  have hinjective : Function.Injective (percentileLevel ticks) := by
    intro n m heq
    have hm := hvalue m
    rw [← heq] at hm
    exact hstrict.injective ((hvalue n).value_unique hm)
  -- An injection of the numbers of calls into the finitely many words.
  exact not_injective_infinite_finite _ hinjective

/-- The levels of a run climb up to some level, and stay there. -/
theorem exists_lastLevel (hticks : 0 < ticks) :
    ∃ last, percentileLevel ticks (last + 1) = percentileLevel ticks last ∧
      ∀ n < last, percentileLevel ticks n < percentileLevel ticks (n + 1) := by
  have hstall := exists_stall hticks
  refine ⟨Nat.find hstall, Nat.find_spec hstall, fun n hn => ?_⟩
  exact (percentileLevel_lt_or_eq hticks n).resolve_right (Nat.find_min hstall hn)

end LogBuckets.Plan
