import LogBuckets.Cursor.Plan
import LogBuckets.Proofs.Binary64
import LogBuckets.Proofs.Layout.Spans

/-!
# `LogBuckets.Proofs.Cursor.Plan`: value levels never turn back

A plan of value levels goes from one level to the next until the next one
would leave the words. `Climbs` is what every such plan keeps:

* `LevelRule.climbs`: it holds of the plans by any width, and by any first
  level and base;
* `Climbs.step`: a step keeps it, and does not lead to a slot below that of
  the level before. Sums are exact. Products are rounded, and only slots
  can be compared: they begin at numbers of few digits, and no rounding
  goes past one of those;
* `Climbs.step?_eq_none_iff`: when there is no level left.
-/

set_option autoImplicit false

namespace LogBuckets

open Binary64 (IsNumber)

namespace Plan

/-- The value level that comes next, for the plans that have one. -/
def level? : Plan → Option Int64
  | .linear _ level => some level
  | .log _ _ level => some level
  | _ => none

/-- A plan whose value levels are from 1 on and, at the resolution of the slots,
never turn back. Of a number that is multiplied up it is enough to know that it
has not fallen below the slot of the level. -/
inductive Climbs (g : Layout) : Plan → Prop where
  | linear {width level : Int64} (hwidth : 1 ≤ width.toInt) (hlevel : 1 ≤ level.toInt) :
    Climbs g (.linear width level)
  | log {base exact : Float} {level : Int64} {m k : Nat} (hbase : 1.0 < base)
    (hlevel : 1 ≤ level.toInt) (hexact : IsNumber exact m k)
    (hfloor : g.start (g.number level.toInt.toNat) * 2 ^ 52 ≤ m * 2 ^ k) :
    Climbs g (.log base exact level)

/-- A plan that climbs has a next level, from 1 on. -/
theorem Climbs.exists_level {g : Layout} {plan : Plan} (hp : plan.Climbs g) :
    ∃ level, plan.level? = some level ∧ 1 ≤ level.toInt := by
  cases hp with
  | linear hwidth hlevel => exact ⟨_, rfl, hlevel⟩
  | log hbase hlevel hexact hfloor => exact ⟨_, rfl, hlevel⟩

/-- A parameter below 1 is taken as 1. -/
theorem one_le_toInt_clamp (v : Int64) : 1 ≤ (if v < 1 then 1 else v).toInt := by
  split
  · decide
  · next hge =>
      rw [Int64.lt_iff_toInt_lt, Int64.toInt_one] at hge
      omega

/-- Levels by any width climb. -/
theorem climbs_linearBy (g : Layout) (width : Int64) : (linearBy width).Climbs g :=
  .linear (one_le_toInt_clamp width) (one_le_toInt_clamp width)

/-- Slots begin at numbers of few digits, so none is lost when a level becomes
a binary64 number. -/
theorem climbs_logBy (g : Layout) (first : Int64) (base : Float) :
    (logBy first base).Climbs g := by
  have hfirst := one_le_toInt_clamp first
  have hbase : 1.0 < (if 1.0 < base then base else 2.0) := by
    split
    · next hlt => exact hlt
    · rw [Binary64.lt_iff_compare]
      rfl
  -- The first level as a binary64 number is not below any number of 53 digits that the
  -- level itself is not below. The start of its slot is one.
  obtain ⟨m, k, hexact, hleast⟩ := Binary64.isNumber_ofValue hfirst
  refine .log hbase hfirst hexact ?_
  generalize (if first < 1 then 1 else first).toInt.toNat = n at hleast
  have hoffset := (g.isPlace_bucketAt_offsetAt (g.number n)).1
  have hhalf := g.halfCount_le
  rw [Layout.firstCount_eq] at hoffset
  have hdigits : g.start (g.number n) * 2 ^ 52 = g.offsetAt (g.number n)
      * 2 ^ (g.bucketAt (g.number n) + g.unitMagnitude + 52) := by
    rw [Layout.start, Layout.width, Nat.mul_assoc, ← Nat.pow_add]
  rw [hdigits]
  refine hleast _ _ (by omega) ?_
  rw [← hdigits]
  exact Nat.mul_le_mul_right _ (g.start_number_le n)

/-- What is left of the words above a width, without overflow. -/
theorem toInt_maxValue_sub {width : Int64} (hwidth : 1 ≤ width.toInt) :
    (Int64.maxValue - width).toInt = 2 ^ 63 - 1 - width.toInt := by
  have hmax : Int64.maxValue.toInt = 2 ^ 63 - 1 := by decide
  have hword := width.toInt_lt
  rw [Int64.toInt_sub, hmax]
  exact Int.bmod_eq_of_le (by omega) (by omega)

/-- A step that is taken is an exact sum, for the one that would leave the words is
not. -/
theorem linearStep?_eq_some {width level level' : Int64} (hwidth : 1 ≤ width.toInt)
    (hstep : linearStep? width level = some level') :
    level'.toInt = level.toInt + width.toInt := by
  have hlow := level.le_toInt
  rw [linearStep?] at hstep
  split at hstep
  · exact absurd hstep (by simp)
  · next hfits =>
      -- The level is at least one width below the greatest word.
      rw [Int64.lt_iff_toInt_lt, toInt_maxValue_sub hwidth] at hfits
      obtain rfl := Option.some.inj hstep
      rw [Int64.toInt_add]
      exact Int.bmod_eq_of_le (by omega) (by omega)

/-- One step keeps a plan climbing, and takes it to the slot of the level or
one after it. -/
theorem Climbs.step {g : Layout} {plan plan' : Plan} {level : Int64} (hp : plan.Climbs g)
    (hlevel : plan.level? = some level) (hstep : plan.step? = some plan') :
    plan'.Climbs g ∧ ∃ level', plan'.level? = some level' ∧
      g.number level.toInt.toNat ≤ g.number level'.toInt.toNat := by
  cases hp with
  | @linear width level₀ hwidth hlevel₀ =>
      obtain rfl := Option.some.inj hlevel
      obtain ⟨level', hnext, rfl⟩ := Option.map_eq_some_iff.1 hstep
      have hsum := linearStep?_eq_some hwidth hnext
      exact ⟨.linear hwidth (by omega), level', rfl, g.number_mono (by omega)⟩
  | @log base exact level₀ m k hbase hlevel₀ hexact hfloor =>
      obtain rfl := Option.some.inj hlevel
      have hcut : (if (9223372036854775808.0 : Float) ≤ exact * base then none
          else some (Plan.log base (exact * base) (Binary64.toValue (exact * base))))
          = some plan' := hstep
      split at hcut
      · exact absurd hcut (by simp)
      · next hend =>
          obtain rfl := Option.some.inj hcut
          obtain ⟨m', k', hexact', hle⟩ := hexact.mul_of_one_lt hbase hend
          have hvalue := hexact'.toInt_toValue hend
          -- The slot of the level begins at a whole number, so cutting off the
          -- fraction of the next one does not go below it.
          have hreach : g.start (g.number level₀.toInt.toNat) ≤ m' * 2 ^ k' / 2 ^ 52 :=
            (Nat.le_div_iff_mul_le (by decide)).2 (Nat.le_trans hfloor hle)
          have hone : 1 ≤ m' * 2 ^ k' / 2 ^ 52 :=
            (Nat.le_div_iff_mul_le (by decide)).2
              (Nat.mul_comm 1 _ ▸ Nat.mul_le_mul hexact'.le_mantissa Nat.one_le_two_pow)
          have hnat : (Binary64.toValue (exact * base)).toInt.toNat = m' * 2 ^ k' / 2 ^ 52 := by
            rw [hvalue, Int.toNat_natCast]
          refine ⟨.log hbase (by omega) hexact' ?_, _, rfl, ?_⟩
          · rw [hnat]
            exact Nat.le_trans (Nat.mul_le_mul_right _ (g.start_number_le _))
              (Nat.div_mul_le_self _ _)
          · rw [hnat, Layout.le_number_iff]
            exact hreach

/-- The level after the one in hand is not a word any more. -/
def LeavesWords : Plan → Prop
  | .linear width level => 2 ^ 63 ≤ level.toInt + width.toInt
  | .log base exact _ => 9223372036854775808.0 ≤ exact * base
  | _ => False

/-- A plan of value levels has no step left exactly if it would leave the
words. -/
theorem Climbs.step?_eq_none_iff {g : Layout} {plan : Plan} (hp : plan.Climbs g) :
    plan.step? = none ↔ plan.LeavesWords := by
  cases hp with
  | @linear width level hwidth hlevel =>
      have hroom := toInt_maxValue_sub hwidth
      show (linearStep? width level).map (Plan.linear width) = none
        ↔ 2 ^ 63 ≤ level.toInt + width.toInt
      rw [Option.map_eq_none_iff, linearStep?]
      -- The guard compares with what is left to the greatest word, which is the same as
      -- asking if the sum is a word.
      split
      · next hlt =>
          rw [Int64.lt_iff_toInt_lt, hroom] at hlt
          exact ⟨fun _ => by omega, fun _ => rfl⟩
      · next hge =>
          rw [Int64.lt_iff_toInt_lt, hroom] at hge
          exact ⟨fun h => absurd h (by simp), fun h => by omega⟩
  | @log base exact level m k hbase hlevel hexact hfloor =>
      show (if (9223372036854775808.0 : Float) ≤ exact * base then none
          else some (Plan.log base (exact * base) (Binary64.toValue (exact * base)))) = none
        ↔ (9223372036854775808.0 : Float) ≤ exact * base
      split
      · next hle => exact ⟨fun _ => hle, fun _ => rfl⟩
      · next hlt => exact ⟨fun h => absurd h (by simp), fun h => absurd h hlt⟩

end Plan

/-- A way to space value levels, by any parameters. -/
inductive LevelRule where
  /-- Levels `width` apart. -/
  | linear (width : Int64)
  /-- Levels from `first` on that grow by the factor `base`. -/
  | log (first : Int64) (base : Float)

/-- The plan of a rule. -/
def LevelRule.plan : LevelRule → Plan
  | .linear width => .linearBy width
  | .log first base => .logBy first base

/-- The plans of all rules climb, whatever their parameters. -/
theorem LevelRule.climbs (rule : LevelRule) (g : Layout) : rule.plan.Climbs g := by
  cases rule with
  | linear width => exact Plan.climbs_linearBy g width
  | log first base => exact Plan.climbs_logBy g first base

end LogBuckets
