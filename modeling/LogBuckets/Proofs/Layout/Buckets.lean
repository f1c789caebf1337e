import LogBuckets.Layout.Buckets
import LogBuckets.Proofs.Binary
import Mathlib.Order.Bounds.Defs

/-!
# `LogBuckets.Proofs.Layout.Buckets`: doubling finds the least number of buckets

The search for the number of buckets doubles a word, and stops doubling
where the word would leave its range. This file says that nothing is lost
in either way. `BucketSearch.Exact` is what a search knows: its end is the
exact power of two, and no smaller number of buckets would do.

* `exact_start`, `Exact.step`: a search begins with this and every step
  keeps it;
* `Exact.after`: so a run of steps keeps it, and goes one bucket further
  with every step until it is over;
* `Exact.isLeast_total`: a search that is over has found the least number,
  also when it was the room that ran out;
* `bucketsNeeded_isLeast`: the two together, for the search that a layout
  is made with.
-/

set_option autoImplicit false

namespace LogBuckets

namespace BucketSearch

/-- What a search knows about the buckets in hand, when the first of them
ends at `2 ^ (first + 1)`. -/
structure Exact (first : Nat) (highest : Int64) (s : BucketSearch) : Prop where
  one_le_count : 1 ≤ s.count
  /-- The end is a power of two, not cut off by the end of the words. -/
  reach_eq : s.reach.toInt = (2 ^ (first + s.count) : Nat)
  /-- Fewer buckets do not reach past `highest`. -/
  fewer_le : ∀ n, 1 ≤ n → n < s.count → ((2 ^ (first + n) : Nat) : Int) ≤ highest.toInt

variable {first : Nat} {highest : Int64} {s s' : BucketSearch}

/-! ### One step -/

/-- An end is a word, so it is below `2 ^ 63`. -/
theorem Exact.add_count_le (hs : s.Exact first highest) : first + s.count ≤ 62 := by
  have hword := s.reach.toInt_lt
  rw [hs.reach_eq] at hword
  have hpow : 2 ^ (first + s.count) < 2 ^ 63 := by omega
  have := (Nat.pow_lt_pow_iff_right (by decide)).1 hpow
  omega

/-- What a step says: buckets were missing, and their end had room. -/
theorem step?_eq_some (hstep : s.step? highest = some s') :
    s.reach.toInt ≤ highest.toInt ∧ s.reach.toInt < 2 ^ 62 ∧
      s' = { count := s.count + 1, reach := Word.shiftUp s.reach 1 } := by
  have hhalf : (Int64.maxValue / 2).toInt = 2 ^ 62 - 1 := by decide
  unfold step? at hstep
  split at hstep
  · simp at hstep
  · split at hstep
    · simp at hstep
    · rename_i hmissing hroom
      rw [Int64.lt_iff_toInt_lt] at hmissing hroom
      refine ⟨by omega, by omega, ?_⟩
      simpa using hstep.symm

/-- A search is over when its buckets reach past `highest`, or when they
end at half of the words. -/
theorem step?_eq_none_iff : s.step? highest = none ↔
    highest.toInt < s.reach.toInt ∨ 2 ^ 62 ≤ s.reach.toInt := by
  have hhalf : (Int64.maxValue / 2).toInt = 2 ^ 62 - 1 := by decide
  unfold step?
  simp only [Int64.lt_iff_toInt_lt, hhalf]
  split
  · simp [*]
  · split
    · simp only [true_iff]
      omega
    · simp only [reduceCtorEq, false_iff]
      omega

/-- A step keeps what a search knows. The guard leaves room for the
doubled end, so no bit of it is dropped. -/
theorem Exact.step (hs : s.Exact first highest) (hstep : s.step? highest = some s') :
    s'.Exact first highest := by
  obtain ⟨hmissing, hroom, rfl⟩ := step?_eq_some hstep
  have hreach := hs.reach_eq
  have hnonneg : 0 ≤ s.reach.toInt := by
    rw [hreach]
    exact Int.natCast_nonneg _
  -- The end is below `2 ^ 62`, so its double is a word.
  have hdouble : (Word.shiftUp s.reach 1).toInt = s.reach.toInt * 2 ^ 1 :=
    Word.toInt_shiftUp s.reach (by decide) (by omega) (by omega)
  refine ⟨by simp, ?_, ?_⟩
  · show (Word.shiftUp s.reach 1).toInt = (2 ^ (first + (s.count + 1)) : Nat)
    rw [hdouble, hreach, ← Nat.add_assoc, Nat.pow_succ]
    simp
  · intro n hn hlt
    change n < s.count + 1 at hlt
    -- The buckets in hand are the only new case, and they were not enough.
    rcases Nat.lt_or_eq_of_le (Nat.lt_succ_iff.1 hlt) with hless | rfl
    · exact hs.fewer_le n hn hless
    · rw [← hreach]
      exact hmissing

/-- The first bucket ends at a word, because the magnitudes are at most 61. -/
theorem exact_start {unit half : Nat} (highest : Int64) (hmagnitude : unit + half ≤ 61) :
    (start unit half).Exact (unit + half) highest where
  one_le_count := Nat.le_refl 1
  reach_eq := by
    have hcount : 2 ^ (half + 1) ≤ 2 ^ 62 := Nat.pow_le_pow_right (by decide) (by omega)
    have hend : 2 ^ (half + 1) * 2 ^ unit ≤ 2 ^ 62 := by
      rw [← Nat.pow_add]
      exact Nat.pow_le_pow_right (by decide) (by omega)
    have hslots : (Int64.ofNat (1 <<< (half + 1))).toInt = (2 ^ (half + 1) : Nat) := by
      rw [Nat.one_shiftLeft]
      exact Int64.toInt_ofNat_of_lt (by omega)
    have hproduct : ((2 ^ (half + 1) : Nat) : Int) * 2 ^ unit
        = (2 ^ (half + 1) * 2 ^ unit : Nat) := by simp
    show (Word.shiftUp (Int64.ofNat (1 <<< (half + 1))) unit).toInt = _
    rw [Word.toInt_shiftUp _ (by omega) (by rw [hslots, hproduct]; omega)
      (by rw [hslots, hproduct]; omega), hslots, hproduct, ← Nat.pow_add]
    congr 2
    simp [start]
    omega
  fewer_le n hn hlt := by
    change n < 1 at hlt
    omega

/-! ### A run of steps -/

/-- A run keeps what a search knows, and takes every step that there is. -/
theorem Exact.after (hs : s.Exact first highest) (steps : Nat) :
    (s.after highest steps).Exact first highest ∧
      ((s.after highest steps).step? highest = none ∨
        (s.after highest steps).count = s.count + steps) := by
  induction steps generalizing s with
  | zero => exact ⟨hs, Or.inr rfl⟩
  | succ steps ih =>
      unfold BucketSearch.after
      -- The run stops here, or takes a step and goes on with one step less.
      cases hstep : s.step? highest with
      | none => exact ⟨hs, Or.inl hstep⟩
      | some s' =>
          obtain ⟨hexact, hover⟩ := ih (hs.step hstep)
          obtain ⟨-, -, rfl⟩ := step?_eq_some hstep
          refine ⟨hexact, ?_⟩
          rcases hover with hnone | hcount
          · exact Or.inl hnone
          · right
            rw [hcount]
            show s.count + 1 + steps = s.count + (steps + 1)
            omega

/-- Words have no room for 62 doublings of an end, so by then the search is
over. -/
theorem Exact.step?_after_eq_none (hs : s.Exact first highest) :
    (s.after highest 62).step? highest = none := by
  obtain ⟨hexact, hnone | hcount⟩ := hs.after 62
  · exact hnone
  · have hroom := hexact.add_count_le
    have hone := hs.one_le_count
    omega

/-- A search that is over has found the least number of buckets. Either its
own are the first that reach past `highest`, or they end at `2 ^ 62` and one
more reaches past every word. -/
theorem Exact.isLeast_total (hs : s.Exact first highest) (hover : s.step? highest = none) :
    IsLeast { n | 1 ≤ n ∧ highest.toInt < (2 ^ (first + n) : Nat) } (s.total highest) := by
  have hreach := hs.reach_eq
  have hone := hs.one_le_count
  unfold total
  simp only [Int64.lt_iff_toInt_lt]
  split
  · rename_i hpast
    refine ⟨⟨hone, by omega⟩, ?_⟩
    rintro n ⟨hn, hlt⟩
    by_contra hless
    have := hs.fewer_le n hn (by omega)
    omega
  · rename_i hshort
    -- The search ended for want of room, so one more bucket ends at `2 ^ 63`.
    have hhalf : 2 ^ 62 ≤ s.reach.toInt := by
      rcases step?_eq_none_iff.1 hover with hpast | hhalf
      · exact absurd hpast hshort
      · exact hhalf
    have hnext : 2 ^ (first + (s.count + 1)) = 2 * 2 ^ (first + s.count) := by
      rw [← Nat.add_assoc, Nat.pow_succ, Nat.mul_comm]
    refine ⟨⟨by omega, ?_⟩, ?_⟩
    · have hword := highest.toInt_lt
      omega
    · rintro n ⟨hn, hlt⟩
      by_contra hless
      -- Fewer buckets do not reach past the highest value, and neither do those in hand.
      rcases Nat.lt_or_ge n s.count with hfewer | hsame
      · have := hs.fewer_le n hn hfewer
        omega
      · have hcount : n = s.count := by omega
        rw [hcount] at hlt
        omega

end BucketSearch

/-- The number of buckets is the least, from 1 on, that reaches past the
highest value. -/
theorem bucketsNeeded_isLeast {unit half : Nat} (highest : Int64)
    (hmagnitude : unit + half ≤ 61) :
    IsLeast { n | 1 ≤ n ∧ highest.toInt < (2 ^ (unit + half + n) : Nat) }
      (bucketsNeeded unit half highest) := by
  have hstart := BucketSearch.exact_start highest hmagnitude
  exact (hstart.after 62).1.isLeast_total hstart.step?_after_eq_none

end LogBuckets
