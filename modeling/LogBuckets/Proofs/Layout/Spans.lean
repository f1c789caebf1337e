import LogBuckets.Proofs.Layout.Slots

/-!
# `LogBuckets.Proofs.Layout.Spans`: what a slot spans

A word that has a slot leads to the floor, the width, the end and the
ceiling of that slot. On the grid these are `start i`, `width i`,
`start (i + 1)` and the number before it. Only the end can leave the
words: the last slot of a layout that covers all words ends at `2 ^ 63`,
and `Layout.slotEnd` then stops one before that.

* `toInt_slotWidth`, `toInt_slotEnd`, `toInt_slotCeiling`: the three in
  integers;
* `valueAt_zero`, `valueAt_ne_maxValue`: the least values of slots begin
  at 0, and the greatest word is not one of them;
* `le_number_iff`: how slot numbers and where slots begin compare;
* `slotFloor_lt_valueAt_iff`: how the floor of a value and the least value of
  a slot do, up to the place past the last slot. That place may not be a word
  either, and its value is then the least word and not the greatest;
* `slot_delimited`: the ceiling is the greatest value of a slot and the end
  the least value above it that is not in the slot, wherever a slot ends
  inside the words. Both are off by one where it does not, because the end
  stops at the greatest word and the ceiling is taken to be the word before.
-/

set_option autoImplicit false

namespace LogBuckets.Layout

/-- A layout that is made, with what can be checked of it. -/
theorem exists_make_ok {lowest highest : Int64} {figures : Nat} {P : Layout → Prop}
    [DecidablePred P]
    (h : (make lowest highest figures).toOption.any (fun g => decide (P g)) = true) :
    ∃ g, make lowest highest figures = .ok g ∧ P g := by
  cases hmake : make lowest highest figures with
  | error e =>
      rw [hmake] at h
      exact absurd h Bool.false_ne_true
  | ok g =>
      rw [hmake] at h
      exact ⟨g, rfl, of_decide_eq_true h⟩

/-! ### Widths and ends -/

/-- One figure already needs `2 ^ 4` slots in a bucket. -/
theorem four_le_halfMagnitude (g : Layout) : 4 ≤ g.halfMagnitude := by
  have key : ∀ figures ≤ 5, 1 ≤ figures → 4 ≤ halfMagnitudeOf figures := by decide
  rw [g.halfMagnitude_eq]
  exact key g.figures g.figures_le_five g.one_le_figures

/-- The width of the slot of a value is that of the exact grid. -/
theorem toInt_slotWidth {g : Layout} {v : Int64} {i : Nat} (h : g.slot? v = some i) :
    (g.slotWidth v).toInt = g.width i := by
  have hshift := g.bucketOf_add_le v
  have hhalf := g.four_le_halfMagnitude
  have hpow : (2 : Int) ^ (g.unitMagnitude + g.bucketOf v) ≤ 2 ^ 62 := by
    have hnat : 2 ^ (g.unitMagnitude + g.bucketOf v) ≤ 2 ^ 62 :=
      Nat.pow_le_pow_right (by decide) (by omega)
    exact_mod_cast hnat
  have hpos : (0 : Int) < 2 ^ (g.unitMagnitude + g.bucketOf v) := Int.pow_pos (by decide)
  have hone : (1 : Int64).toInt = 1 := rfl
  -- The width is a power of two below the end of the words, so the shift drops no digit.
  rw [slotWidth, Word.toInt_shiftUp 1 (by omega) (by rw [hone]; omega) (by rw [hone]; omega),
    hone, width, bucketOf_of_slot? h, Nat.add_comm]
  push_cast
  omega

/-- A slot ends where the next one begins, or at the greatest word. -/
theorem toInt_slotEnd {g : Layout} {v : Int64} {i : Nat} (h : g.slot? v = some i) :
    (g.slotEnd v).toInt = min (2 ^ 63 - 1) (g.start (i + 1)) := by
  rw [slotEnd, Word.toInt_addCapped, toInt_slotFloor h, toInt_slotWidth h, g.start_succ i]
  push_cast
  omega

/-- The greatest value of a slot is one below the next slot. Where that one would begin
at the end of the words, it is two below. -/
theorem toInt_slotCeiling {g : Layout} {v : Int64} {i : Nat} (h : g.slot? v = some i) :
    (g.slotCeiling v).toInt = min (2 ^ 63 - 1) (g.start (i + 1)) - 1 := by
  have hend := toInt_slotEnd h
  have hwidth := g.width_pos i
  have hnext := g.start_succ i
  rw [slotCeiling, Int64.toInt_sub, hend, Int64.toInt_one]
  exact Int.bmod_eq_of_le (by omega) (by omega)

/-! ### The least and the greatest value -/

/-- The first slot begins at 0. -/
@[simp] theorem valueAt_zero (g : Layout) : g.valueAt 0 = 0 := by
  rw [← Int64.toInt_inj, toInt_valueAt (by rw [start_zero]; decide), start_zero]
  rfl

/-- So 0 is in the first slot. -/
theorem slot?_zero (g : Layout) : g.slot? 0 = some 0 := by
  rw [← valueAt_zero g]
  exact slot?_valueAt_self g.slotCount_pos

/-- The greatest word is odd, so a slot could begin there only in a bucket of
slots of width 1, and those all begin much lower. -/
theorem valueAt_ne_maxValue {g : Layout} {i : Nat} (h : i < g.slotCount) :
    g.valueAt i ≠ Int64.maxValue := by
  intro heq
  have hstart : g.start i = 2 ^ 63 - 1 := by
    have hvalue := toInt_valueAt (start_lt_of_lt_slotCount h)
    rw [heq] at hvalue
    have hmax : Int64.maxValue.toInt = 2 ^ 63 - 1 := by decide
    omega
  have hoffset := (g.isPlace_bucketAt_offsetAt i).1
  have hhalf := g.halfCount_le
  rw [firstCount_eq] at hoffset
  rw [start, width] at hstart
  -- With width 1 the offset would be too large, and any other width is even.
  cases hshift : g.bucketAt i + g.unitMagnitude with
  | zero =>
      rw [hshift] at hstart
      omega
  | succ k =>
      rw [hshift, Nat.pow_succ, ← Nat.mul_assoc] at hstart
      omega

/-! ### The order of slots -/

/-- The slot of a number is at or past slot `i` exactly if the number is at or
past the beginning of slot `i`. -/
theorem le_number_iff (g : Layout) (n i : Nat) : i ≤ g.number n ↔ g.start i ≤ n := by
  constructor
  · intro h
    exact Nat.le_trans (g.start_strictMono.monotone h) (g.start_number_le n)
  · intro h
    have hlt := Nat.lt_of_le_of_lt h (g.lt_start_number_succ n)
    exact Nat.lt_succ_iff.1 (g.start_strictMono.lt_iff_lt.1 hlt)

/-- A larger number is not in a lower slot. -/
theorem number_mono (g : Layout) : Monotone g.number := by
  intro a b hab
  rw [le_number_iff]
  exact Nat.le_trans (g.start_number_le a) hab

/-- The slot of 0 is number 0. -/
@[simp] theorem number_zero (g : Layout) : g.number 0 = 0 := by
  have hnext := g.start_succ 0
  have hwidth := g.width_pos 0
  rw [number_eq_iff, start_zero]
  omega

/-- The least values of slots are in the order of the slots. -/
theorem valueAt_lt_valueAt {g : Layout} {i j : Nat} (hij : i < j) (hj : j < g.slotCount) :
    g.valueAt i < g.valueAt j := by
  rw [Int64.lt_iff_toInt_lt, toInt_valueAt (start_lt_of_lt_slotCount hj),
    toInt_valueAt (start_lt_of_lt_slotCount (Nat.lt_trans hij hj)), Int.ofNat_lt]
  exact g.start_strictMono hij

/-- The bucket past the last one begins where the layout ends. If that is where the
words end, its least value is cut down to the least word. -/
theorem toInt_valueAt_slotCount {g : Layout} (hbound : g.bound = 2 ^ 63) :
    (g.valueAt g.slotCount).toInt = -2 ^ 63 := by
  have hmagnitudes := g.magnitudes_le
  have hhalf := g.four_le_halfMagnitude
  have hfew := g.halfCount_le
  have hoffset := (g.isPlace_bucketAt_offsetAt g.slotCount).1
  have hbucket : g.bucketAt g.slotCount = g.bucketCount := by
    rw [bucketAt, slotCount, Nat.mul_div_cancel _ g.halfCount_pos, Nat.add_sub_cancel]
  have hstart : g.offsetAt g.slotCount * 2 ^ (g.bucketAt g.slotCount + g.unitMagnitude)
      = 2 ^ 63 :=
    g.start_slotCount.trans hbound
  rw [firstCount_eq] at hoffset
  have hword : (Int64.ofNat (g.offsetAt g.slotCount)).toInt = g.offsetAt g.slotCount :=
    Int64.toInt_ofNat_of_lt (by omega)
  have hexact : (g.offsetAt g.slotCount : Int) * 2 ^ (g.bucketAt g.slotCount + g.unitMagnitude)
      = 2 ^ 63 := by exact_mod_cast hstart
  -- The shift is below 63, so it is carried out, and `2 ^ 63` wraps.
  rw [valueAt_eq, if_neg (by omega), Word.toInt_shiftUp_bmod _ (by omega), hword, hexact]
  decide

/-- A slot begins above all values of the slot of `v` exactly if it comes after that
one. Only the place where the words end is not above any. -/
theorem slotFloor_lt_valueAt_iff {g : Layout} {v : Int64} (hv : 0 ≤ v.toInt) {i : Nat}
    (hi : i ≤ g.slotCount) :
    g.slotFloor v < g.valueAt i ↔ g.number v.toInt.toNat < i ∧ g.start i < 2 ^ 63 := by
  rw [Int64.lt_iff_toInt_lt, toInt_slotFloor_of_nonneg g hv]
  by_cases hword : g.start i < 2 ^ 63
  · rw [toInt_valueAt hword, Int.ofNat_lt, g.start_strictMono.lt_iff_lt]
    exact ⟨fun hlt => ⟨hlt, hword⟩, And.left⟩
  · -- Only the place after the last slot can be where the words end.
    have hlast : i = g.slotCount := by
      by_contra hne
      exact hword (start_lt_of_lt_slotCount (by omega))
    have hbound : g.bound = 2 ^ 63 := by
      have hle := g.bound_le
      rw [hlast, start_slotCount] at hword
      omega
    rw [hlast, toInt_valueAt_slotCount hbound, ← hlast]
    exact ⟨fun hlt => by omega, fun hboth => absurd hboth.2 hword⟩

/-! ### The last value of a slot and the first one past it -/

/-- A slot ends where the next one begins, and that is a word unless the slot
is the last one of a layout that covers all words. -/
theorem start_succ_lt_iff {g : Layout} {i : Nat} (hi : i < g.slotCount) :
    g.start (i + 1) < 2 ^ 63 ↔ i + 1 < g.slotCount ∨ g.bound < 2 ^ 63 := by
  have hend := g.start_slotCount
  by_cases hlast : i + 1 = g.slotCount
  · rw [hlast, hend]
    omega
  · have hlt : i + 1 < g.slotCount := by omega
    exact ⟨fun _ => Or.inl hlt, fun _ => start_lt_of_lt_slotCount hlt⟩

/-- From 0 on, words share a slot exactly if their numbers do. -/
theorem sameSlot_iff_number_eq (g : Layout) {v w : Int64} (hv : 0 ≤ v.toInt)
    (hw : 0 ≤ w.toInt) :
    g.sameSlot v w = true ↔ g.number v.toInt.toNat = g.number w.toInt.toNat := by
  rw [sameSlot, beq_iff_eq, ← Int64.toInt_inj, toInt_slotFloor_of_nonneg g hv,
    toInt_slotFloor_of_nonneg g hw, Int.natCast_inj, g.start_strictMono.injective.eq_iff]

/-- Going up from a value, its slot is left where the next slot begins. -/
theorem sameSlot_iff_lt {g : Layout} {v w : Int64} {i : Nat} (h : g.slot? v = some i)
    (hle : v ≤ w) : g.sameSlot v w = true ↔ w.toInt < g.start (i + 1) := by
  have hv := nonneg_of_slot? h
  have hlow := ((g.slot?_eq_some_iff v i).1 h).2.1
  rw [Int64.le_iff_toInt_le] at hle
  rw [sameSlot_iff_number_eq g hv (by omega), number_of_slot? h, eq_comm, number_eq_iff]
  omega

/-- Inside the words, a slot's ceiling is its last value. -/
theorem slotCeiling_isGreatest {g : Layout} {v : Int64} {i : Nat} (h : g.slot? v = some i)
    (hend : g.start (i + 1) < 2 ^ 63) :
    g.slot? (g.slotCeiling v) = some i ∧ ∀ w, g.slot? w = some i → w ≤ g.slotCeiling v := by
  have hceiling := toInt_slotCeiling h
  have hnext := g.start_succ i
  have hwidth := g.width_pos i
  constructor
  · rw [slot?_eq_some_iff, hceiling]
    exact ⟨slot?_lt_slotCount h, by omega, by omega⟩
  · intro w hw
    have := ((g.slot?_eq_some_iff w i).1 hw).2.2
    rw [Int64.le_iff_toInt_le, hceiling]
    omega

/-- The end of a slot and its ceiling, for a value `v` of slot number `i`.

1. If the slot ends inside the words, its ceiling is the greatest value that it
   holds, and its end is the least value above `v` that does not share the slot
   of `v`.
2. The last slot of a layout that covers all words has no end inside them, and
   every value from `v` on shares it. Its end is answered with the greatest
   word, which is one of its values, and its ceiling with the word before: a
   value that is not below any other value of the slot but the greatest word. -/
theorem slot_delimited (g : Layout) :
    (∀ v i, g.slot? v = some i → (i + 1 < g.slotCount ∨ g.bound < 2 ^ 63) →
      v ≤ g.slotCeiling v ∧ g.slot? (g.slotCeiling v) = some i ∧
      (∀ w, g.slot? w = some i → w ≤ g.slotCeiling v) ∧
      v < g.slotEnd v ∧ g.slot? (g.slotEnd v) ≠ some i ∧
      g.sameSlot v (g.slotEnd v) = false ∧
      ∀ w, v ≤ w → w < g.slotEnd v → g.sameSlot v w = true ∧ g.slot? w = some i) ∧
    ∀ v i, g.slot? v = some i → i + 1 = g.slotCount → g.bound = 2 ^ 63 →
      (∀ w, v ≤ w → g.sameSlot v w = true ∧ g.slot? w = some i) ∧
      g.slotEnd v = Int64.maxValue ∧ g.slotCeiling v = Int64.maxValue - 1 ∧
      (v ≤ g.slotCeiling v ↔ v ≠ Int64.maxValue) := by
  have hmax : Int64.maxValue.toInt = 2 ^ 63 - 1 := by decide
  have hmax' : (Int64.maxValue - 1).toInt = 2 ^ 63 - 2 := by decide
  constructor
  · intro v i h hinside
    -- The slot ends inside the words, so its end is a word and not cut.
    rw [← start_succ_lt_iff (slot?_lt_slotCount h)] at hinside
    obtain ⟨hlast, hgreatest⟩ := slotCeiling_isGreatest h hinside
    obtain ⟨hi, hlow, hhigh⟩ := (g.slot?_eq_some_iff v i).1 h
    have hend : (g.slotEnd v).toInt = g.start (i + 1) := by
      rw [toInt_slotEnd h]
      omega
    have hlt : v < g.slotEnd v := by
      rw [Int64.lt_iff_toInt_lt, hend]
      exact hhigh
    have hpast : ¬ g.sameSlot v (g.slotEnd v) = true := by
      rw [sameSlot_iff_lt h (Int64.le_of_lt hlt), hend]
      exact Int.lt_irrefl _
    refine ⟨hgreatest v h, hlast, hgreatest, hlt, ?_, Bool.eq_false_iff.2 hpast, ?_⟩
    · intro heq
      have := ((g.slot?_eq_some_iff _ i).1 heq).2.2
      omega
    · intro w hle hw
      rw [Int64.lt_iff_toInt_lt, hend] at hw
      refine ⟨(sameSlot_iff_lt h hle).2 hw, ?_⟩
      rw [Int64.le_iff_toInt_le] at hle
      rw [slot?_eq_some_iff]
      exact ⟨hi, by omega, hw⟩
  · intro v i h hi hbound
    -- The slot ends where the words do, so its end is cut at the greatest word.
    have hstart : g.start (i + 1) = 2 ^ 63 := by rw [hi, start_slotCount, hbound]
    obtain ⟨hlt, hlow, -⟩ := (g.slot?_eq_some_iff v i).1 h
    have hceiling : (g.slotCeiling v).toInt = 2 ^ 63 - 2 := by
      rw [toInt_slotCeiling h, hstart]
      decide
    refine ⟨?_, ?_, ?_, ?_⟩
    · intro w hle
      have hword := w.toInt_lt
      refine ⟨(sameSlot_iff_lt h hle).2 (by rw [hstart]; exact hword), ?_⟩
      rw [Int64.le_iff_toInt_le] at hle
      rw [slot?_eq_some_iff, hstart]
      exact ⟨hlt, by omega, hword⟩
    · rw [← Int64.toInt_inj, toInt_slotEnd h, hstart, hmax]
      decide
    · rw [← Int64.toInt_inj, hceiling, hmax']
    · have hword := v.toInt_lt
      rw [Int64.le_iff_toInt_le, hceiling, ne_eq, ← Int64.toInt_inj, hmax]
      omega

/-- In a layout that reaches up to the greatest word, that word is in the last
slot, above what is answered as the greatest value of that slot and equal to
what is answered as the least value past it. -/
theorem slotCeiling_lt_greatest_word :
    ∃ layout, make 1 Int64.maxValue 1 = .ok layout ∧
      layout.slot? Int64.maxValue = some 959 ∧
      layout.slotCeiling Int64.maxValue < Int64.maxValue ∧
      layout.slotEnd Int64.maxValue = Int64.maxValue ∧
      layout.sameSlot Int64.maxValue (layout.slotEnd Int64.maxValue) = true :=
  exists_make_ok (by decide)

end LogBuckets.Layout
