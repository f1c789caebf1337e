import LogBuckets.Proofs.Histogram.Counts
import LogBuckets.Proofs.Layout.Spans
import Mathlib.Algebra.BigOperators.Group.Finset.Piecewise

/-!
# `LogBuckets.Proofs.Histogram.Ends`: the ends and the counts

A histogram keeps its least and its greatest value apart from the counts.
Seen through the counts they should be the ends of the lowest and of the
highest slot that holds anything. This file says when they are.

* `Holds.countAt_pos_iff`: a slot holds counts if it holds a sample;
* `Holds.slot?_least`, `Holds.slot?_greatest`: the kept values are in the
  lowest and in the highest such slot;
* `minimum_agrees`: the minimum is the least value of the lowest slot, but
  for one history: nothing but the greatest word was recorded. That word
  also stands for having no least value, and `minimum` answers it as it is;
* `maximum_agrees`: the maximum is the greatest value of the highest slot,
  but for one history: nothing but 0 was recorded, and the first slot is
  wider than one value. There 0 stands for having no greatest value.
-/

set_option autoImplicit false

namespace LogBuckets.Histogram

/-! ### One record -/

/-- Recording a value once, on its own, leaves it as the only sample. -/
theorem holds_after_record (layout : Layout) (offset : Nat) {v : Int64} {i : Nat}
    (hslot : layout.slot? v = some i) :
    ((empty layout offset).after [.record v 1]).Holds [(v, 1)] :=
  holds_of_record layout offset hslot Nat.one_pos

/-- A value recorded once, on its own, is the only one in its slot. -/
theorem countAt_after_record (layout : Layout) (offset : Nat) {v : Int64} {i : Nat}
    (hslot : layout.slot? v = some i) (j : Nat) :
    ((empty layout offset).after [.record v 1]).countAt j = if j = i then 1 else 0 :=
  countAt_of_record layout offset hslot Nat.one_pos j

/-- The total of a single value that was recorded once is 1. -/
theorem total_after_record (layout : Layout) (offset : Nat) {v : Int64} {i : Nat}
    (hslot : layout.slot? v = some i) :
    ((empty layout offset).after [.record v 1]).total = 1 := by
  rw [(holds_after_record layout offset hslot).total_eq]
  rfl

/-- A single value, recorded once, is counted among the slots that hold it. -/
theorem sum_countAt_after_record (layout : Layout) (offset : Nat) {v : Int64} {i : Nat}
    (hslot : layout.slot? v = some i) (slots : Finset Nat) :
    ∑ j ∈ slots, ((empty layout offset).after [.record v 1]).countAt j
      = if i ∈ slots then 1 else 0 := by
  simp only [countAt_after_record layout offset hslot]
  exact Finset.sum_ite_eq' slots i fun _ => 1

namespace Holds

variable {h : Histogram} {samples : List (Int64 × Nat)}

/-! ### The slots that hold counts -/

/-- A slot holds counts exactly if some sample is in it. Cutting at the limit
leaves no count at 0. -/
theorem countAt_pos_iff (hs : h.Holds samples) (i : Nat) :
    0 < h.countAt i ↔ ∃ v ∈ samples.map Prod.fst, h.layout.slot? v = some i := by
  have hlimit : 0 < Tally.limit := by decide
  have hweight : 0 < h.countAt i ↔ 0 < (spread samples).countP (h.layout.inSlot i) := by
    rw [hs.countAt_eq, countP_spread]
    omega
  rw [hweight, List.countP_pos_iff]
  constructor
  · rintro ⟨v, hv, hin⟩
    exact ⟨v, (mem_spread hs.positive v).1 hv, (h.layout.inSlot_eq_true_iff i v).1 hin⟩
  · rintro ⟨v, hv, hslot⟩
    exact ⟨v, (mem_spread hs.positive v).2 hv, (h.layout.inSlot_eq_true_iff i v).2 hslot⟩

/-- The slot of a sample holds counts. -/
theorem exists_slot?_of_mem (hs : h.Holds samples) {v : Int64}
    (hv : v ∈ samples.map Prod.fst) : ∃ i, h.layout.slot? v = some i ∧ 0 < h.countAt i := by
  obtain ⟨s, hmem, rfl⟩ := List.mem_map.1 hv
  obtain ⟨i, hslot⟩ := Option.isSome_iff_exists.1 (hs.slotted s hmem)
  exact ⟨i, hslot, (hs.countAt_pos_iff i).2 ⟨s.1, hv, hslot⟩⟩

/-- Where no slot holds counts, nothing was recorded. -/
theorem values_eq_nil (hs : h.Holds samples) (hnone : ∀ i, h.countAt i = 0) :
    samples.map Prod.fst = [] := by
  rw [List.eq_nil_iff_forall_not_mem]
  intro v hv
  obtain ⟨i, -, hpos⟩ := hs.exists_slot?_of_mem hv
  have := hnone i
  omega

/-! ### The kept values and their slots -/

/-- Away from the first slot the least value that is kept is the least of all
samples, and it is in the lowest slot that holds counts. -/
theorem slot?_least (hs : h.Holds samples) {i : Nat} (hpos : 0 < h.countAt i)
    (hfirst : ∀ j < i, h.countAt j = 0) (hi : 0 < i) :
    h.layout.slot? h.least = some i ∧ h.least ∈ samples.map Prod.fst ∧
      ∀ v ∈ samples.map Prod.fst, h.least ≤ v := by
  obtain ⟨w, hw, hwslot⟩ := (hs.countAt_pos_iff i).1 hpos
  -- The value 0 is in the first slot, so it is not among the samples and
  -- leaving it out leaves all of them.
  have hzero : ∀ v ∈ samples.map Prod.fst, v ≠ 0 := by
    rintro v hv rfl
    have hcount := (hs.countAt_pos_iff 0).2 ⟨0, hv, h.layout.slot?_zero⟩
    have := hfirst 0 hi
    omega
  have hall : (samples.map Prod.fst).filter (· != 0) = samples.map Prod.fst := by
    rw [List.filter_eq_self]
    intro v hv
    simpa using hzero v hv
  rcases hs.least_isUtmost with ⟨hnil, -⟩ | ⟨hmem, hleast⟩
  · rw [hall] at hnil
    rw [hnil] at hw
    exact absurd hw List.not_mem_nil
  · rw [hall] at hmem hleast
    obtain ⟨k, hk, hkpos⟩ := hs.exists_slot?_of_mem hmem
    -- The least sample is not above the one in slot `i`, and no slot before that one holds
    -- any.
    have hle : k ≤ i := Layout.slot?_mono hk hwslot (hleast w hw)
    have hge : i ≤ k := by
      by_contra hlt
      have := hfirst k (by omega)
      omega
    have hki : k = i := by omega
    subst hki
    exact ⟨hk, hmem, hleast⟩

/-- The greatest value that is kept is in the highest slot that holds counts. -/
theorem slot?_greatest (hs : h.Holds samples) {i : Nat} (hpos : 0 < h.countAt i)
    (hlast : ∀ j, i < j → h.countAt j = 0) :
    h.layout.slot? h.greatest = some i ∧ h.greatest ∈ samples.map Prod.fst ∧
      ∀ v ∈ samples.map Prod.fst, v ≤ h.greatest := by
  obtain ⟨w, hw, hwslot⟩ := (hs.countAt_pos_iff i).1 hpos
  rcases hs.greatest_isUtmost with ⟨hnil, -⟩ | ⟨hmem, hgreatest⟩
  · rw [hnil] at hw
    exact absurd hw List.not_mem_nil
  · obtain ⟨k, hk, hkpos⟩ := hs.exists_slot?_of_mem hmem
    -- The greatest sample is not below the one in slot `i`, and no slot after that one
    -- holds any.
    have hge : i ≤ k := Layout.slot?_mono hwslot hk (hgreatest w hw)
    have hle : k ≤ i := by
      by_contra hlt
      have := hlast k (by omega)
      omega
    have hki : k = i := by omega
    subst hki
    exact ⟨hk, hmem, hgreatest⟩

end Holds

/-! ### The minimum -/

/-- The minimum of what the samples say, when `i` is the lowest slot that
holds counts: the least value of that slot, unless the kept value is the one
that stands for none. -/
theorem minimum_of_first {h : Histogram} {samples : List (Int64 × Nat)}
    (hs : h.Holds samples) {i : Nat} (hpos : 0 < h.countAt i)
    (hfirst : ∀ j < i, h.countAt j = 0) :
    h.minimum = if ∃ v ∈ samples.map Prod.fst, v ≠ Int64.maxValue then h.layout.valueAt i
      else Int64.maxValue := by
  cases i with
  | zero =>
      obtain ⟨v, hv, hslot⟩ := (hs.countAt_pos_iff 0).1 hpos
      have hne : v ≠ Int64.maxValue := by
        -- The first slot ends long before the greatest word.
        rintro rfl
        have hend := ((h.layout.slot?_eq_some_iff _ _).1 hslot).2.2
        have hmax : Int64.maxValue.toInt = 2 ^ 63 - 1 := by decide
        have hstart := h.layout.start_succ 0
        have hwidth : h.layout.width 0 ≤ 2 ^ 61 := by
          have hmagnitude := h.layout.magnitude_le
          have hbucket : h.layout.bucketAt 0 = 0 := by rw [Layout.bucketAt, Nat.zero_div]
          rw [Layout.width, hbucket]
          exact Nat.pow_le_pow_right (by decide) (by omega)
        rw [h.layout.start_zero] at hstart
        omega
      -- With counts in the first slot the answer is 0, which is where it begins.
      rw [minimum, if_pos hpos, if_pos ⟨v, hv, hne⟩, Layout.valueAt_zero]
  | succ i =>
      obtain ⟨hslot, hmem, hleast⟩ := hs.slot?_least hpos hfirst i.succ_pos
      have hnone : ¬ 0 < h.countAt 0 := by
        have := hfirst 0 i.succ_pos
        omega
      rw [minimum, if_neg hnone]
      by_cases hmax : h.least = Int64.maxValue
      · -- The least value is the greatest word, so every value is.
        have hall : ¬ ∃ v ∈ samples.map Prod.fst, v ≠ Int64.maxValue := by
          rintro ⟨v, hv, hne⟩
          refine hne (Int64.le_antisymm (Int64.le_maxValue v) ?_)
          rw [← hmax]
          exact hleast v hv
        rw [if_pos hmax, if_neg hall]
      · rw [if_neg hmax, if_pos ⟨h.least, hmem, hmax⟩, Layout.valueAt_of_slot? hslot]

/-- If any slot holds counts, there is a lowest one that does. -/
theorem exists_first_countAt {h : Histogram} {i : Nat} (hpos : 0 < h.countAt i) :
    ∃ k ≤ i, 0 < h.countAt k ∧ ∀ j < k, h.countAt j = 0 := by
  classical
  have hex : ∃ k, 0 < h.countAt k := ⟨i, hpos⟩
  refine ⟨Nat.find hex, Nat.find_min' hex hpos, Nat.find_spec hex, ?_⟩
  intro j hj
  have := Nat.find_min hex hj
  omega

/-- The minimum of a histogram after a history, in terms of its counts and of
the values that were accepted since the last reset:

1. when no slot holds counts, it is the greatest word;
2. when `i` is the lowest slot that holds counts, it is the least value of
   that slot exactly if some accepted value is not the greatest word,
3. and the greatest word otherwise;
4. no accepted value is below it. -/
theorem minimum_agrees (layout : Layout) (offset : Nat) (events : List Event) :
    let h := (empty layout offset).after events
    let values := ((empty layout offset).accepted events).map Prod.fst
    ((∀ i, h.countAt i = 0) → h.minimum = Int64.maxValue) ∧
    (∀ i, 0 < h.countAt i → (∀ j < i, h.countAt j = 0) →
      (h.minimum = layout.valueAt i ↔ ∃ v ∈ values, v ≠ Int64.maxValue) ∧
      ((∀ v ∈ values, v = Int64.maxValue) → h.minimum = Int64.maxValue)) ∧
    ∀ v ∈ values, h.minimum ≤ v := by
  intro h values
  have hs : h.Holds ((empty layout offset).accepted events) :=
    holds_accepted layout offset events
  have hlayout : h.layout = layout := layout_after_empty layout offset events
  refine ⟨?_, ?_, ?_⟩
  · intro hnone
    have hnil := hs.values_eq_nil hnone
    have hleast : h.least = Int64.maxValue := by
      rcases hs.least_isUtmost with ⟨-, heq⟩ | ⟨hmem, -⟩
      · exact heq
      · rw [hnil] at hmem
        exact absurd hmem List.not_mem_nil
    have hzero : ¬ 0 < h.countAt 0 := by
      have := hnone 0
      omega
    rw [minimum, if_neg hzero, if_pos hleast]
  · intro i hpos hfirst
    have hmin := minimum_of_first hs hpos hfirst
    obtain ⟨v, -, hslot⟩ := (hs.countAt_pos_iff i).1 hpos
    have hne := Layout.valueAt_ne_maxValue (Layout.slot?_lt_slotCount hslot)
    rw [hlayout] at hmin hne
    -- The least value of a slot is never the greatest word, so the two answers differ.
    by_cases hex : ∃ v ∈ values, v ≠ Int64.maxValue
    · rw [if_pos hex] at hmin
      refine ⟨⟨fun _ => hex, fun _ => hmin⟩, fun hall => ?_⟩
      obtain ⟨w, hw, hwne⟩ := hex
      exact absurd (hall w hw) hwne
    · rw [if_neg hex] at hmin
      exact ⟨⟨fun heq => absurd (heq.symm.trans hmin) hne, fun hc => absurd hc hex⟩,
        fun _ => hmin⟩
  · intro v hv
    obtain ⟨i, hslot, hpos⟩ := hs.exists_slot?_of_mem hv
    obtain ⟨k, hki, hkpos, hfirst⟩ := exists_first_countAt hpos
    have hmin := minimum_of_first hs hkpos hfirst
    by_cases hex : ∃ v ∈ values, v ≠ Int64.maxValue
    · -- The least value of the lowest slot is not above the start of any other.
      rw [if_pos hex] at hmin
      have hstart := h.layout.start_strictMono.monotone hki
      have hlow := ((h.layout.slot?_eq_some_iff v i).1 hslot).2.1
      have hk : k < h.layout.slotCount :=
        Nat.lt_of_le_of_lt hki (Layout.slot?_lt_slotCount hslot)
      rw [hmin, Int64.le_iff_toInt_le,
        Layout.toInt_valueAt (Layout.start_lt_of_lt_slotCount hk)]
      omega
    · -- Only the greatest word was recorded, and it is the answer.
      have hvmax : v = Int64.maxValue := by
        by_contra hne
        exact hex ⟨v, hv, hne⟩
      rw [hvmax]
      exact Int64.le_maxValue _

/-- In a layout that reaches up to the greatest word, that word on its own is
in the last slot, and the minimum is not the least value of it. -/
theorem minimum_greatest_word_alone :
    ∃ layout, Layout.make 1 Int64.maxValue 1 = .ok layout ∧
      let h := (empty layout 0).after [.record Int64.maxValue 1]
      0 < h.countAt 959 ∧ (∀ j < 959, h.countAt j = 0) ∧
        layout.valueAt 959 = 8935141660703064064 ∧ h.minimum = Int64.maxValue := by
  obtain ⟨layout, hmake, hslot, hvalue⟩ :
      ∃ g, Layout.make 1 Int64.maxValue 1 = .ok g ∧
        g.slot? Int64.maxValue = some 959 ∧ g.valueAt 959 = 8935141660703064064 :=
    Layout.exists_make_ok (by decide)
  have hs := holds_after_record layout 0 hslot
  have hcount := countAt_after_record layout 0 hslot
  have hpos : 0 < ((empty layout 0).after [.record Int64.maxValue 1]).countAt 959 := by
    rw [hcount, if_pos rfl]
    exact Nat.one_pos
  have hfirst : ∀ j < 959,
      ((empty layout 0).after [.record Int64.maxValue 1]).countAt j = 0 := by
    intro j hj
    rw [hcount, if_neg (Nat.ne_of_lt hj)]
  have hmin := minimum_of_first hs hpos hfirst
  -- The only sample is the greatest word.
  rw [if_neg (by simp)] at hmin
  exact ⟨layout, hmake, hpos, hfirst, hvalue, hmin⟩

/-! ### The maximum -/

/-- The maximum of what the samples say, when `i` is the highest slot that
holds counts: the greatest value of that slot, unless the kept value is the
one that stands for none. -/
theorem maximum_of_last {h : Histogram} {samples : List (Int64 × Nat)}
    (hs : h.Holds samples) {i : Nat} (hpos : 0 < h.countAt i)
    (hlast : ∀ j, i < j → h.countAt j = 0) :
    h.maximum = if ∃ v ∈ samples.map Prod.fst, v ≠ 0
      then h.layout.slotCeiling (h.layout.valueAt i) else 0 := by
  obtain ⟨hslot, hmem, hgreatest⟩ := hs.slot?_greatest hpos hlast
  rw [maximum]
  by_cases hzero : h.greatest = 0
  · -- No sample is negative, so with 0 as their greatest all of them are 0.
    have hall : ¬ ∃ v ∈ samples.map Prod.fst, v ≠ 0 := by
      rintro ⟨v, hv, hne⟩
      obtain ⟨k, hk, -⟩ := hs.exists_slot?_of_mem hv
      have hlow : 0 ≤ v := by
        rw [Int64.le_iff_toInt_le, Int64.toInt_zero]
        exact Layout.nonneg_of_slot? hk
      exact hne (Int64.le_antisymm (hzero ▸ hgreatest v hv) hlow)
    rw [if_pos hzero, if_neg hall]
  · have hself := Layout.slot?_valueAt_self (Layout.slot?_lt_slotCount hslot)
    rw [if_neg hzero, if_pos ⟨h.greatest, hmem, hzero⟩]
    exact Layout.slotCeiling_congr hslot hself

/-- The first slot takes the values below `2 ^ unitMagnitude`, so the value 0
has it to itself exactly if the unit magnitude is 0. -/
theorem slotCeiling_valueAt_zero_iff (g : Layout) :
    g.slotCeiling (g.valueAt 0) = 0 ↔ g.unitMagnitude = 0 := by
  have hceiling := Layout.toInt_slotCeiling (Layout.slot?_valueAt_self g.slotCount_pos)
  have hnext := g.start_succ 0
  have hwidth : g.width 0 = 2 ^ g.unitMagnitude := by
    rw [Layout.width, Layout.bucketAt, Nat.zero_div, Nat.zero_sub, Nat.zero_add]
  rw [g.start_zero, hwidth, Nat.zero_add] at hnext
  rw [Nat.zero_add, hnext] at hceiling
  rw [← Int64.toInt_inj, hceiling, Int64.toInt_zero]
  -- A width of 1 leaves 0 alone in the slot, a greater one does not.
  cases hunit : g.unitMagnitude with
  | zero => simp
  | succ k =>
      have hpow := Nat.two_pow_pos k
      rw [Nat.pow_succ]
      omega

/-- The maximum is the greatest value of the highest slot that holds counts,
unless it is kept as 0 and that slot takes greater values too. -/
theorem maximum_eq_slotCeiling_iff {h : Histogram} {samples : List (Int64 × Nat)}
    (hs : h.Holds samples) {i : Nat} (hpos : 0 < h.countAt i)
    (hlast : ∀ j, i < j → h.countAt j = 0) :
    h.maximum = h.layout.slotCeiling (h.layout.valueAt i) ↔
      (∃ v ∈ samples.map Prod.fst, v ≠ 0) ∨ h.layout.unitMagnitude = 0 := by
  have hmax := maximum_of_last hs hpos hlast
  by_cases hex : ∃ v ∈ samples.map Prod.fst, v ≠ 0
  · rw [if_pos hex] at hmax
    exact ⟨fun _ => Or.inl hex, fun _ => hmax⟩
  · -- All samples are 0, so the slot is the first one.
    obtain ⟨v, hv, hslot⟩ := (hs.countAt_pos_iff i).1 hpos
    have hzero : v = 0 := by
      by_contra hne
      exact hex ⟨v, hv, hne⟩
    rw [hzero, Layout.slot?_zero, Option.some.injEq] at hslot
    rw [if_neg hex] at hmax
    rw [hmax, ← hslot, eq_comm, slotCeiling_valueAt_zero_iff]
    exact ⟨Or.inr, fun hor => hor.resolve_left hex⟩

/-- Where something was recorded there is a highest slot that holds counts. -/
theorem exists_last_countAt {h : Histogram} {samples : List (Int64 × Nat)}
    (hs : h.Holds samples) {i : Nat} (hpos : 0 < h.countAt i) :
    ∃ k, 0 < h.countAt k ∧ ∀ j, k < j → h.countAt j = 0 := by
  obtain ⟨w, hw, -⟩ := (hs.countAt_pos_iff i).1 hpos
  rcases hs.greatest_isUtmost with ⟨hnil, -⟩ | ⟨hmem, hgreatest⟩
  · rw [hnil] at hw
    exact absurd hw List.not_mem_nil
  · obtain ⟨k, hk, hkpos⟩ := hs.exists_slot?_of_mem hmem
    refine ⟨k, hkpos, ?_⟩
    -- A slot that holds counts is not after that of the greatest sample.
    intro j hj
    by_contra hne
    obtain ⟨v, hv, hvslot⟩ := (hs.countAt_pos_iff j).1 (Nat.pos_of_ne_zero hne)
    have := Layout.slot?_mono hvslot hk (hgreatest v hv)
    omega

/-- When nothing but 0 was recorded, the greatest value is taken for that of an empty
histogram. -/
theorem maximum_of_zeros {h : Histogram} {samples : List (Int64 × Nat)}
    (hs : h.Holds samples) (hall : ∀ v ∈ samples.map Prod.fst, v = 0) : h.maximum = 0 := by
  have hgreatest : h.greatest = 0 := by
    rcases hs.greatest_isUtmost with ⟨-, heq⟩ | ⟨hmem, -⟩
    · exact heq
    · exact hall _ hmem
  rw [maximum, if_pos hgreatest]

/-- Histograms of one layout with the same counts have the same maximum, as
long as the first slot takes no value but 0 or either both or neither of them
hold a sample other than 0. -/
theorem maximum_congr {h h' : Histogram} {samples samples' : List (Int64 × Nat)}
    (hs : h.Holds samples) (hs' : h'.Holds samples') (hlayout : h'.layout = h.layout)
    (hcount : ∀ i, h'.countAt i = h.countAt i)
    (hboth : h.layout.unitMagnitude = 0 ∨
      ((∃ v ∈ samples.map Prod.fst, v ≠ 0) ↔ ∃ v ∈ samples'.map Prod.fst, v ≠ 0)) :
    h'.maximum = h.maximum := by
  by_cases hex : ∃ i, 0 < h.countAt i
  · -- The highest slot that holds counts is the same one in both.
    obtain ⟨i, hi⟩ := hex
    obtain ⟨k, hpos, hlast⟩ := exists_last_countAt hs hi
    have hpos' : 0 < h'.countAt k := by rw [hcount]; exact hpos
    have hlast' : ∀ j, k < j → h'.countAt j = 0 := by
      intro j hj
      rw [hcount]
      exact hlast j hj
    -- Both answers are the greatest value of that slot, or both are 0.
    rcases hboth with hunit | hsame
    · rw [(maximum_eq_slotCeiling_iff hs hpos hlast).2 (Or.inr hunit),
        (maximum_eq_slotCeiling_iff hs' hpos' hlast').2 (Or.inr (hlayout ▸ hunit)), hlayout]
    · rw [maximum_of_last hs hpos hlast, maximum_of_last hs' hpos' hlast', hlayout]
      simp only [hsame]
  · -- Neither holds anything.
    have hnone : ∀ i, h.countAt i = 0 := by
      intro i
      by_contra hne
      exact hex ⟨i, Nat.pos_of_ne_zero hne⟩
    have hnil := hs.values_eq_nil hnone
    have hnil' := hs'.values_eq_nil (by intro i; rw [hcount, hnone])
    rw [maximum_of_zeros hs (by rw [hnil]; simp), maximum_of_zeros hs' (by rw [hnil']; simp)]

/-- The maximum of a histogram after a history, in terms of its counts and of
the values that were accepted since the last reset:

1. when no slot holds counts, it is 0;
2. when `i` is the highest slot that holds counts, it is the greatest value
   of that slot exactly if some accepted value is not 0 or the first slot
   takes no value but 0;
3. it is 0 if all accepted values are;
4. any other history that leaves the same counts, whatever its rotation,
   leaves the same maximum, as long as the first slot takes no value but 0
   or either both or neither of the two accepted a value other than 0. -/
theorem maximum_agrees (layout : Layout) (offset : Nat) (events : List Event) :
    let h := (empty layout offset).after events
    let values := ((empty layout offset).accepted events).map Prod.fst
    ((∀ i, h.countAt i = 0) → h.maximum = 0) ∧
    (∀ i, 0 < h.countAt i → (∀ j, i < j → h.countAt j = 0) →
      (h.maximum = layout.slotCeiling (layout.valueAt i) ↔
        (∃ v ∈ values, v ≠ 0) ∨ layout.unitMagnitude = 0)) ∧
    ((∀ v ∈ values, v = 0) → h.maximum = 0) ∧
    ∀ offset' events',
      let h' := (empty layout offset').after events'
      let values' := ((empty layout offset').accepted events').map Prod.fst
      (∀ i, h'.countAt i = h.countAt i) →
      (layout.unitMagnitude = 0 ∨ ((∃ v ∈ values, v ≠ 0) ↔ ∃ v ∈ values', v ≠ 0)) →
      h'.maximum = h.maximum := by
  intro h values
  have hs : h.Holds ((empty layout offset).accepted events) :=
    holds_accepted layout offset events
  have hlayout : h.layout = layout := layout_after_empty layout offset events
  refine ⟨?_, ?_, maximum_of_zeros hs, ?_⟩
  · intro hnone
    refine maximum_of_zeros hs ?_
    rw [hs.values_eq_nil hnone]
    simp
  · intro i hpos hlast
    have hiff := maximum_eq_slotCeiling_iff hs hpos hlast
    rw [hlayout] at hiff
    exact hiff
  · intro offset' events' h' values' hcount hboth
    have hs' : h'.Holds ((empty layout offset').accepted events') :=
      holds_accepted layout offset' events'
    have hsame : h'.layout = h.layout := by rw [layout_after, layout_after]; rfl
    rw [← hlayout] at hboth
    exact maximum_congr hs hs' hsame hcount hboth

/-- A unit magnitude of 9 puts 0 and 1 into one slot, and they leave the same
counts. The maximum tells them apart: after a 0 it is not the greatest value
of that slot, after a 1 it is. -/
theorem maximum_zero_alone :
    ∃ layout, Layout.make 1000 10000000 2 = .ok layout ∧
      let zero := (empty layout 0).after [.record 0 1]
      let one := (empty layout 0).after [.record 1 1]
      0 < zero.countAt 0 ∧ (∀ j, 0 < j → zero.countAt j = 0) ∧
        (∀ i, one.countAt i = zero.countAt i) ∧
        layout.slotCeiling (layout.valueAt 0) = 511 ∧
        zero.maximum = 0 ∧ one.maximum = 511 := by
  obtain ⟨layout, hmake, hslot, hceiling⟩ :
      ∃ g, Layout.make 1000 10000000 2 = .ok g ∧ g.slot? 1 = some 0 ∧ g.slotCeiling 1 = 511 :=
    Layout.exists_make_ok (by decide)
  have hzero := holds_after_record layout 0 layout.slot?_zero
  have hone := holds_after_record layout 0 hslot
  have hcount := countAt_after_record layout 0 layout.slot?_zero
  have hcount' := countAt_after_record layout 0 hslot
  have hpos : 0 < ((empty layout 0).after [.record 1 1]).countAt 0 := by
    rw [hcount', if_pos rfl]
    exact Nat.one_pos
  have hlast : ∀ j, 0 < j → ((empty layout 0).after [.record 1 1]).countAt j = 0 := by
    intro j hj
    rw [hcount', if_neg (Nat.ne_of_gt hj)]
  have hself : layout.slotCeiling (layout.valueAt 0) = 511 := by
    rw [← hceiling]
    exact Layout.slotCeiling_congr (Layout.slot?_valueAt_self layout.slotCount_pos) hslot
  have hmax := maximum_of_last hone hpos hlast
  rw [if_pos ⟨1, by simp, by decide⟩, layout_after_empty, hself] at hmax
  refine ⟨layout, hmake, ?_, ?_, ?_, hself, maximum_of_zeros hzero (by simp), hmax⟩
  · rw [hcount, if_pos rfl]
    exact Nat.one_pos
  · intro j hj
    rw [hcount, if_neg (Nat.ne_of_gt hj)]
  · intro i
    rw [hcount, hcount']

end LogBuckets.Histogram
