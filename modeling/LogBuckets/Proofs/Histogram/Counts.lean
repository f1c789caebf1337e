import LogBuckets.Proofs.Histogram.Cells
import LogBuckets.Proofs.Histogram.Samples

/-!
# `LogBuckets.Proofs.Histogram.Counts`: what a history leaves behind

A histogram after a history of records and resets is determined by its
samples, the records since the last reset that found a slot. `Holds` says
how: every count, and the total, is the exact sum of the counts that went
into it, cut off once at `Tally.limit`, and the least and the greatest
value are those of the samples. That sums are cut at different moments,
the total long before a slot, does not show.

* `holds_apply`: one event keeps `Holds`, with the samples moved on by
  that event; `holds_accepted`: so a history ends with its own samples;
* `Holds.countBelow_eq`, `Holds.total_eq_countBelow`: the counts before a
  slot, and all of them, add up to the samples there, also when some of
  them were cut;
* `Holds.eq_of_perm`: samples that write out to the same values in any
  order leave the same histogram;
* `after_empty_holds`: all of it together, for the samples that the
  histogram itself said yes to.
-/

set_option autoImplicit false

namespace LogBuckets

/-! ### The end of a list of values -/

/-- `m` is the last of `values` in the order `r`, or `other` if there are no
values. With `≤` it is the greatest value and with `≥` the least. -/
def IsUtmost (r : Int64 → Int64 → Prop) (values : List Int64) (other m : Int64) : Prop :=
  (values = [] ∧ m = other) ∨ (m ∈ values ∧ ∀ v ∈ values, r v m)

/-- One more value: the later of the two takes over. `other` comes before
every value, so it never stands in the way of the first one. -/
theorem IsUtmost.concat {r : Int64 → Int64 → Prop} {values : List Int64}
    {other m v m' : Int64} (h : IsUtmost r values other m) (hrefl : ∀ a, r a a)
    (htrans : ∀ a b c, r a b → r b c → r a c) (hantisymm : ∀ a b, r a b → r b a → a = b)
    (hother : r other v) (hnew : (m' = v ∧ r m v) ∨ (m' = m ∧ r v m)) :
    IsUtmost r (values ++ [v]) other m' := by
  refine Or.inr ?_
  rcases h with ⟨rfl, rfl⟩ | ⟨hmem, hlast⟩
  · -- The first value takes over, or is `other` itself.
    have hv : m' = v := by
      rcases hnew with ⟨hv, -⟩ | ⟨hm, hle⟩
      · exact hv
      · rw [hm]
        exact hantisymm m v hother hle
    subst hv
    exact ⟨List.mem_singleton.2 rfl, fun w hw => List.mem_singleton.1 hw ▸ hrefl w⟩
  · -- The new value takes over from `m`, or `m` stays.
    rcases hnew with ⟨rfl, hle⟩ | ⟨rfl, hle⟩
    · refine ⟨List.mem_append_right _ (List.mem_singleton.2 rfl), ?_⟩
      intro w hw
      rcases List.mem_append.1 hw with hold | hold
      · exact htrans w m m' (hlast w hold) hle
      · exact List.mem_singleton.1 hold ▸ hrefl w
    · refine ⟨List.mem_append_left _ hmem, ?_⟩
      intro w hw
      rcases List.mem_append.1 hw with hold | hold
      · exact hlast w hold
      · exact List.mem_singleton.1 hold ▸ hle

/-- The same values in another order have the same end. -/
theorem IsUtmost.unique {r : Int64 → Int64 → Prop} {values values' : List Int64}
    {other m m' : Int64} (h : IsUtmost r values other m) (h' : IsUtmost r values' other m')
    (hantisymm : ∀ a b, r a b → r b a → a = b)
    (hsame : ∀ v, v ∈ values ↔ v ∈ values') : m = m' := by
  rcases h with ⟨rfl, rfl⟩ | ⟨hmem, hlast⟩
  · rcases h' with ⟨-, rfl⟩ | ⟨hmem', -⟩
    · rfl
    · exact absurd ((hsame m').2 hmem') List.not_mem_nil
  · rcases h' with ⟨rfl, -⟩ | ⟨hmem', hlast'⟩
    · exact absurd ((hsame m).1 hmem) List.not_mem_nil
    · exact hantisymm m m' (hlast' m ((hsame m).1 hmem)) (hlast m' ((hsame m').2 hmem'))

namespace Histogram

/-! ### Counts before a slot -/

/-- The capped sum of the counts before slot number `k`. -/
def countBelow (h : Histogram) (k : Nat) : Nat :=
  min Tally.limit (∑ i ∈ Finset.range k, h.countAt i)

/-- One slot more adds its count to the capped sum. -/
theorem countBelow_succ (h : Histogram) (k : Nat) :
    h.countBelow (k + 1) = Tally.add (h.countBelow k) (h.countAt k) := by
  rw [countBelow, countBelow, Finset.sum_range_succ, Tally.add_min]

/-- A capped sum is a count itself. -/
theorem countBelow_le_limit (h : Histogram) (k : Nat) : h.countBelow k ≤ Tally.limit :=
  Nat.min_le_left _ _

/-- More slots do not count less. -/
theorem countBelow_mono (h : Histogram) : Monotone h.countBelow :=
  monotone_nat_of_le_succ fun k => by
    have hlimit := h.countBelow_le_limit k
    rw [countBelow_succ, Tally.add]
    omega

/-! ### The invariant -/

/-- What a histogram shows after exactly these samples were counted. -/
structure Holds (h : Histogram) (samples : List (Int64 × Nat)) : Prop where
  /-- Every sample has a slot. -/
  slotted : ∀ s ∈ samples, (h.layout.slot? s.1).isSome
  /-- Every sample counts something. -/
  positive : ∀ s ∈ samples, 0 < s.2
  /-- A slot counts the samples it holds, up to the limit. -/
  countAt_eq : ∀ i, h.countAt i = min Tally.limit (weight (h.layout.inSlot i) samples)
  /-- The total counts all samples, up to the limit. -/
  total_eq : h.total = min Tally.limit (samples.map Prod.snd).sum
  greatest_isUtmost : IsUtmost (· ≤ ·) (samples.map Prod.fst) 0 h.greatest
  /-- The value 0 is left out of the least value. -/
  least_isUtmost :
    IsUtmost (· ≥ ·) ((samples.map Prod.fst).filter (· != 0)) Int64.maxValue h.least

/-- Where nothing shows, nothing was counted. -/
theorem holds_nil {h : Histogram} (hcount : ∀ i, h.countAt i = 0) (htotal : h.total = 0)
    (hgreatest : h.greatest = 0) (hleast : h.least = Int64.maxValue) : h.Holds [] where
  slotted s hs := absurd hs List.not_mem_nil
  positive s hs := absurd hs List.not_mem_nil
  countAt_eq i := by rw [hcount, weight_nil, Nat.min_zero]
  total_eq := by rw [htotal, List.map_nil, List.sum_nil, Nat.min_zero]
  greatest_isUtmost := Or.inl ⟨rfl, hgreatest⟩
  least_isUtmost := Or.inl ⟨rfl, hleast⟩

/-- An empty histogram holds no samples. -/
theorem holds_empty (layout : Layout) (offset : Nat) : (empty layout offset).Holds [] :=
  holds_nil (countAt_empty layout offset) rfl rfl rfl

/-- Nor does one that was reset. -/
theorem holds_reset (h : Histogram) : h.reset.Holds [] :=
  holds_nil h.countAt_reset rfl rfl rfl

/-- One more sample takes over as the greatest value, or leaves it. A sample has a slot,
so it is not below 0. -/
theorem greatest_add {h : Histogram} {values : List Int64} {i : Nat} {v : Int64} (n : Nat)
    (hgreatest : IsUtmost (· ≤ ·) values 0 h.greatest) (hv : 0 ≤ v) :
    IsUtmost (· ≤ ·) (values ++ [v]) 0 (h.add i v n).greatest := by
  refine hgreatest.concat (fun _ => Int64.le_refl _) (fun _ _ _ => Int64.le_trans)
    (fun _ _ => Int64.le_antisymm) hv ?_
  show ((if h.greatest < v then v else h.greatest) = v ∧ h.greatest ≤ v)
    ∨ ((if h.greatest < v then v else h.greatest) = h.greatest ∧ v ≤ h.greatest)
  split
  · next hlt => exact Or.inl ⟨rfl, Int64.le_of_lt hlt⟩
  · next hge => exact Or.inr ⟨rfl, Int64.not_lt.1 hge⟩

/-- One more sample takes over as the least value, or leaves it, unless it is 0. -/
theorem least_add {h : Histogram} {values : List Int64} {i : Nat} {v : Int64} (n : Nat)
    (hleast : IsUtmost (· ≥ ·) (values.filter (· != 0)) Int64.maxValue h.least) :
    IsUtmost (· ≥ ·) ((values ++ [v]).filter (· != 0)) Int64.maxValue
      (h.add i v n).least := by
  rw [List.filter_append]
  show IsUtmost _ _ _ (if v ≠ 0 ∧ v < h.least then v else h.least)
  by_cases hzero : v = 0
  · -- The value 0 is neither looked at nor kept.
    subst hzero
    rw [if_neg (fun hlow => hlow.1 rfl), List.filter_cons_of_neg (by decide),
      List.filter_nil, List.append_nil]
    exact hleast
  · rw [List.filter_cons_of_pos (by simpa using hzero), List.filter_nil]
    refine hleast.concat (fun _ => Int64.le_refl _)
      (fun _ _ _ hab hbc => Int64.le_trans hbc hab)
      (fun _ _ hab hba => Int64.le_antisymm hba hab) (Int64.le_maxValue v) ?_
    split
    · next hlt => exact Or.inl ⟨rfl, Int64.le_of_lt hlt.2⟩
    · next hge => exact Or.inr ⟨rfl, Int64.not_lt.1 fun hlt => hge ⟨hzero, hlt⟩⟩

/-- Counting one more sample in its slot keeps `Holds`. -/
theorem holds_add {h : Histogram} {samples : List (Int64 × Nat)} (hs : h.Holds samples)
    {v : Int64} {i n : Nat} (hslot : h.layout.slot? v = some i) (hn : 0 < n) :
    (h.add i v n).Holds (samples ++ [(v, n)]) where
  slotted s hmem := by
    rcases List.mem_append.1 hmem with hold | hnew
    · exact hs.slotted s hold
    · rw [List.mem_singleton.1 hnew]
      exact Option.isSome_of_eq_some hslot
  positive s hmem := by
    rcases List.mem_append.1 hmem with hold | hnew
    · exact hs.positive s hold
    · rw [List.mem_singleton.1 hnew]
      exact hn
  countAt_eq j := by
    -- The slot that is written to is the only one that the value is in.
    have hin : h.layout.inSlot j v = true ↔ j = i := by
      rw [Layout.inSlot_eq_true_iff, hslot, Option.some.injEq, eq_comm]
    show (h.add i v n).countAt j
      = min Tally.limit (weight (h.layout.inSlot j) (samples ++ [(v, n)]))
    rw [countAt_add h (Layout.slot?_lt_slotCount hslot), weight_concat, hs.countAt_eq]
    -- The capped sum of the samples in the slot grows by the sample, or stays.
    by_cases hj : j = i
    · rw [if_pos hj, if_pos (hin.2 hj), Tally.add_min]
    · rw [if_neg hj, if_neg (fun hmem => hj (hin.1 hmem)), Nat.add_zero]
  total_eq := by
    show Tally.add h.total n = _
    rw [hs.total_eq, Tally.add_min, List.map_append, List.sum_append]
    rfl
  greatest_isUtmost := by
    have hv : 0 ≤ v := by
      rw [Int64.le_iff_toInt_le, Int64.toInt_zero]
      exact Layout.nonneg_of_slot? hslot
    rw [List.map_append]
    exact greatest_add n hs.greatest_isUtmost hv
  least_isUtmost := by
    rw [List.map_append]
    exact least_add n hs.least_isUtmost

/-! ### Histories -/

/-- One event keeps `Holds`. A record that finds no slot, or counts nothing,
changes neither the histogram nor the samples. -/
theorem holds_apply {h : Histogram} {samples : List (Int64 × Nat)} (hs : h.Holds samples)
    (e : Event) : (h.apply e).Holds (h.layout.keep samples e) := by
  rcases h.apply_cases e with
    ⟨v, n, rfl, hidle, heq⟩ | ⟨v, n, i, rfl, hslot, hn, heq⟩ | ⟨rfl, heq⟩
  · have hkeep : h.layout.keep samples (.record v n) = samples := by
      refine if_neg fun hboth => ?_
      rcases hidle with hnone | hzero
      · rw [hnone] at hboth
        exact absurd hboth.1 (by simp)
      · omega
    rw [heq, hkeep]
    exact hs
  · have hkeep : h.layout.keep samples (.record v n) = samples ++ [(v, n)] :=
      if_pos ⟨Option.isSome_of_eq_some hslot, hn⟩
    rw [heq, hkeep]
    exact holds_add hs hslot hn
  · rw [heq]
    exact h.holds_reset

/-- A history moves the samples on by its events, from any samples to begin with. -/
theorem holds_foldl {h : Histogram} {samples : List (Int64 × Nat)} (hs : h.Holds samples)
    (events : List Event) :
    (h.after events).Holds (events.foldl h.layout.keep samples) := by
  induction events generalizing h samples with
  | nil => exact hs
  | cons e rest ih =>
      have hstep := ih (holds_apply hs e)
      rw [layout_apply] at hstep
      exact hstep

/-- After every history a histogram holds the records of that history that it
said yes to, since the last reset. -/
theorem holds_accepted (layout : Layout) (offset : Nat) (events : List Event) :
    ((empty layout offset).after events).Holds ((empty layout offset).accepted events) := by
  rw [accepted_eq_samplesOf]
  exact holds_foldl (holds_empty layout offset) events

/-- The same for samples that were worked out from the layout. -/
theorem holds_of_samplesOf (layout : Layout) (offset : Nat) {events : List Event}
    {samples : List (Int64 × Nat)} (hkept : layout.samplesOf events = samples) :
    ((empty layout offset).after events).Holds samples := by
  have hs := holds_accepted layout offset events
  rw [accepted_eq_samplesOf] at hs
  exact hkept ▸ hs

/-- No event changes the layout. -/
theorem layout_after_empty (layout : Layout) (offset : Nat) (events : List Event) :
    ((empty layout offset).after events).layout = layout := by
  rw [layout_after]
  rfl

/-- An empty histogram has the layout that it was made for. -/
theorem layout_empty (layout : Layout) (offset : Nat) : (empty layout offset).layout = layout :=
  rfl

/-- A record on its own leaves its value as the only sample. -/
theorem holds_of_record (layout : Layout) (offset : Nat) {v : Int64} {i n : Nat}
    (hslot : layout.slot? v = some i) (hn : 0 < n) :
    ((empty layout offset).after [.record v n]).Holds [(v, n)] := by
  have hkept := holds_accepted layout offset [.record v n]
  rw [← layout_empty layout offset] at hslot
  rw [accepted_record (empty layout offset) hslot hn] at hkept
  exact hkept

/-- A record on its own counts in the slot of its value, up to the limit, and in no
other. -/
theorem countAt_of_record (layout : Layout) (offset : Nat) {v : Int64} {i n : Nat}
    (hslot : layout.slot? v = some i) (hn : 0 < n) (j : Nat) :
    ((empty layout offset).after [.record v n]).countAt j
      = if j = i then min Tally.limit n else 0 := by
  have hin : layout.inSlot j v = true ↔ j = i := by
    rw [Layout.inSlot_eq_true_iff, hslot, Option.some.injEq, eq_comm]
  rw [(holds_of_record layout offset hslot hn).countAt_eq, layout_after_empty, weight_cons,
    weight_nil, Nat.add_zero]
  by_cases hj : j = i
  · rw [if_pos hj, hin.2 hj, Bool.toNat_true, Nat.one_mul]
  · rw [if_neg hj, Bool.eq_false_iff.2 fun htrue => hj (hin.1 htrue), Bool.toNat_false,
      Nat.zero_mul, Nat.min_zero]

/-! ### Consequences -/

namespace Holds

/-- The counts before a slot add up to the weight of the samples before it,
up to the limit. Cutting the summands first makes no difference. -/
theorem countBelow_eq {h : Histogram} {samples : List (Int64 × Nat)} (hs : h.Holds samples)
    (k : Nat) : h.countBelow k = min Tally.limit (weight (h.layout.below k) samples) := by
  rw [countBelow, ← sum_weight_inSlot,
    ← Tally.min_sum_min fun i => weight (h.layout.inSlot i) samples]
  simp only [hs.countAt_eq]

/-- The total is the capped sum of all counts. -/
theorem total_eq_countBelow {h : Histogram} {samples : List (Int64 × Nat)}
    (hs : h.Holds samples) : h.total = h.countBelow h.layout.slotCount := by
  rw [hs.countBelow_eq, weight_below_slotCount h.layout hs.slotted, hs.total_eq]

/-- Counts are ahead of a slot if some of the samples are not before it. -/
theorem countBelow_lt_total {h : Histogram} {samples : List (Int64 × Nat)} (hs : h.Holds samples)
    (hfew : (samples.map Prod.snd).sum ≤ Tally.limit) {k : Nat}
    (hless : weight (h.layout.below k) samples < (samples.map Prod.snd).sum) :
    h.countBelow k < h.total := by
  rw [hs.countBelow_eq, hs.total_eq, Nat.min_eq_right hfew]
  exact Nat.lt_of_le_of_lt (Nat.min_le_right _ _) hless

/-- As long as the samples are no more than can be counted, no count was cut. -/
theorem countAt_eq_weight {h : Histogram} {samples : List (Int64 × Nat)} (hs : h.Holds samples)
    (hfew : (samples.map Prod.snd).sum ≤ Tally.limit) (i : Nat) :
    h.countAt i = weight (h.layout.inSlot i) samples := by
  have hle := weight_le_sum (h.layout.inSlot i) samples
  rw [hs.countAt_eq]
  omega

/-- Nor was a sum of counts: with so few samples, the counts before a slot add up to
exactly the weight of the samples there. -/
theorem sum_countAt_range {h : Histogram} {samples : List (Int64 × Nat)} (hs : h.Holds samples)
    (hfew : (samples.map Prod.snd).sum ≤ Tally.limit) (k : Nat) :
    ∑ i ∈ Finset.range k, h.countAt i = weight (h.layout.below k) samples := by
  rw [← sum_weight_inSlot]
  exact Finset.sum_congr rfl fun i _ => hs.countAt_eq_weight hfew i

/-- So their sum can be counted itself. -/
theorem sum_countAt_range_le {h : Histogram} {samples : List (Int64 × Nat)} (hs : h.Holds samples)
    (hfew : (samples.map Prod.snd).sum ≤ Tally.limit) (k : Nat) :
    ∑ i ∈ Finset.range k, h.countAt i ≤ Tally.limit := by
  rw [hs.sum_countAt_range hfew]
  exact Nat.le_trans (weight_le_sum _ _) hfew

/-- No cut shows below the limit: the counts before a slot stay below `t` if
and only if the values there are fewer than `t`. -/
theorem countBelow_lt_iff {h : Histogram} {samples : List (Int64 × Nat)}
    (hs : h.Holds samples) {t : Nat} (ht : t ≤ Tally.limit) (k : Nat) :
    h.countBelow k < t ↔ (spread samples).countP (h.layout.below k) < t := by
  rw [hs.countBelow_eq, countP_spread]
  omega

/-- Every value that is written out has a slot. -/
theorem isSome_slot?_of_mem_spread {h : Histogram} {samples : List (Int64 × Nat)}
    (hs : h.Holds samples) {v : Int64} (hv : v ∈ spread samples) :
    (h.layout.slot? v).isSome := by
  rw [mem_spread hs.positive, List.mem_map] at hv
  obtain ⟨s, hmem, rfl⟩ := hv
  exact hs.slotted s hmem

/-- Neither the order of the samples matters nor how counts of one value are
split among them. -/
theorem eq_of_perm {h h' : Histogram} {samples samples' : List (Int64 × Nat)}
    (hs : h.Holds samples) (hs' : h'.Holds samples') (hlayout : h.layout = h'.layout)
    (hrotation : h.rotation = h'.rotation) (hperm : (spread samples).Perm (spread samples')) :
    h = h' := by
  have hweight : ∀ p, weight p samples = weight p samples' := by
    intro p
    rw [← countP_spread, ← countP_spread, hperm.countP_eq]
  -- No sample counts nothing, so each value that was recorded is written out.
  have hvalues : ∀ v, v ∈ samples.map Prod.fst ↔ v ∈ samples'.map Prod.fst := by
    intro v
    rw [← mem_spread hs.positive, ← mem_spread hs'.positive, hperm.mem_iff]
  -- All that a histogram shows is given by the weights of the slots and by which values
  -- there are.
  refine eq_of_countAt_eq hlayout hrotation ?_ ?_ ?_ ?_
  · intro i
    rw [hs.countAt_eq, hs'.countAt_eq, hweight, hlayout]
  · rw [hs.total_eq, hs'.total_eq, ← weight_true, ← weight_true, hweight]
  · refine hs.least_isUtmost.unique hs'.least_isUtmost
      (fun _ _ hab hba => Int64.le_antisymm hba hab) ?_
    intro v
    rw [List.mem_filter, List.mem_filter, hvalues]
  · exact hs.greatest_isUtmost.unique hs'.greatest_isUtmost (fun _ _ => Int64.le_antisymm)
      hvalues

end Holds

/-- After every history the total is the capped sum of all counts. -/
theorem total_eq_countBelow_slotCount (layout : Layout) (offset : Nat) (events : List Event) :
    let h := (empty layout offset).after events
    h.total = h.countBelow h.slotCount := by
  intro h
  rw [h.slotCount_eq]
  exact (holds_accepted layout offset events).total_eq_countBelow

/-- A histogram after a history, in terms of the records since the last
reset that it answered with `true` and that counted something:

1. every slot counts the records whose value it holds, up to the limit;
2. the total counts all of them, up to the limit, and
3. it is also the sum of the counts of the slots, up to the limit;
4. the greatest value is the greatest of theirs, and 0 if there are none;
5. the least value is the least of theirs other than 0, and the greatest
   word if there are none;
6. a history that kept the same records in another order, and
7. even one that kept them split up in other ways, ends in the same
   histogram, whatever was forgotten before. -/
theorem after_empty_holds (layout : Layout) (offset : Nat) (events : List Event) :
    let fresh := empty layout offset
    let h := fresh.after events
    let kept := fresh.accepted events
    (∀ i < layout.slotCount,
      h.countAt i = min Tally.limit (weight (layout.inSlot i) kept)) ∧
    h.total = min Tally.limit (kept.map Prod.snd).sum ∧
    h.total = min Tally.limit (∑ i ∈ Finset.range layout.slotCount, h.countAt i) ∧
    IsUtmost (· ≤ ·) (kept.map Prod.fst) 0 h.greatest ∧
    IsUtmost (· ≥ ·) ((kept.map Prod.fst).filter (· != 0)) Int64.maxValue h.least ∧
    (∀ events', (fresh.accepted events').Perm kept → fresh.after events' = h) ∧
    ∀ events', (spread (fresh.accepted events')).Perm (spread kept) →
      fresh.after events' = h := by
  intro fresh h kept
  have hs : h.Holds kept := holds_accepted layout offset events
  have hlayout : h.layout = layout := layout_after_empty layout offset events
  have hsplit : ∀ events', (spread (fresh.accepted events')).Perm (spread kept) →
      fresh.after events' = h := by
    intro events' hperm
    have hs' : (fresh.after events').Holds (fresh.accepted events') :=
      holds_accepted layout offset events'
    refine hs'.eq_of_perm hs ?_ ?_ hperm
    · rw [layout_after, layout_after]
    · rw [rotation_after, rotation_after]
  refine ⟨?_, hs.total_eq, ?_, hs.greatest_isUtmost, hs.least_isUtmost, ?_, hsplit⟩
  · intro i _
    rw [hs.countAt_eq, hlayout]
  · have hsum := hs.total_eq_countBelow
    rw [hlayout] at hsum
    exact hsum
  · -- Reordering the records reorders the values written out.
    intro events' hperm
    exact hsplit events' (hperm.flatMap_right _)

end Histogram

end LogBuckets
