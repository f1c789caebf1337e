import LogBuckets.Proofs.Json.Writing
import LogBuckets.Settings.Basic

/-!
# `LogBuckets.Proofs.Settings.Fields`: fields by name and by range

A field is found by its name and takes the integers of its range. Both are said
here once for all four fields:

* `Field.ofName?_name`, `Field.ofName?_eq_none`: each field is found under its
  own name, and under no other name is there a field. Names need no escapes
  (`Field.isPlain_name`);
* `Settings.exists_set?`: an integer of the range can be put in the field, and
  nothing else changes;
* `Settings.get_mem_range`: what is in a field is in its range;
* `Settings.ext_get`: settings are no more than the integers in their fields.
-/

set_option autoImplicit false

namespace LogBuckets

namespace Field

/-- Every field is found by its name. -/
theorem ofName?_name (f : Field) : ofName? f.name.toList = some f := by
  cases f <;> rfl

/-- No field is found by any other name. -/
theorem ofName?_eq_none {name : List Char} (h : ∀ f : Field, f.name.toList ≠ name) :
    ofName? name = none := by
  rw [ofName?, List.find?_eq_none]
  intro f _
  simpa using h f

/-- The names of the fields need no escapes. -/
theorem isPlain_name (f : Field) : ∀ c ∈ f.name.toList, Json.Text.IsPlain c := by
  have hall : f.name.toList.all (fun c => decide (Json.Text.IsPlain c)) = true := by
    cases f <;> decide
  simpa using hall

end Field

namespace Settings

/-- Settings are equal if all fields are. -/
theorem ext_get {s s' : Settings} (h : ∀ f, s.get f = s'.get f) : s = s' := by
  have hlowest : s.lowest = s'.lowest := Int64.toInt_inj.1 (h .lowest)
  have hhighest : s.highest = s'.highest := Int64.toInt_inj.1 (h .highest)
  have hfigures : s.figures = s'.figures := UInt32.toNat_inj.1 (Int.ofNat_inj.1 (h .figures))
  have hrotation : s.rotation = s'.rotation :=
    UInt64.toNat_inj.1 (Int.ofNat_inj.1 (h .rotation))
  cases s
  cases s'
  simp_all

/-- A field never holds an integer that it does not take. -/
theorem get_mem_range (s : Settings) (f : Field) : f.least ≤ s.get f ∧ s.get f ≤ f.greatest := by
  cases f with
  | lowest => exact ⟨s.lowest.minValue_le_toInt, s.lowest.toInt_le⟩
  | highest => exact ⟨s.highest.minValue_le_toInt, s.highest.toInt_le⟩
  | figures =>
      have := s.figures.toNat_lt_size
      simp only [get, Field.least, Field.greatest]
      omega
  | rotation =>
      have := s.rotation.toNat_lt_size
      simp only [get, Field.least, Field.greatest]
      omega

/-- An integer that a field takes is put there, and the other fields are kept. -/
theorem exists_set? (s : Settings) {f : Field} {i : Int} (hl : f.least ≤ i)
    (hg : i ≤ f.greatest) :
    ∃ s', s.set? f i = some s' ∧ ∀ g, s'.get g = if g = f then i else s.get g := by
  unfold set?
  rw [if_pos ⟨hl, hg⟩]
  refine ⟨_, rfl, fun g => ?_⟩
  cases f with
  | lowest =>
      -- The integer is a word of the type of the field, so nothing is cut off.
      have hi : (Int64.ofInt i).toInt = i := Int64.toInt_ofInt_of_le hl (Int.lt_add_one_of_le hg)
      cases g <;> simp only [get, hi, reduceCtorEq, if_true, if_false]
  | highest =>
      have hi : (Int64.ofInt i).toInt = i := Int64.toInt_ofInt_of_le hl (Int.lt_add_one_of_le hg)
      cases g <;> simp only [get, hi, reduceCtorEq, if_true, if_false]
  | figures =>
      have hi : ((UInt32.ofNat i.toNat).toNat : Int) = i := by
        simp only [Field.least, Field.greatest] at hl hg
        rw [UInt32.toNat_ofNat_of_lt' (by omega)]
        omega
      cases g <;> simp only [get, hi, reduceCtorEq, if_true, if_false]
  | rotation =>
      have hi : ((UInt64.ofNat i.toNat).toNat : Int) = i := by
        simp only [Field.least, Field.greatest] at hl hg
        rw [UInt64.toNat_ofNat_of_lt' (by omega)]
        omega
      cases g <;> simp only [get, hi, reduceCtorEq, if_true, if_false]

end Settings

end LogBuckets
