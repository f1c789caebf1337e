import LogBuckets.Proofs.Settings.Members
import LogBuckets.Settings.Writer

/-!
# `LogBuckets.Proofs.Settings.RoundTrip`: written settings are read back

The written text is one of the texts of an object with all four fields
(`writtenAs_write`), and every text of that object is read. What is read agrees with
what was written in every field, and settings are no more than their fields.

It plays no part whether the settings are fit for a layout: every field holds an
integer of its range, and the reader asks for no more.

* `read_write`: settings are read back from their text as they were.
-/

set_option autoImplicit false

namespace LogBuckets.Settings

open Json

/-- All fields with the integers in them. -/
def members (s : Settings) : List Member :=
  Field.all.map fun f => .field f (Numeral.literal (s.get f)) (s.get f)

/-- What is written for a setting may be read: it is a word. -/
theorem valid_of_mem_members {s : Settings} {m : Member} (h : m ∈ s.members) : m.Valid := by
  obtain ⟨f, _, rfl⟩ := List.mem_map.1 h
  obtain ⟨hl, hg⟩ := s.get_mem_range f
  exact .field (Numeral.literal_isInteger _) hl hg

/-- Settings are written under the names of fields, which denote characters. -/
theorem isNamed_of_mem_members {s : Settings} {m : Member} (h : m ∈ s.members) :
    m.IsNamed := by
  obtain ⟨f, _, rfl⟩ := List.mem_map.1 h
  exact .field _ _ _

/-- All fields are written, each with its value. -/
theorem givenFor_members (s : Settings) (f : Field) : givenFor s.members f = some (s.get f) := by
  cases f <;> rfl

/-- One member is written with its name in quotes, a colon and its integer. -/
theorem writtenAs_writeMember (s : Settings) (f : Field) :
    WrittenAs (Member.field f (Numeral.literal (s.get f)) (s.get f)).tokens
      (s.writeMember f).toList := by
  have hvalue := (Token.WrittenAs.numeral (Numeral.literal_writtenAs (s.get f))).singleton
  have hmember := writtenAs_member f.isPlain_name hvalue
  simpa [Member.tokens, writeMember] using hmember

/-- The written text is a text of the object of all fields. -/
theorem writtenAs_write (s : Settings) : WrittenAs (objectOf s.members) s.write.toList := by
  have hopen : Mark.ofChar? '{' = some .openBrace := rfl
  have hclose : Mark.ofChar? '}' = some .closeBrace := rfl
  have hobject := writtenAs_enclosed hopen hclose s.writtenAs_writeMember Field.all
  simpa [objectOf, members, write, String.toList_intercalate, Function.comp_def] using hobject

/-- Settings are read back as they were, whatever integers their fields hold. -/
theorem read_write (s : Settings) : read s.write = .ok s := by
  have hnodup : (s.members.filterMap Member.field?).Nodup := by
    show Field.all.Nodup
    decide
  obtain ⟨s', hread, hget⟩ :=
    exists_read_objectOf (fun m hm => valid_of_mem_members hm)
      (fun m hm => isNamed_of_mem_members hm) hnodup s.writtenAs_write
  have hsame : s' = s := ext_get fun f => by
    rw [hget f, givenFor_members]
    rfl
  rw [hread, hsame]

end LogBuckets.Settings
