import LogBuckets.Proofs.Json.Skip
import LogBuckets.Proofs.Json.Tokens
import LogBuckets.Proofs.Json.Writing
import LogBuckets.Proofs.Settings.Fields
import LogBuckets.Settings.Reader

/-!
# `LogBuckets.Proofs.Settings.Members`: reading members in any order

An object is read member by member, an array element by element, and every other
value is read past. Each of these is one lemma about the reader: from the place
before it to the place after it, with what it does to the settings.

* `run_ignored` carries `Json.Skip.past` over to the reader: a value that belongs
  to no field changes nothing;
* `run_member` reads one member, at the beginning of an object and after a comma
  alike. `Member.Gives` is what it does: the field of the member gets its integer,
  the other fields are kept;
* `run_members` and `run_elements` are the inductions over members and elements, each
  from the first one on.

Fields that are given at different places do not get in each other's way, so the
order plays no part in the result: `givenFor` finds the integer of a field wherever
the member is. An array of integers then reads like the object that names the
leading fields.

The name of a member may be written with escapes, and so be a text with a unit that
does not pair up. Such a text has no characters. It may stand anywhere in a value that
is read past, also as a name, but not as a name of a member of the settings
(`unpaired_name_refused`).
-/

set_option autoImplicit false

namespace LogBuckets.Settings

open Json

/-! ### Members and elements -/

/-- A member of a settings object. -/
inductive Member where
  /-- A field with the numeral of an integer. -/
  | field (f : Field) (n : Numeral) (i : Int)
  /-- A member of another name, with the tokens of its value. The name is what a quoted
  text denotes, so there may be none. -/
  | other (name : Option (List Char)) (value : List Token)

namespace Member

/-- The tokens of a member: its key, a colon and its value. -/
def tokens : Member → List Token
  | .field f n _ => member (some f.name.toList) [.numeral n]
  | .other name value => member name value

/-- A field has an integer that it takes. Any value may stand under a name that is
not that of a field. -/
inductive Valid : Member → Prop
  | field {f : Field} {n : Numeral} {i : Int} (hn : n.IsInteger i) (hl : f.least ≤ i)
      (hg : i ≤ f.greatest) : Valid (.field f n i)
  | other {name : Option (List Char)} {value : List Token}
      (hname : ∀ f : Field, name ≠ some f.name.toList) (hvalue : IsValue value) :
      Valid (.other name value)

/-- The name of the member denotes characters. -/
inductive IsNamed : Member → Prop
  | field (f : Field) (n : Numeral) (i : Int) : IsNamed (.field f n i)
  | other (name : List Char) (value : List Token) : IsNamed (.other (some name) value)

/-- The field that the member gives. -/
def field? : Member → Option Field
  | .field f _ _ => some f
  | .other _ _ => none

/-- The integer that the member gives to a field. -/
def given? (f : Field) : Member → Option Int
  | .field g _ i => if f = g then some i else none
  | .other _ _ => none

/-- What reading the member does to what has been read before: its field has been
given, and has its integer. -/
structure Gives (m : Member) (d d' : Draft) : Prop where
  given : d'.given = m.field?.toList ++ d.given
  get_eq : ∀ f, d'.settings.get f = (m.given? f).getD (d.settings.get f)

/-- A member that gives a value gives it to its own field. -/
theorem field?_of_given? {m : Member} {f : Field} {i : Int} (h : m.given? f = some i) :
    m.field? = some f := by
  cases m with
  | field g n j =>
      by_cases hf : f = g
      · rw [field?, hf]
      · simp [given?, hf] at h
  | other name value => cases h

/-- The tokens of a member that may be read stand apart. -/
theorem Valid.apart {m : Member} (h : m.Valid) : Apart m.tokens := by
  cases h with
  | field => exact apart_member _ (apart_singleton _)
  | other _ hvalue => exact apart_member _ hvalue.apart

end Member

/-- The integer that members give to a field. -/
def givenFor (members : List Member) (f : Field) : Option Int :=
  members.findSome? (·.given? f)

/-- An object of members. -/
def objectOf (members : List Member) : List Token :=
  enclosed .openBrace .closeBrace (members.map Member.tokens)

/-- An array of integers. -/
def arrayOf (elements : List (Numeral × Int)) : List Token :=
  enclosed .openBracket .closeBracket (elements.map fun e => [.numeral e.1])

/-- The members that give integers to fields, one after the other. -/
def leading (fields : List Field) (elements : List (Numeral × Int)) : List Member :=
  List.zipWith (fun f e => .field f e.1 e.2) fields elements

/-- A field that no member has is given nothing. -/
theorem givenFor_eq_none {members : List Member} {f : Field}
    (h : f ∉ members.filterMap Member.field?) : givenFor members f = none := by
  rw [givenFor, List.findSome?_eq_none_iff]
  intro m hm
  cases hi : m.given? f with
  | none => rfl
  | some i => exact absurd (List.mem_filterMap.2 ⟨m, hm, Member.field?_of_given? hi⟩) h

/-- If the later members do not give the field of the first one, it makes no
difference that they are read after it. -/
theorem getD_givenFor_cons {m : Member} {members : List Member}
    (hnew : ∀ f, m.field? = some f → f ∉ members.filterMap Member.field?) (f : Field) (i : Int) :
    (givenFor (m :: members) f).getD i = (givenFor members f).getD ((m.given? f).getD i) := by
  cases hi : m.given? f with
  | none => simp [givenFor, hi]
  | some j =>
      -- The first member gives the field, so none of the others does.
      have hrest := givenFor_eq_none (hnew f (Member.field?_of_given? hi))
      rw [hrest]
      simp [givenFor, hi]

/-- If no field is given twice, the first member has none of those that follow, and
these have none twice. -/
theorem nodup_fields_cons {m : Member} {members : List Member}
    (h : ((m :: members).filterMap Member.field?).Nodup) :
    (∀ f, m.field? = some f → f ∉ members.filterMap Member.field?) ∧
      (members.filterMap Member.field?).Nodup := by
  refine ⟨fun f hf => ?_, h.sublist ((List.sublist_cons_self m members).filterMap _)⟩
  rw [List.filterMap_cons_some hf, List.nodup_cons] at h
  exact h.1

/-- Elements of an array count as members of the first fields, which have names. -/
theorem isNamed_of_mem_leading {fields : List Field} {elements : List (Numeral × Int)} :
    ∀ m ∈ leading fields elements, m.IsNamed := by
  intro m hm
  obtain ⟨i, hi, rfl⟩ := List.mem_iff_getElem.1 hm
  simp only [leading, List.getElem_zipWith]
  exact .field _ _ _

/-- An array gives the first fields, as many as it has elements. -/
theorem leading_fields {fields : List Field} {elements : List (Numeral × Int)} :
    (leading fields elements).filterMap Member.field? = fields.take elements.length := by
  induction fields generalizing elements with
  | nil => simp [leading]
  | cons f fields ih =>
      cases elements with
      | nil => simp [leading]
      | cons e elements => simpa [leading, Member.field?] using ih

/-! ### Steps of the reader -/

namespace Reader

/-- Reads tokens one after the other. -/
def run (r : Reader) (ts : List Token) : Except ReadError Reader :=
  ts.foldlM step r

/-- A token that is accepted is read first. -/
theorem run_cons {r r' : Reader} {t : Token} (h : r.step t = .ok r') (ts : List Token) :
    r.run (t :: ts) = r'.run ts := by
  rw [run, List.foldlM_cons, h]
  rfl

/-- A key and its colon lead to the value. -/
theorem run_key {r r₁ r₂ : Reader} {name : List Char}
    (hname : r.step (.text (some name)) = .ok r₁) (hcolon : r₁.step (.mark .colon) = .ok r₂)
    (value rest : List Token) :
    r.run (Json.member (some name) value ++ rest) = r₂.run (value ++ rest) := by
  rw [Json.member, List.cons_append, List.cons_append, run_cons hname, run_cons hcolon]

/-- A field that has not been given is recognized by its name. -/
theorem key_field {d : Draft} {f : Field} (h : f ∉ d.given) :
    key d (.text (some f.name.toList)) = .ok (.colon d (some f)) := by
  simp [key, Field.ofName?_name, h]

/-- A key that names no field leads to a value that is passed over. -/
theorem key_other {d : Draft} {name : List Char}
    (h : ∀ f : Field, some name ≠ some f.name.toList) :
    key d (.text (some name)) = .ok (.colon d none) := by
  have hother : ∀ f : Field, f.name.toList ≠ name := fun f hf => h f (congrArg some hf.symm)
  simp [key, Field.ofName?_eq_none hother]

/-- A numeral that stands for an integer is read as that integer. -/
theorem integer?_of_isInteger {n : Numeral} {i : Int} (h : n.IsInteger i) :
    n.integer? = some i := by
  cases h with
  | positive whole => rfl
  | negative whole h => simp [Numeral.integer?, h]

/-- The integer of a valid member goes into its field. -/
theorem assign_numeral {f : Field} {n : Numeral} {i : Int} (s : Settings)
    (h : (Member.field f n i).Valid) :
    ∃ s', assign s f (.numeral n) = .ok s' ∧
      ∀ g, s'.get g = ((Member.field f n i).given? g).getD (s.get g) := by
  obtain ⟨hn, hl, hg⟩ := h
  obtain ⟨s', hs, hget⟩ := s.exists_set? hl hg
  refine ⟨s', ?_, fun g => ?_⟩
  · simp [assign, integer?_of_isInteger hn, hs]
  · rw [hget g, Member.given?]
    split <;> rfl

/-- What a value that belongs to no field is read past with is what the reader does
with it. -/
theorem run_ignored {d : Draft} {skip : Skip} {ts rest : List Token}
    (h : skip.past ts = some rest) :
    (Reader.ignored d skip).run ts = (Reader.afterMember d).run rest := by
  induction ts generalizing skip with
  | nil => cases h
  | cons t ts ih =>
      rw [Skip.past_cons] at h
      -- The reader goes on as the value does, until it has ended.
      have hstep : (Reader.ignored d skip).step t = ignore d (skip.step t) := rfl
      cases hskip : skip.step t with
      | fault => rw [hskip] at h; cases h
      | done =>
          rw [hskip] at h hstep
          cases h
          exact run_cons hstep _
      | more skip' =>
          rw [hskip] at h hstep
          rw [run_cons hstep]
          exact ih h

/-! ### Objects -/

/-- A member is read wherever a key is due, if its field has not been given before. -/
theorem run_member {m : Member} {d : Draft} {r : Reader} (hm : m.Valid) (hnamed : m.IsNamed)
    (hkey : ∀ name, r.step (.text name) = key d (.text name))
    (hnew : ∀ f, m.field? = some f → f ∉ d.given) (rest : List Token) :
    ∃ d', r.run (m.tokens ++ rest) = (Reader.afterMember d').run rest ∧ m.Gives d d' := by
  cases hnamed with
  | field f n i =>
      -- The key names the field, and the value is one that the field takes.
      have hcolon : r.step (.text (some f.name.toList)) = .ok (.colon d (some f)) :=
        (hkey _).trans (key_field (hnew f rfl))
      obtain ⟨s, hs, hget⟩ := assign_numeral d.settings hm
      have hvalue : (Reader.value d f).step (.numeral n)
          = .ok (.afterMember { settings := s, given := f :: d.given }) := by
        rw [step, hs]
        rfl
      refine ⟨{ settings := s, given := f :: d.given }, ?_, rfl, hget⟩
      exact (run_key hcolon rfl [.numeral n] rest).trans (run_cons hvalue rest)
  | other name value =>
      cases hm with
      | other hname hvalue =>
          -- The key names no field, so its value is read past and the draft stays as it is.
          have hcolon : r.step (.text (some name)) = .ok (.colon d none) :=
            (hkey _).trans (key_other hname)
          refine ⟨d, ?_, rfl, fun f => rfl⟩
          exact (run_key hcolon rfl value rest).trans (run_ignored (Skip.past_start hvalue rest))

/-- Members are read one after the other, from the first one on. -/
theorem run_members {m : Member} {members : List Member} {d : Draft} {r : Reader}
    (hkey : ∀ name, r.step (.text name) = key d (.text name))
    (hvalid : ∀ m' ∈ m :: members, m'.Valid) (hnamed : ∀ m' ∈ m :: members, m'.IsNamed)
    (hnodup : ((m :: members).filterMap Member.field?).Nodup)
    (hnew : ∀ f ∈ (m :: members).filterMap Member.field?, f ∉ d.given) (rest : List Token) :
    ∃ d', r.run ([.mark .comma].intercalate ((m :: members).map Member.tokens) ++ rest)
        = (Reader.afterMember d').run rest ∧
      ∀ f, d'.settings.get f = (givenFor (m :: members) f).getD (d.settings.get f) := by
  induction members generalizing m d r with
  | nil =>
      have hfirst : ∀ f, m.field? = some f → f ∉ d.given := fun f hf =>
        hnew f (List.mem_filterMap.2 ⟨m, by simp, hf⟩)
      obtain ⟨d', hrun, hgives⟩ :=
        run_member (hvalid m (by simp)) (hnamed m (by simp)) hkey hfirst rest
      refine ⟨d', by simpa using hrun, fun f => ?_⟩
      rw [hgives.get_eq f, getD_givenFor_cons (by simp)]
      rfl
  | cons m₂ members ih =>
      -- The field of the first member has not been given, nor do the others give it.
      obtain ⟨hlater, hnodup'⟩ := nodup_fields_cons hnodup
      have hfirst : ∀ f, m.field? = some f → f ∉ d.given := fun f hf =>
        hnew f (List.mem_filterMap.2 ⟨m, by simp, hf⟩)
      obtain ⟨d₁, hrun₁, hgives⟩ := run_member (hvalid m (by simp)) (hnamed m (by simp)) hkey hfirst
        (.mark .comma :: ([.mark .comma].intercalate ((m₂ :: members).map Member.tokens) ++ rest))
      -- What has been given after the first member is what was given before, and its own
      -- field.
      have hnew₁ : ∀ f ∈ (m₂ :: members).filterMap Member.field?, f ∉ d₁.given := by
        intro f hf hgiven
        rw [hgives.given, List.mem_append] at hgiven
        rcases hgiven with hm | hd
        · exact hlater f (Option.mem_toList.1 hm) hf
        · exact hnew f (((List.sublist_cons_self _ _).filterMap _).subset hf) hd
      obtain ⟨d', hrun, hget⟩ := ih (r := .member d₁) (fun _ => rfl)
        (fun m' hm' => hvalid m' (List.mem_cons_of_mem m hm'))
        (fun m' hm' => hnamed m' (List.mem_cons_of_mem m hm')) hnodup' hnew₁
      refine ⟨d', ?_, fun f => ?_⟩
      · have hcomma : (Reader.afterMember d₁).step (.mark .comma) = .ok (.member d₁) := rfl
        rw [run_cons hcomma, hrun] at hrun₁
        simpa using hrun₁
      · rw [hget f, hgives.get_eq f, getD_givenFor_cons hlater]

/-- An object is read to its end, and every field has the integer that it is given,
or its default. -/
theorem run_objectOf {members : List Member} (hvalid : ∀ m ∈ members, m.Valid)
    (hnamed : ∀ m ∈ members, m.IsNamed)
    (hnodup : (members.filterMap Member.field?).Nodup) :
    ∃ s, Reader.start.run (objectOf members) = .ok (.finished s) ∧
      ∀ f, s.get f = (givenFor members f).getD (Settings.get {} f) := by
  cases members with
  | nil => exact ⟨{}, rfl, fun f => rfl⟩
  | cons m members =>
      obtain ⟨d, hrun, hget⟩ := run_members (r := .firstMember) (d := {}) (fun _ => rfl)
        hvalid hnamed hnodup (by simp) [.mark .closeBrace]
      refine ⟨d.settings, ?_, hget⟩
      rw [objectOf, enclosed, run_cons rfl, hrun]
      rfl

/-! ### Arrays -/

/-- An element is read into its field. -/
theorem step_element {f : Field} {n : Numeral} {i : Int} {s : Settings} {left : List Field}
    {r : Reader}
    (hvalue : r.step (.numeral n) = (assign s f (.numeral n)).map (.afterElement · left))
    (h : (Member.field f n i).Valid) :
    ∃ s', r.step (.numeral n) = .ok (.afterElement s' left) ∧
      ∀ g, s'.get g = ((Member.field f n i).given? g).getD (s.get g) := by
  obtain ⟨s', hs, hget⟩ := assign_numeral s h
  refine ⟨s', ?_, hget⟩
  rw [hvalue, hs]
  rfl

/-- Elements are read into the fields that are left, from the first one on. -/
theorem run_elements {e : Numeral × Int} {elements : List (Numeral × Int)} {s : Settings}
    {f : Field} {left : List Field} {r : Reader}
    (hvalue : ∀ n, r.step (.numeral n) = (assign s f (.numeral n)).map (.afterElement · left))
    (hvalid : ∀ m ∈ leading (f :: left) (e :: elements), m.Valid) (hnodup : (f :: left).Nodup)
    (hlen : elements.length ≤ left.length) (rest : List Token) :
    ∃ s', r.run ([.mark .comma].intercalate ((e :: elements).map fun e => [.numeral e.1]) ++ rest)
        = (Reader.afterElement s' (left.drop elements.length)).run rest ∧
      ∀ g, s'.get g = (givenFor (leading (f :: left) (e :: elements)) g).getD (s.get g) := by
  induction elements generalizing e s f left r with
  | nil =>
      obtain ⟨s', hstep, hget⟩ :=
        step_element (hvalue e.1) (hvalid (.field f e.1 e.2) (by simp [leading]))
      refine ⟨s', by simpa using run_cons hstep rest, fun g => ?_⟩
      rw [hget g]
      simp [leading, givenFor]
  | cons e₂ elements ih =>
      cases left with
      | nil => simp at hlen
      | cons f₂ left =>
          -- The field of the first element is not among those that are left for the others.
          have hlater : ∀ g, (Member.field f e.1 e.2).field? = some g →
              g ∉ (leading (f₂ :: left) (e₂ :: elements)).filterMap Member.field? := by
            rintro g hg hmem
            cases hg
            rw [leading_fields] at hmem
            exact (List.nodup_cons.1 hnodup).1 (List.mem_of_mem_take hmem)
          obtain ⟨s₁, hstep, hget₁⟩ :=
            step_element (hvalue e.1) (hvalid (.field f e.1 e.2) (by simp [leading]))
          have hcomma : (Reader.afterElement s₁ (f₂ :: left)).step (.mark .comma)
              = .ok (.element s₁ f₂ left) := rfl
          obtain ⟨s', hrun, hget⟩ := ih (r := .element s₁ f₂ left) (fun _ => rfl)
            (fun m hm => hvalid m (List.mem_cons_of_mem _ hm)) hnodup.of_cons
              (Nat.le_of_succ_le_succ hlen)
          refine ⟨s', ?_, fun g => ?_⟩
          · -- The first element and its comma are read, and then the others.
            have hall := run_cons hstep (.mark .comma :: ([.mark .comma].intercalate
              ((e₂ :: elements).map fun e => [.numeral e.1]) ++ rest))
            rw [run_cons hcomma, hrun] at hall
            simpa using hall
          · rw [hget g, hget₁ g]
            exact (getD_givenFor_cons hlater g (s.get g)).symm

/-- An array is read to its end like the members that give its integers to the leading
fields. -/
theorem run_arrayOf {elements : List (Numeral × Int)}
    (hvalid : ∀ m ∈ leading Field.all elements, m.Valid) (hlen : elements.length ≤ 4) :
    ∃ s, Reader.start.run (arrayOf elements) = .ok (.finished s) ∧
      ∀ f, s.get f = (givenFor (leading Field.all elements) f).getD (Settings.get {} f) := by
  cases elements with
  | nil => exact ⟨{}, rfl, fun f => rfl⟩
  | cons e elements =>
      obtain ⟨s, hrun, hget⟩ := run_elements (r := .firstElement) (s := {}) (fun _ => rfl) hvalid
        (by decide) (Nat.le_of_succ_le_succ hlen) [.mark .closeBracket]
      refine ⟨s, ?_, hget⟩
      rw [arrayOf, enclosed, run_cons rfl, hrun]
      -- The closing bracket may stand after any number of fields.
      cases hleft : List.drop elements.length _ with
      | nil => rfl
      | cons f left => rfl

end Reader

/-! ### Texts -/

/-- Reading a text is reading its tokens to the end. -/
theorem read_of_run {text : String} {ts : List Token} {s : Settings}
    (hw : WrittenAs ts text.toList) (hapart : Apart ts)
    (hrun : Reader.start.run ts = .ok (.finished s)) : read text = .ok s := by
  have htokens : tokens text.toList = ts := tokens_of_writtenAs hw hapart
  rw [read, htokens]
  show (Reader.start.run ts >>= Reader.finish) = .ok s
  rw [hrun]
  rfl

/-- An object stands apart if its members do. -/
theorem apart_objectOf {members : List Member} (hvalid : ∀ m ∈ members, m.Valid) :
    Apart (objectOf members) := by
  refine apart_enclosed fun part hpart => ?_
  obtain ⟨m, hm, rfl⟩ := List.mem_map.1 hpart
  exact (hvalid m hm).apart

/-- An array of numerals stands apart: there are commas between them. -/
theorem apart_arrayOf (elements : List (Numeral × Int)) : Apart (arrayOf elements) := by
  refine apart_enclosed fun part hpart => ?_
  obtain ⟨e, _, rfl⟩ := List.mem_map.1 hpart
  exact apart_singleton _

/-- Whatever the order of the members and the blanks between them, an object is read. -/
theorem exists_read_objectOf {members : List Member} {text : String}
    (hvalid : ∀ m ∈ members, m.Valid) (hnamed : ∀ m ∈ members, m.IsNamed)
    (hnodup : (members.filterMap Member.field?).Nodup)
    (hw : WrittenAs (objectOf members) text.toList) :
    ∃ s, read text = .ok s ∧ ∀ f, s.get f = (givenFor members f).getD (Settings.get {} f) := by
  obtain ⟨s, hrun, hget⟩ := Reader.run_objectOf hvalid hnamed hnodup
  exact ⟨s, read_of_run hw (apart_objectOf hvalid) hrun, hget⟩

/-- An array of up to four integers gives them to the fields in order, and the other
fields keep their defaults. -/
theorem exists_read_arrayOf {elements : List (Numeral × Int)} {text : String}
    (hvalid : ∀ m ∈ leading Field.all elements, m.Valid) (hlen : elements.length ≤ 4)
    (hw : WrittenAs (arrayOf elements) text.toList) :
    ∃ s, read text = .ok s ∧
      ∀ f, s.get f = (givenFor (leading Field.all elements) f).getD (Settings.get {} f) := by
  obtain ⟨s, hrun, hget⟩ := Reader.run_arrayOf hvalid hlen
  exact ⟨s, read_of_run hw (apart_arrayOf elements) hrun, hget⟩

/-- Take members in any order, each a field with an integer that it takes or a value
under another name, and no field twice. All names denote characters. Then any text of
the object, with blanks as one likes, is read, and gives each field the integer of its
member, or its default if it has none. Any text of an array of at most four integers is
read as any text of the object that gives them to the leading fields. -/
theorem members_read_in_any_order :
    (∀ (members : List Member) (text : String),
      (∀ m ∈ members, m.Valid) → (∀ m ∈ members, m.IsNamed) →
      (members.filterMap Member.field?).Nodup → WrittenAs (objectOf members) text.toList →
      ∃ s, read text = .ok s ∧
        ∀ f, s.get f = (givenFor members f).getD (Settings.get {} f)) ∧
    (∀ (elements : List (Numeral × Int)) (array object : String),
      elements.length ≤ 4 → (∀ m ∈ leading Field.all elements, m.Valid) →
      WrittenAs (arrayOf elements) array.toList →
      WrittenAs (objectOf (leading Field.all elements)) object.toList →
      ∃ s, read array = .ok s ∧ read object = .ok s) := by
  refine ⟨fun members text hvalid hnamed hnodup hw =>
    exists_read_objectOf hvalid hnamed hnodup hw, ?_⟩
  intro elements array object hlen hvalid hwarray hwobject
  have hnodup : ((leading Field.all elements).filterMap Member.field?).Nodup := by
    rw [leading_fields]
    exact List.Nodup.sublist (List.take_sublist _ _) (by decide)
  obtain ⟨s, hread, hget⟩ := exists_read_arrayOf hvalid hlen hwarray
  obtain ⟨s', hread', hget'⟩ := exists_read_objectOf hvalid isNamed_of_mem_leading hnodup hwobject
  have hsame : s = s' := ext_get fun f => (hget f).trans (hget' f).symm
  exact ⟨s, hread, hsame ▸ hread'⟩

/-- A field after a member of another name, and the first field in an array and in an
object. -/
theorem members_read_among_others :
    (∃ s, read "\x7b\"x\":[null] , \"significant_figures\":2\x7d" = .ok s ∧
      ∀ f, s.get f = if f = .figures then 2 else Settings.get {} f) ∧
    ∃ s, read "[5]" = .ok s ∧ read "\x7b\"lowest_trackable_value\":5\x7d" = .ok s := by
  have hopen : WrittenAs [.mark .openBrace] ['{'] := writtenAs_mark rfl
  have hclose : WrittenAs [.mark .closeBrace] ['}'] := writtenAs_mark rfl
  constructor
  · -- The array under the name without a field is a value.
    have hvalue : IsValue (enclosed .openBracket .closeBracket [[.word]]) :=
      .array (by simpa using IsValue.word)
    have hvalid : ∀ m ∈ [Member.other (some ['x']) (enclosed .openBracket .closeBracket [[.word]]),
        .field .figures (Numeral.literal 2) 2], m.Valid := by
      simp only [List.mem_cons, List.not_mem_nil, or_false, forall_eq_or_imp, forall_eq]
      refine ⟨.other (fun f => ?_) hvalue, ?_⟩
      · cases f <;> decide
      · exact .field (Numeral.literal_isInteger 2) (by decide) (by decide)
    have hnamed : ∀ m ∈ [Member.other (some ['x']) (enclosed .openBracket .closeBracket [[.word]]),
        .field .figures (Numeral.literal 2) 2], m.IsNamed := by
      simp only [List.mem_cons, List.not_mem_nil, or_false, forall_eq_or_imp, forall_eq]
      exact ⟨.other _ _, .field _ _ _⟩
    have harray : WrittenAs (enclosed .openBracket .closeBracket [[.word]])
        ['[', 'n', 'u', 'l', 'l', ']'] :=
      (writtenAs_mark rfl).append (Token.WrittenAs.null.singleton.append (writtenAs_mark rfl))
    have hplain : ∀ c ∈ ['x'], Text.IsPlain c := by simp [Text.IsPlain]
    have hother := writtenAs_member hplain harray
    have hfield := writtenAs_member Field.figures.isPlain_name
      (Token.WrittenAs.numeral (Numeral.literal_writtenAs 2)).singleton
    have hblank : Blank [' '] := by simp [Blank]
    have hcomma : WrittenAs [.mark .comma] [','] := writtenAs_mark rfl
    -- The text is written out token by token, with the two blanks where they stand.
    have hw := hopen.append (hother.append ((hcomma.blank_append hblank).append
      ((hfield.blank_append hblank).append hclose)))
    obtain ⟨s, hread, hget⟩ := members_read_in_any_order.1 _
      "\x7b\"x\":[null] , \"significant_figures\":2\x7d" hvalid hnamed (by decide) hw
    refine ⟨s, hread, fun f => ?_⟩
    rw [hget f]
    cases f <;> rfl
  · have hliteral := (Token.WrittenAs.numeral (Numeral.literal_writtenAs 5)).singleton
    have hvalid : ∀ m ∈ leading Field.all [(Numeral.literal 5, 5)], m.Valid := by
      simp only [leading, Field.all, List.zipWith_cons_cons, List.zipWith_nil_right,
        List.mem_singleton, forall_eq]
      exact .field (Numeral.literal_isInteger 5) (by decide) (by decide)
    have hobject := writtenAs_member Field.lowest.isPlain_name hliteral
    exact members_read_in_any_order.2 [(Numeral.literal 5, 5)] "[5]"
      "\x7b\"lowest_trackable_value\":5\x7d" (by decide) hvalid
      ((writtenAs_mark rfl).append (hliteral.append (writtenAs_mark rfl)))
      (hopen.append (hobject.append hclose))

/-- A name with two high units and no low one makes the text malformed, although it is
the name of no field and a value stands under it. -/
theorem unpaired_name_refused :
    (∀ m ∈ [Member.other none [.word]], m.Valid) ∧
    ([Member.other none [.word]].filterMap Member.field?).Nodup ∧
    WrittenAs (objectOf [.other none [.word]]) "\x7b\"\\ud800\\ud800\":null\x7d".toList ∧
    read "\x7b\"\\ud800\\ud800\":null\x7d" = .error .malformed := by
  have hvalid : ∀ m ∈ [Member.other none [.word]], m.Valid := by
    simp only [List.mem_singleton, forall_eq]
    exact .other (fun f => by simp) .word
  have hunit : Text.PieceWrittenAs (.unit 0xd800) ['\\', 'u', 'd', '8', '0', '0'] := .unit rfl
  have hname : Token.WrittenAs (.text none)
      ['"', '\\', 'u', 'd', '8', '0', '0', '\\', 'u', 'd', '8', '0', '0', '"'] :=
    .text (.cons hunit (.cons hunit .nil))
  have hopen : WrittenAs [.mark .openBrace] ['{'] := writtenAs_mark rfl
  have hcolon : WrittenAs [.mark .colon] [':'] := writtenAs_mark rfl
  have hclose : WrittenAs [.mark .closeBrace] ['}'] := writtenAs_mark rfl
  have hw : WrittenAs (objectOf [.other none [.word]])
      "\x7b\"\\ud800\\ud800\":null\x7d".toList :=
    hopen.append (hname.singleton.append (hcolon.append
      (Token.WrittenAs.null.singleton.append hclose)))
  refine ⟨hvalid, List.nodup_nil, hw, ?_⟩
  -- The text has these tokens, and the reader stops at the name.
  rw [read, tokens_of_writtenAs hw (apart_objectOf hvalid)]
  rfl

end LogBuckets.Settings
