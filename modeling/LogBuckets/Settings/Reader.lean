import LogBuckets.Json.Skip
import LogBuckets.Settings.Basic

/-!
# `LogBuckets.Settings.Reader`: settings from a JSON text

Settings are read from an object, whose members may come in any order
and among members of any other name, or from an array with the fields in
the order in which they are written, of which any number may be left out
at the end. What is not given has its default.

Reading goes through the tokens of the text one at a time and stops at
the first thing wrong. There are two kinds of these. A text that breaks
off or breaks the rules of JSON is *malformed*; so is an array with more
elements than there are fields. A *mismatch* is well formed so far, but
not what settings look like: another kind of value, or a field given
twice. A number too large to be read at all counts as malformed.

`Settings.Reader` holds the state between two tokens, and
`Settings.Reader.step` is the whole grammar.
-/

set_option autoImplicit false

namespace LogBuckets

open Json

/-- Why a text is not settings. -/
inductive ReadError where
  /-- The text is not JSON, as far as it was read. -/
  | malformed
  /-- The text is JSON so far, but not settings. -/
  | mismatch
  deriving DecidableEq, Repr

namespace Settings

/-- The members of an object that have been read: the settings so far,
and the fields that were given. -/
structure Draft where
  settings : Settings := {}
  given : List Field := []

/-- Where the reader is. -/
inductive Reader where
  /-- Before the text. -/
  | start
  /-- In an object that has just begun. -/
  | firstMember
  /-- In an object, after a comma. -/
  | member (draft : Draft)
  /-- After a key, which may be that of a field. -/
  | colon (draft : Draft) (field? : Option Field)
  /-- Before the value of a field. -/
  | value (draft : Draft) (field : Field)
  /-- In a value that belongs to no field. -/
  | ignored (draft : Draft) (skip : Skip)
  /-- In an object, after a member. -/
  | afterMember (draft : Draft)
  /-- In an array that has just begun. -/
  | firstElement
  /-- In an array, before the value of a field; `left` are the fields
  after it. -/
  | element (settings : Settings) (field : Field) (left : List Field)
  /-- In an array, after a value; `left` are the fields after it. -/
  | afterElement (settings : Settings) (left : List Field)
  /-- After the object or array. -/
  | finished (settings : Settings)

namespace Reader

/-- What is wrong with a token where a value of another kind is due. A
token that cannot begin a value, or that cannot be read to its end, is
malformed. -/
def misfit : Token → ReadError
  | .mark .openBrace => .mismatch
  | .mark .openBracket => .mismatch
  | .word => .mismatch
  | .text (some _) => .mismatch
  | .numeral n => if n.overflows then .malformed else .mismatch
  | _ => .malformed

/-- The settings with the integer that a token denotes in a field. -/
def assign (s : Settings) (f : Field) (t : Token) : Except ReadError Settings :=
  match t with
  | .numeral n =>
    match n.integer?.bind (s.set? f) with
    | some s => .ok s
    | none => .error (misfit t)
  | _ => .error (misfit t)

/-- Goes on after a key. A field can be given only once. -/
def key (d : Draft) : Token → Except ReadError Reader
  | .text (some name) =>
    match Field.ofName? name with
    | some f => if f ∈ d.given then .error .mismatch else .ok (.colon d (some f))
    | none => .ok (.colon d none)
  | _ => .error .malformed

/-- Goes on after a token inside an ignored value. -/
def ignore (d : Draft) : Skip.Outcome → Except ReadError Reader
  | .fault => .error .malformed
  | .done => .ok (.afterMember d)
  | .more skip => .ok (.ignored d skip)

/-- Reads one token. -/
def step (r : Reader) (t : Token) : Except ReadError Reader :=
  match r, t with
  | .start, .mark .openBrace => .ok .firstMember
  | .start, .mark .openBracket => .ok .firstElement
  | .start, t => .error (misfit t)
  | .firstMember, .mark .closeBrace => .ok (.finished {})
  | .firstMember, t => key {} t
  | .member d, t => key d t
  | .colon d (some f), .mark .colon => .ok (.value d f)
  | .colon d none, .mark .colon => .ok (.ignored d .start)
  | .value d f, t =>
    (assign d.settings f t).map fun s =>
      .afterMember { settings := s, given := f :: d.given }
  | .ignored d skip, t => ignore d (skip.step t)
  | .afterMember d, .mark .comma => .ok (.member d)
  | .afterMember d, .mark .closeBrace => .ok (.finished d.settings)
  | .firstElement, .mark .closeBracket => .ok (.finished {})
  | .firstElement, t => (assign {} .lowest t).map (.afterElement · [.highest, .figures, .rotation])
  | .element s f left, t => (assign s f t).map (.afterElement · left)
  | .afterElement s (f :: left), .mark .comma => .ok (.element s f left)
  | .afterElement s _, .mark .closeBracket => .ok (.finished s)
  | _, _ => .error .malformed

/-- The settings that were read, if the text may end here. -/
def finish : Reader → Except ReadError Settings
  | .finished s => .ok s
  | _ => .error .malformed

end Reader

/-- The settings that a JSON text gives. -/
def read (text : String) : Except ReadError Settings := do
  let r ← (tokens text.toList).foldlM Reader.step .start
  r.finish

end Settings

end LogBuckets
