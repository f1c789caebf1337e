import LogBuckets.Json.Token

/-!
# `LogBuckets.Json.Skip`: reading past a value

A value that nobody asks for is still read to its end, to find where it
ends and that it is well formed. `Skip` is the state of doing so: what
has to come next, and which arrays and objects are open. One token is
taken at a time, and the open arrays and objects are kept in a list, so
values may be nested to any depth.

Numbers may be of any size here and texts may have units that do not
pair up: neither is looked into.
-/

set_option autoImplicit false

namespace LogBuckets.Json

/-- What is open around a value. -/
inductive Frame where
  | array
  | object
  deriving DecidableEq, Repr

/-- What has to come next inside a value. -/
inductive Need where
  /-- A value. -/
  | value
  /-- A value, or the end of the array that has just begun. -/
  | firstElement
  /-- A key, or the end of the object that has just begun. -/
  | firstKey
  /-- A key. -/
  | key
  /-- The colon after a key. -/
  | colon
  /-- A comma, or the end of the innermost array or object. -/
  | separator
  deriving DecidableEq, Repr

/-- A value that is being read past. -/
structure Skip where
  need : Need
  /-- The arrays and objects around what comes next, innermost first. -/
  frames : List Frame

/-- What a token makes of a value that is being read past. -/
inductive Skip.Outcome where
  /-- The token cannot stand there. -/
  | fault
  /-- The value ends with the token. -/
  | done
  /-- The value goes on. -/
  | more (skip : Skip)

namespace Skip

/-- Nothing of the value has been read. -/
def start : Skip := ⟨.value, []⟩

/-- A value has ended inside `frames`. -/
def closed : List Frame → Outcome
  | [] => .done
  | frames => .more ⟨.separator, frames⟩

/-- A value begins inside `frames`, with the given token. -/
def opened (frames : List Frame) : Token → Outcome
  | .mark .openBracket => .more ⟨.firstElement, .array :: frames⟩
  | .mark .openBrace => .more ⟨.firstKey, .object :: frames⟩
  | .word => closed frames
  | .text _ => closed frames
  | .numeral _ => closed frames
  | _ => .fault

/-- The innermost array or object ends, if it is of the given kind. -/
def close (kind : Frame) : List Frame → Outcome
  | [] => .fault
  | frame :: frames => if frame = kind then closed frames else .fault

/-- A comma stands inside `frames`: an element or a key has to follow. -/
def again : List Frame → Outcome
  | [] => .fault
  | .array :: frames => .more ⟨.value, .array :: frames⟩
  | .object :: frames => .more ⟨.key, .object :: frames⟩

/-- Reads one token. -/
def step (s : Skip) (t : Token) : Outcome :=
  match s.need, t with
  | .value, t => opened s.frames t
  | .firstElement, .mark .closeBracket => close .array s.frames
  | .firstElement, t => opened s.frames t
  | .firstKey, .mark .closeBrace => close .object s.frames
  | .firstKey, .text _ => .more ⟨.colon, s.frames⟩
  | .key, .text _ => .more ⟨.colon, s.frames⟩
  | .colon, .mark .colon => .more ⟨.value, s.frames⟩
  | .separator, .mark .comma => again s.frames
  | .separator, .mark .closeBracket => close .array s.frames
  | .separator, .mark .closeBrace => close .object s.frames
  | _, _ => .fault

end Skip

end LogBuckets.Json
