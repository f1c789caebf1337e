import LogBuckets.Json.Numeral
import LogBuckets.Json.Text

/-!
# `LogBuckets.Json.Token`: the tokens of a JSON text

A text is read as a list of tokens, without the blanks between them.
`tokens` answers for every text: where it cannot go on, the list ends
with a `fault`. A reader that goes through the list from the front thus
meets a fault in the text exactly when it has dealt with everything
before it.
-/

set_option autoImplicit false

namespace LogBuckets.Json

/-- A token that is a single character. -/
inductive Mark where
  | openBrace
  | closeBrace
  | openBracket
  | closeBracket
  | colon
  | comma
  deriving DecidableEq, Repr

/-- The mark that a character is. -/
def Mark.ofChar? : Char → Option Mark
  | '{' => some .openBrace
  | '}' => some .closeBrace
  | '[' => some .openBracket
  | ']' => some .closeBracket
  | ':' => some .colon
  | ',' => some .comma
  | _ => none

/-- A part of a JSON text. -/
inductive Token where
  | mark (mark : Mark)
  /-- One of `null`, `true` and `false`. -/
  | word
  /-- A quoted text, with its characters if it denotes any. -/
  | text (content : Option (List Char))
  | numeral (numeral : Numeral)
  /-- What is no token. -/
  | fault

/-- The characters that may stand between tokens. -/
def isBlank (c : Char) : Bool :=
  c == ' ' || c == '\n' || c == '\t' || c == '\r'

namespace Token

/-- What has to follow the first letter of a word. -/
def wordTail? : Char → Option (List Char)
  | 'n' => some ['u', 'l', 'l']
  | 't' => some ['r', 'u', 'e']
  | 'f' => some ['a', 'l', 's', 'e']
  | _ => none

/-- The token that begins with the character `c`, and what follows it.
Nothing follows a fault. -/
def next (c : Char) (cs : List Char) : Token × List Char :=
  match Mark.ofChar? c with
  | some m => (.mark m, cs)
  | none =>
    if c = '"' then
      match Text.scan cs with
      | some (pieces, rest) => (.text (Text.decode pieces), rest)
      | none => (.fault, [])
    else
      match wordTail? c with
      | some tail =>
        if tail <+: cs then (.word, cs.drop tail.length) else (.fault, [])
      | none =>
        match Numeral.scan (c :: cs) with
        | some (n, rest) => (.numeral n, rest)
        | none => (.fault, [])

/-- A token is read from its first character on, so the rest is no longer than what
followed that one. -/
theorem length_next_le (c : Char) (cs : List Char) : (next c cs).2.length ≤ cs.length := by
  unfold next
  split
  · exact Nat.le_refl _
  · split
    · split
      · next h => exact Nat.le_of_lt (Text.length_of_scan h)
      · exact Nat.zero_le _
    · split
      · split
        · simp only [List.length_drop]; omega
        · exact Nat.zero_le _
      · split
        · next h => exact Nat.le_of_lt_succ (Numeral.length_of_scan h)
        · exact Nat.zero_le _

end Token

/-- The tokens of a text. -/
def tokens : List Char → List Token
  | [] => []
  | c :: cs =>
    if isBlank c then tokens cs
    else (Token.next c cs).1 :: tokens (Token.next c cs).2
termination_by cs => cs.length
decreasing_by
  · exact Nat.lt_succ_self _
  · exact Nat.lt_succ_of_le (Token.length_next_le c cs)

end LogBuckets.Json
