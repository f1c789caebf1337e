/-!
# `LogBuckets.Json.Text`: quoted texts

Between quotes stand characters and escapes. An escape may give a
character by one 16-bit unit in hexadecimal, and a character beyond
those by two units, a high and a low one. Whether units pair up is a
question of its own: a text whose units do not is well formed, but
denotes no characters.

* `scan` takes a text up to and including its closing quote.
* `decode` puts the characters together.
-/

set_option autoImplicit false

namespace LogBuckets.Json.Text

/-- One part of a quoted text. -/
inductive Piece where
  /-- A character, written as itself or by a short escape. -/
  | char (c : Char)
  /-- A 16-bit unit, written in hexadecimal. -/
  | unit (code : Nat)

/-! ### Scanning -/

/-- The character that a short escape stands for. -/
def shortEscape? : Char → Option Char
  | '"' => some '"'
  | '\\' => some '\\'
  | '/' => some '/'
  | 'b' => some '\x08'
  | 'f' => some '\x0c'
  | 'n' => some '\n'
  | 'r' => some '\r'
  | 't' => some '\t'
  | _ => none

/-- The value of a hexadecimal digit of either case. -/
def hexDigit? (c : Char) : Option Nat :=
  if '0' ≤ c ∧ c ≤ '9' then some (c.toNat - '0'.toNat)
  else if 'a' ≤ c ∧ c ≤ 'f' then some (c.toNat - 'a'.toNat + 10)
  else if 'A' ≤ c ∧ c ≤ 'F' then some (c.toNat - 'A'.toNat + 10)
  else none

/-- The unit that four hexadecimal digits give. -/
def unit? (a b c d : Char) : Option Nat :=
  [a, b, c, d].foldlM (fun code c => (hexDigit? c).map (code * 16 + ·)) 0

/-- The first piece of a text that does not begin with a quote, and what
follows it. A control character cannot stand for itself. -/
def scanPiece : List Char → Option (Piece × List Char)
  | '\\' :: 'u' :: a :: b :: c :: d :: rest => (unit? a b c d).map fun code => (.unit code, rest)
  | '\\' :: c :: rest => (shortEscape? c).map fun e => (.char e, rest)
  | c :: rest => if c = '\\' ∨ c < ' ' then none else some (.char c, rest)
  | [] => none

/-- A piece of a text has a character at least, so reading them one by one ends. -/
theorem length_of_scanPiece {cs rest : List Char} {piece : Piece}
    (h : scanPiece cs = some (piece, rest)) : rest.length < cs.length := by
  unfold scanPiece at h
  split at h
  · obtain ⟨_, _, e⟩ := Option.map_eq_some_iff.1 h
    cases e; simp only [List.length_cons]; omega
  · obtain ⟨_, _, e⟩ := Option.map_eq_some_iff.1 h
    cases e; simp only [List.length_cons]; omega
  · split at h
    · contradiction
    · cases h; exact Nat.lt_succ_self _
  · contradiction

/-- The pieces of a text up to its closing quote, and what follows the
quote; nothing if there is no such quote or a piece is not well formed. -/
def scan (cs : List Char) : Option (List Piece × List Char) :=
  match cs with
  | '"' :: rest => some ([], rest)
  | cs =>
    match _scanned : scanPiece cs with
    | none => none
    | some (piece, rest) => (scan rest).map fun (pieces, rest) => (piece :: pieces, rest)
termination_by cs.length
decreasing_by exact length_of_scanPiece _scanned

/-- What follows a text is shorter. -/
theorem length_of_scan {cs rest : List Char} {pieces : List Piece}
    (h : scan cs = some (pieces, rest)) : rest.length < cs.length := by
  fun_induction scan cs generalizing pieces with
  | case1 => cases h; exact Nat.lt_succ_self _
  | case2 => contradiction
  | case3 cs _ piece r scanned ih =>
    obtain ⟨⟨ps, r'⟩, hs, e⟩ := Option.map_eq_some_iff.1 h
    cases e
    exact Nat.lt_trans (ih hs) (length_of_scanPiece scanned)

/-! ### Putting characters together -/

/-- The unit is the first of a pair. -/
def isHigh (code : Nat) : Bool :=
  0xd800 ≤ code && code < 0xdc00

/-- The unit is the second of a pair. -/
def isLow (code : Nat) : Bool :=
  0xdc00 ≤ code && code < 0xe000

/-- The character that a pair of units stands for. -/
def pair (high low : Nat) : Char :=
  Char.ofNat (0x10000 + (high - 0xd800) * 0x400 + (low - 0xdc00))

/-- The characters of a text; nothing if a unit that belongs in a pair
stands alone. -/
def decode : List Piece → Option (List Char)
  | [] => some []
  | .char c :: rest => (decode rest).map (c :: ·)
  | .unit high :: .unit low :: rest =>
    if isHigh high then
      if isLow low then (decode rest).map (pair high low :: ·) else none
    else if isLow high then none
    else (decode (.unit low :: rest)).map (Char.ofNat high :: ·)
  | .unit code :: rest =>
    if isHigh code || isLow code then none else (decode rest).map (Char.ofNat code :: ·)

end LogBuckets.Json.Text
