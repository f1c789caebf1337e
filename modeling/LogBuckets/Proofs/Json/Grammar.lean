import LogBuckets.Json.Token
import Mathlib.Data.List.Chain

/-!
# `LogBuckets.Proofs.Json.Grammar`: how JSON is written

`LogBuckets.Json` takes texts apart. This file says how they are put
together, with nothing of the scanners but the tables of single characters
and what a quoted text denotes (`Text.decode`):

* `Token.WrittenAs`: the characters that a token may be written with. A
  numeral and a text may be written in more than one way;
* `WrittenAs`: a list of tokens, with any blanks before, between and after
  them;
* `enclosed`: parts between two marks, with commas between the parts;
* `IsValue`: the lists of tokens that are one value. Arrays and objects may
  hold any number of values and may be nested to any depth.

Two numerals in a row would be read as one. Values never put them in a row:
after a numeral there is a mark, or nothing (`IsValue.apart`).
-/

set_option autoImplicit false

namespace LogBuckets.Json

/-! ### Numerals -/

namespace Numeral

/-- One digit or more. -/
def IsDigits (cs : List Char) : Prop :=
  cs ≠ [] ∧ ∀ c ∈ cs, c.isDigit = true

/-- One digit or more, of which the first is 0 only if it is the only one. -/
def IsWhole (cs : List Char) : Prop :=
  IsDigits cs ∧ (cs.head? = some '0' → cs = ['0'])

/-- A fraction is a point and digits. -/
inductive FractionWrittenAs : Option (List Char) → List Char → Prop
  | absent : FractionWrittenAs none []
  | present {digits : List Char} (h : IsDigits digits) :
      FractionWrittenAs (some digits) ('.' :: digits)

/-- A power of ten is digits, with a sign or without one. -/
inductive PowerWrittenAs : Int → List Char → Prop
  | unsigned {digits : List Char} (h : IsDigits digits) :
      PowerWrittenAs (Nat.ofDigitChars 10 digits 0) digits
  | positive {digits : List Char} (h : IsDigits digits) :
      PowerWrittenAs (Nat.ofDigitChars 10 digits 0) ('+' :: digits)
  | negative {digits : List Char} (h : IsDigits digits) :
      PowerWrittenAs (-(Nat.ofDigitChars 10 digits 0 : Int)) ('-' :: digits)

/-- An exponent is the letter `e` of either case and a power of ten. -/
inductive ExponentWrittenAs : Option Int → List Char → Prop
  | absent : ExponentWrittenAs none []
  | lower {power : Int} {cs : List Char} (h : PowerWrittenAs power cs) :
      ExponentWrittenAs (some power) ('e' :: cs)
  | upper {power : Int} {cs : List Char} (h : PowerWrittenAs power cs) :
      ExponentWrittenAs (some power) ('E' :: cs)

/-- A numeral is written as its digits, fraction and exponent, after a minus if
it is negative. -/
inductive WrittenAs : Numeral → List Char → Prop
  | positive {whole fs es : List Char} {fraction : Option (List Char)} {exponent : Option Int}
      (hw : IsWhole whole) (hf : FractionWrittenAs fraction fs)
      (he : ExponentWrittenAs exponent es) :
      WrittenAs ⟨false, whole, fraction, exponent⟩ (whole ++ (fs ++ es))
  | negative {whole fs es : List Char} {fraction : Option (List Char)} {exponent : Option Int}
      (hw : IsWhole whole) (hf : FractionWrittenAs fraction fs)
      (he : ExponentWrittenAs exponent es) :
      WrittenAs ⟨true, whole, fraction, exponent⟩ ('-' :: (whole ++ (fs ++ es)))

/-- A numeral without fraction and exponent is an integer. Only 0 with a minus is
none. -/
inductive IsInteger : Numeral → Int → Prop
  | positive (whole : List Char) :
      IsInteger ⟨false, whole, none, none⟩ (Nat.ofDigitChars 10 whole 0)
  | negative (whole : List Char) (h : Nat.ofDigitChars 10 whole 0 ≠ 0) :
      IsInteger ⟨true, whole, none, none⟩ (-(Nat.ofDigitChars 10 whole 0 : Int))

end Numeral

/-! ### Texts -/

namespace Text

/-- A character stands for itself, if it is not a quote, a backslash or a control
character; it may have a short escape. A unit is four hexadecimal digits. -/
inductive PieceWrittenAs : Piece → List Char → Prop
  | plain {c : Char} (hquote : c ≠ '"') (hbackslash : c ≠ '\\') (hcontrol : ¬ c < ' ') :
      PieceWrittenAs (.char c) [c]
  | short {e c : Char} (h : shortEscape? e = some c) : PieceWrittenAs (.char c) ['\\', e]
  | unit {a b c d : Char} {code : Nat} (h : unit? a b c d = some code) :
      PieceWrittenAs (.unit code) ['\\', 'u', a, b, c, d]

/-- Pieces are written one after the other. -/
inductive WrittenAs : List Piece → List Char → Prop
  | nil : WrittenAs [] []
  | cons {piece : Piece} {pieces : List Piece} {cs rest : List Char}
      (h : PieceWrittenAs piece cs) (hrest : WrittenAs pieces rest) :
      WrittenAs (piece :: pieces) (cs ++ rest)

end Text

/-! ### Tokens and blanks -/

/-- The characters that a token may be written with. -/
inductive Token.WrittenAs : Token → List Char → Prop
  | mark {m : Mark} {c : Char} (h : Mark.ofChar? c = some m) : Token.WrittenAs (.mark m) [c]
  | null : Token.WrittenAs .word ['n', 'u', 'l', 'l']
  | true : Token.WrittenAs .word ['t', 'r', 'u', 'e']
  | false : Token.WrittenAs .word ['f', 'a', 'l', 's', 'e']
  | text {pieces : List Text.Piece} {cs : List Char} (h : Text.WrittenAs pieces cs) :
      Token.WrittenAs (.text (Text.decode pieces)) ('"' :: (cs ++ ['"']))
  | numeral {n : Numeral} {cs : List Char} (h : n.WrittenAs cs) :
      Token.WrittenAs (.numeral n) cs

/-- Nothing but spaces, tabs and the ends of lines. -/
def Blank (cs : List Char) : Prop :=
  ∀ c ∈ cs, c = ' ' ∨ c = '\n' ∨ c = '\t' ∨ c = '\r'

/-- Tokens are written one after the other, with blanks wherever one likes. -/
inductive WrittenAs : List Token → List Char → Prop
  | nil {bs : List Char} (hb : Blank bs) : WrittenAs [] bs
  | cons {t : Token} {ts : List Token} {bs cs rest : List Char} (hb : Blank bs)
      (ht : t.WrittenAs cs) (hrest : WrittenAs ts rest) :
      WrittenAs (t :: ts) (bs ++ (cs ++ rest))

/-! ### Values -/

/-- Parts between two marks, with commas between the parts. -/
def enclosed (first last : Mark) (parts : List (List Token)) : List Token :=
  .mark first :: ([.mark .comma].intercalate parts ++ [.mark last])

/-- A key with its value. -/
def member (key : Option (List Char)) (value : List Token) : List Token :=
  .text key :: .mark .colon :: value

/-- The lists of tokens that are one value. -/
inductive IsValue : List Token → Prop
  | word : IsValue [.word]
  | text (content : Option (List Char)) : IsValue [.text content]
  | numeral (n : Numeral) : IsValue [.numeral n]
  | array {elements : List (List Token)} (h : ∀ value ∈ elements, IsValue value) :
      IsValue (enclosed .openBracket .closeBracket elements)
  | object {members : List (Option (List Char) × List Token)}
      (h : ∀ m ∈ members, IsValue m.2) :
      IsValue (enclosed .openBrace .closeBrace (members.map fun m => member m.1 m.2))

/-- What follows parts between two marks follows the last mark. -/
theorem enclosed_append (first last : Mark) (parts : List (List Token)) (rest : List Token) :
    enclosed first last parts ++ rest
      = .mark first :: ([.mark .comma].intercalate parts ++ .mark last :: rest) := by
  simp [enclosed]

/-- Between the marks there is the first part, and a comma before each of the others. -/
theorem intercalate_cons (sep : Token) (part : List Token) (parts : List (List Token)) :
    [sep].intercalate (part :: parts) = part ++ parts.flatMap (sep :: ·) := by
  induction parts generalizing part with
  | nil => simp
  | cons p ps ih => rw [List.intercalate_cons_cons, ih, List.flatMap_cons]; simp

/-! ### Numerals stand apart -/

/-- After a numeral there is a mark. -/
def Apart (ts : List Token) : Prop :=
  ts.IsChain fun t t' => (∃ n, t = .numeral n) → ∃ m, t' = .mark m

/-- A single token has no neighbour. -/
theorem apart_singleton (t : Token) : Apart [t] :=
  List.isChain_singleton t

/-- A mark stands apart from what is before it and what is after it. -/
theorem Apart.append_mark {ts ts' : List Token} (h : Apart ts) (h' : Apart ts') (m : Mark) :
    Apart (ts ++ .mark m :: ts') := by
  refine List.IsChain.append h (List.isChain_cons.2 ⟨?_, h'⟩) ?_
  · rintro t - ⟨n, hn⟩
    cases hn
  · rintro t - t' ht' -
    exact ⟨m, by simpa using ht'.symm⟩

/-- With a mark before each of them, parts do not touch each other. -/
theorem apart_flatMap {parts : List (List Token)} (h : ∀ part ∈ parts, Apart part) (m : Mark)
    {ts : List Token} (hts : Apart ts) :
    Apart (ts ++ parts.flatMap (.mark m :: ·)) := by
  induction parts generalizing ts with
  | nil => simpa using hts
  | cons part parts ih =>
      have hpart := hts.append_mark (h part (by simp)) m
      have hrest := ih (fun p hp => h p (by simp [hp])) hpart
      simpa using hrest

/-- Between marks, with commas between them, parts stand apart if each one does. -/
theorem apart_enclosed {first last : Mark} {parts : List (List Token)}
    (h : ∀ part ∈ parts, Apart part) : Apart (enclosed first last parts) := by
  have hbetween : Apart ([.mark .comma].intercalate parts) := by
    cases parts with
    | nil => exact List.isChain_nil
    | cons part parts =>
        rw [intercalate_cons]
        exact apart_flatMap (fun p hp => h p (by simp [hp])) .comma (h part (by simp))
  have hend := hbetween.append_mark List.isChain_nil last
  have hnil : Apart [] := List.isChain_nil
  exact hnil.append_mark hend first

/-- The colon keeps a key apart from its value. -/
theorem apart_member {value : List Token} (key : Option (List Char)) (h : Apart value) :
    Apart (member key value) :=
  (apart_singleton (.text key)).append_mark h .colon

/-- In a value every numeral stands apart. -/
theorem IsValue.apart {value : List Token} (h : IsValue value) : Apart value := by
  induction h with
  | word => exact apart_singleton _
  | text content => exact apart_singleton _
  | numeral n => exact apart_singleton _
  | array _ ih => exact apart_enclosed ih
  | object _ ih =>
      refine apart_enclosed fun part hpart => ?_
      obtain ⟨m, hm, rfl⟩ := List.mem_map.1 hpart
      exact apart_member m.1 (ih m hm)

end LogBuckets.Json
