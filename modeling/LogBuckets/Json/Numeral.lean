import LogBuckets.Binary64

/-!
# `LogBuckets.Json.Numeral`: numbers as they are written

A numeral keeps its digits, because two questions are asked of it that
no single number answers: whether it denotes an integer, and whether it
is too large to be read as a number at all.

* `Numeral.scan` takes a numeral off the front of a text.
* `Numeral.integer?` is the integer of a numeral without fraction and
  exponent. A negative zero is not an integer: no integer has its sign.
* `Numeral.overflows` tells whether reading the numeral as a binary64
  number leads to infinity. Reading multiplies the leading digits, as
  many as fit 64 bits, by a power of ten.
-/

set_option autoImplicit false

namespace LogBuckets.Json

/-- A number as it is written. -/
structure Numeral where
  negative : Bool
  /-- The digits before the point. -/
  whole : List Char
  /-- The digits after the point, if there is a point. -/
  fraction : Option (List Char)
  /-- The power of ten, if one is given. -/
  exponent : Option Int

namespace Numeral

/-! ### Scanning -/

/-- One or more digits, and what follows them. -/
def scanDigits (cs : List Char) : Option (List Char × List Char) :=
  let digits := cs.takeWhile Char.isDigit
  if digits = [] then none else some (digits, cs.dropWhile Char.isDigit)

/-- The digits before the point. A leading 0 stands alone. -/
def scanWhole (cs : List Char) : Option (List Char × List Char) :=
  match scanDigits cs with
  | some ('0' :: _ :: _, _) => none
  | scanned => scanned

/-- A point with digits after it, if there is a point. -/
def scanFraction : List Char → Option (Option (List Char) × List Char)
  | '.' :: cs => (scanDigits cs).map fun (digits, rest) => (some digits, rest)
  | cs => some (none, cs)

/-- The sign of an exponent and what follows it; no sign is a plus. -/
def scanSign : List Char → Bool × List Char
  | '-' :: cs => (true, cs)
  | '+' :: cs => (false, cs)
  | cs => (false, cs)

/-- The digits of an exponent, with their sign. -/
def scanPower (cs : List Char) : Option (Option Int × List Char) :=
  let (negative, cs) := scanSign cs
  (scanDigits cs).map fun (digits, rest) =>
    let power : Int := Nat.ofDigitChars 10 digits 0
    (some (if negative then -power else power), rest)

/-- An exponent, if there is one. -/
def scanExponent : List Char → Option (Option Int × List Char)
  | 'e' :: cs => scanPower cs
  | 'E' :: cs => scanPower cs
  | cs => some (none, cs)

/-- A numeral without its sign, and what follows it. -/
def scanUnsigned (negative : Bool) (cs : List Char) : Option (Numeral × List Char) := do
  let (whole, cs) ← scanWhole cs
  let (fraction, cs) ← scanFraction cs
  let (exponent, cs) ← scanExponent cs
  return ({ negative, whole, fraction, exponent }, cs)

/-- A numeral and what follows it; nothing if the text does not begin
with a complete numeral. -/
def scan : List Char → Option (Numeral × List Char)
  | '-' :: cs => scanUnsigned true cs
  | cs => scanUnsigned false cs

/-! ### What a numeral denotes -/

/-- The integer that a numeral denotes. -/
def integer? (n : Numeral) : Option Int :=
  match n.fraction, n.exponent with
  | none, none =>
    let size := Nat.ofDigitChars 10 n.whole 0
    if n.negative then
      if size = 0 then none else some (-size)
    else some size
  | _, _ => none

/-- Appends digits to a number as long as it stays below `2 ^ 64`, and
gives back the digits that are left. -/
def absorb (number : Nat) : List Char → Nat × List Char
  | [] => (number, [])
  | c :: cs =>
    let longer := number * 10 + (c.toNat - '0'.toNat)
    if longer < 2 ^ 64 then absorb longer cs else (number, c :: cs)

/-- The number and the power of ten that a numeral is read as. Digits
before the point that are left out raise the power; those after the
point that are kept lower it. -/
def scaled (n : Numeral) : Nat × Int :=
  let (number, left) := absorb 0 n.whole
  let digits := n.fraction.getD []
  let (number, dropped) := absorb number digits
  let kept := digits.length - dropped.length
  (number, n.exponent.getD 0 + left.length - kept)

/-- Whether reading the numeral leads to infinity. -/
def overflows (n : Numeral) : Bool :=
  match n.scaled with
  | (number, .ofNat power) =>
    number != 0 &&
      (308 < power || (Binary64.ofCount number * Float.ofScientific 1 false power).isInf)
  | (_, .negSucc _) => false

/-! ### Scanning shortens the text -/

/-- Digits that were found are taken off the text. This and the lemmas on the other
parts make `scan` shorten what it reads. -/
theorem length_of_scanDigits {cs digits rest : List Char}
    (h : scanDigits cs = some (digits, rest)) : rest.length < cs.length := by
  simp only [scanDigits] at h
  split at h
  · contradiction
  · next ne =>
    cases h
    -- The digits and the rest make up the text, and there are digits.
    have parts : cs.takeWhile Char.isDigit ++ cs.dropWhile Char.isDigit = cs :=
      List.takeWhile_append_dropWhile
    have whole := congrArg List.length parts
    rw [List.length_append] at whole
    have := List.length_pos_iff.2 ne
    omega

/-- The part before the point has a digit at least. -/
theorem length_of_scanWhole {cs digits rest : List Char}
    (h : scanWhole cs = some (digits, rest)) : rest.length < cs.length := by
  unfold scanWhole at h
  split at h
  · contradiction
  · exact length_of_scanDigits h

/-- There may be no fraction, and then nothing is taken off. -/
theorem length_of_scanFraction {cs rest : List Char} {digits : Option (List Char)}
    (h : scanFraction cs = some (digits, rest)) : rest.length ≤ cs.length := by
  unfold scanFraction at h
  split at h
  · obtain ⟨⟨ds, r⟩, hs, hr⟩ := Option.map_eq_some_iff.1 h
    cases hr
    have := length_of_scanDigits hs
    simp only [List.length_cons]
    omega
  · cases h; exact Nat.le_refl _

/-- There may be no sign. -/
theorem length_scanSign_le (cs : List Char) : (scanSign cs).2.length ≤ cs.length := by
  unfold scanSign
  split <;> simp

/-- A power has a digit at least. -/
theorem length_of_scanPower {cs rest : List Char} {power : Option Int}
    (h : scanPower cs = some (power, rest)) : rest.length < cs.length := by
  simp only [scanPower] at h
  obtain ⟨⟨ds, r⟩, hs, hr⟩ := Option.map_eq_some_iff.1 h
  cases hr
  exact Nat.lt_of_lt_of_le (length_of_scanDigits hs) (length_scanSign_le cs)

/-- There may be no exponent. -/
theorem length_of_scanExponent {cs rest : List Char} {power : Option Int}
    (h : scanExponent cs = some (power, rest)) : rest.length ≤ cs.length := by
  unfold scanExponent at h
  split at h
  · have := length_of_scanPower h; simp only [List.length_cons]; omega
  · have := length_of_scanPower h; simp only [List.length_cons]; omega
  · cases h; exact Nat.le_refl _

/-- So a numeral that was found is taken off the text, with or without these parts. -/
theorem length_of_scanUnsigned {negative : Bool} {cs rest : List Char} {n : Numeral}
    (h : scanUnsigned negative cs = some (n, rest)) : rest.length < cs.length := by
  simp only [scanUnsigned, Option.bind_eq_bind, Option.bind_eq_some_iff] at h
  obtain ⟨⟨whole, r₁⟩, h₁, ⟨fraction, r₂⟩, h₂, ⟨power, r₃⟩, h₃, h₄⟩ := h
  cases h₄
  have : r₁.length < cs.length := length_of_scanWhole h₁
  have : r₂.length ≤ r₁.length := length_of_scanFraction h₂
  have : r₃.length ≤ r₂.length := length_of_scanExponent h₃
  show r₃.length < cs.length
  omega

/-- What follows a numeral is shorter than the text. -/
theorem length_of_scan {cs rest : List Char} {n : Numeral}
    (h : scan cs = some (n, rest)) : rest.length < cs.length := by
  unfold scan at h
  split at h
  · have := length_of_scanUnsigned h; simp only [List.length_cons]; omega
  · exact length_of_scanUnsigned h

end Numeral

end LogBuckets.Json
