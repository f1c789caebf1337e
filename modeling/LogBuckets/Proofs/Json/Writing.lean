import LogBuckets.Proofs.Json.Grammar
import Mathlib.Tactic.Common

/-!
# `LogBuckets.Proofs.Json.Writing`: writing without blanks

One way to write what `LogBuckets.Proofs.Json.Grammar` allows in many:

* `Numeral.literal_writtenAs`: an integer by its decimal digits, which have no
  leading 0 (`Numeral.isWhole_toDigits`);
* `Token.text_writtenAs`: a text of characters that need no escape by these
  characters;
* `WrittenAs.append` and `writtenAs_enclosed`: lists of tokens one after the
  other, and parts between two marks.
-/

set_option autoImplicit false

namespace LogBuckets.Json

/-! ### Integers -/

namespace Numeral

/-- The first digit of a positive number is not 0. -/
theorem head?_toDigits_ne {n : ℕ} (h : 0 < n) : (Nat.toDigits 10 n).head? ≠ some '0' := by
  induction n using Nat.strong_induction_on with
  | _ n ih =>
    by_cases hn : n < 10
    · have hdigit : ∀ d < 10, 0 < d → d.digitChar ≠ '0' := by decide
      rw [Nat.toDigits_of_lt_base hn]
      simpa using hdigit n hn h
    · -- The first digit is that of `n / 10`.
      have hquot : 0 < n / 10 := by omega
      rw [Nat.toDigits_of_base_le (by decide) (by omega),
        List.head?_append_of_ne_nil _ Nat.toDigits_ne_nil]
      exact ih (n / 10) (by omega) hquot

/-- Decimal digits are those of a numeral: there are some, and no 0 before others. -/
theorem isWhole_toDigits (n : ℕ) : IsWhole (Nat.toDigits 10 n) := by
  refine ⟨⟨Nat.toDigits_ne_nil, fun c hc => ?_⟩, fun hzero => ?_⟩
  · exact Nat.isDigit_of_mem_toDigits (by decide) (by decide) hc
  · rcases Nat.eq_zero_or_pos n with rfl | h
    · rfl
    · exact absurd hzero (head?_toDigits_ne h)

/-- The digits of an integer, after a minus if it is negative. -/
def literal (i : Int) : Numeral :=
  ⟨decide (i < 0), Nat.toDigits 10 i.natAbs, none, none⟩

/-- The digits of an integer stand for that integer. -/
theorem literal_isInteger (i : Int) : (literal i).IsInteger i := by
  have hdigits : Nat.ofDigitChars 10 (Nat.toDigits 10 i.natAbs) 0 = i.natAbs :=
    Nat.ofDigitChars_ten_toDigits
  by_cases h : i < 0
  · have hi := IsInteger.negative (Nat.toDigits 10 i.natAbs) (by omega)
    rw [hdigits, ← Int.eq_neg_natAbs_of_nonpos (Int.le_of_lt h)] at hi
    simpa [literal, h] using hi
  · have hi := IsInteger.positive (Nat.toDigits 10 i.natAbs)
    rw [hdigits, Int.natAbs_of_nonneg (Int.not_lt.1 h)] at hi
    simpa [literal, h] using hi

/-- The digits of an integer are how it is printed. -/
theorem literal_writtenAs (i : Int) : (literal i).WrittenAs i.repr.toList := by
  have hw := isWhole_toDigits i.natAbs
  rw [Int.repr_eq_if]
  by_cases h : i < 0
  · have hi := WrittenAs.negative hw .absent .absent
    have habs : (-i).toNat = i.natAbs := by omega
    rw [if_neg (Int.not_le.2 h), habs]
    simpa [literal, h] using hi
  · have hi := WrittenAs.positive hw .absent .absent
    have habs : i.toNat = i.natAbs := by omega
    rw [if_pos (Int.not_lt.1 h), habs]
    simpa [literal, h] using hi

end Numeral

/-! ### Texts -/

namespace Text

/-- A character that stands for itself. -/
def IsPlain (c : Char) : Prop :=
  c ≠ '"' ∧ c ≠ '\\' ∧ ¬ c < ' '

/-- Whether a character can stand for itself can be computed. -/
instance (c : Char) : Decidable (IsPlain c) :=
  inferInstanceAs (Decidable (_ ∧ _ ∧ _))

/-- Characters that stand for themselves are written as they are. -/
theorem writtenAs_map_char {cs : List Char} (h : ∀ c ∈ cs, IsPlain c) :
    WrittenAs (cs.map .char) cs := by
  induction cs with
  | nil => exact .nil
  | cons c cs ih =>
      obtain ⟨hquote, hbackslash, hcontrol⟩ := h c (by simp)
      exact .cons (.plain hquote hbackslash hcontrol) (ih fun c hc => h c (by simp [hc]))

/-- And they are read as they are. -/
theorem decode_map_char (cs : List Char) : decode (cs.map .char) = some cs := by
  induction cs with
  | nil => rfl
  | cons c cs ih => rw [List.map_cons, decode, ih]; rfl

end Text

/-- A text of such characters is written between quotes. -/
theorem Token.text_writtenAs {cs : List Char} (h : ∀ c ∈ cs, Text.IsPlain c) :
    Token.WrittenAs (.text (some cs)) ('"' :: (cs ++ ['"'])) := by
  rw [← Text.decode_map_char cs]
  exact .text (Text.writtenAs_map_char h)

/-! ### Lists of tokens -/

/-- A token alone is written like a list of one, without blanks. -/
theorem Token.WrittenAs.singleton {t : Token} {cs : List Char} (h : t.WrittenAs cs) :
    LogBuckets.Json.WrittenAs [t] cs := by
  have hnil : Blank [] := by simp [Blank]
  simpa using LogBuckets.Json.WrittenAs.cons hnil h (.nil hnil)

/-- A mark is written as its character. -/
theorem writtenAs_mark {m : Mark} {c : Char} (h : Mark.ofChar? c = some m) :
    WrittenAs [.mark m] [c] :=
  (Token.WrittenAs.mark h).singleton

/-- More blanks may stand in front. -/
theorem WrittenAs.blank_append {ts : List Token} {bs cs : List Char} (h : WrittenAs ts cs)
    (hb : Blank bs) : WrittenAs ts (bs ++ cs) := by
  have hboth {bs' : List Char} (hb' : Blank bs') : Blank (bs ++ bs') := by
    intro c hc
    exact (List.mem_append.1 hc).elim (hb c) (hb' c)
  cases h with
  | nil hb' => exact .nil (hboth hb')
  | cons hb' ht hrest =>
      rw [← List.append_assoc]
      exact .cons (hboth hb') ht hrest

/-- One list of tokens is written after another without anything between them. -/
theorem WrittenAs.append {ts ts' : List Token} {cs cs' : List Char} (h : WrittenAs ts cs)
    (h' : WrittenAs ts' cs') : WrittenAs (ts ++ ts') (cs ++ cs') := by
  induction h with
  | nil hb => exact h'.blank_append hb
  | cons hb ht _ ih =>
      rw [List.append_assoc, List.append_assoc]
      exact .cons hb ht ih

/-- A key and its value are written with a colon between them. -/
theorem writtenAs_member {key value : List Char} {ts : List Token}
    (hkey : ∀ c ∈ key, Text.IsPlain c) (hvalue : WrittenAs ts value) :
    WrittenAs (member (some key) ts) ('"' :: (key ++ '"' :: ':' :: value)) := by
  have hcolon : WrittenAs [.mark .colon] [':'] := writtenAs_mark rfl
  have h := (Token.text_writtenAs hkey).singleton.append (hcolon.append hvalue)
  simpa [member] using h

/-- Parts that are written one by one are written with commas between them. -/
theorem writtenAs_intercalate {α : Type} {part : α → List Token} {text : α → List Char}
    (h : ∀ x, WrittenAs (part x) (text x)) (xs : List α) :
    WrittenAs ([.mark .comma].intercalate (xs.map part)) ([','].intercalate (xs.map text)) := by
  have hcomma : WrittenAs [.mark .comma] [','] := writtenAs_mark rfl
  induction xs with
  | nil => exact .nil (by simp [Blank])
  | cons x xs ih =>
      -- There is a comma only if another part follows.
      cases xs with
      | nil => simpa using h x
      | cons y ys =>
          simp only [List.map_cons, List.intercalate_cons_cons] at ih ⊢
          exact ((h x).append hcomma).append ih

/-- Parts between two marks are written between the characters of the marks, with commas
between them. -/
theorem writtenAs_enclosed {α : Type} {first last : Mark} {c c' : Char} {part : α → List Token}
    {text : α → List Char} (hfirst : Mark.ofChar? c = some first)
    (hlast : Mark.ofChar? c' = some last) (h : ∀ x, WrittenAs (part x) (text x)) (xs : List α) :
    WrittenAs (enclosed first last (xs.map part))
      (c :: ([','].intercalate (xs.map text) ++ [c'])) := by
  have hparts := writtenAs_intercalate h xs
  exact (writtenAs_mark hfirst).append (hparts.append (writtenAs_mark hlast))

end LogBuckets.Json
