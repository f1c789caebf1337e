import LogBuckets.Proofs.Json.Grammar

/-!
# `LogBuckets.Proofs.Json.Tokens`: tokens are read as they were written

Every scanner of `LogBuckets.Json` takes the longest beginning of a text that
it can. Where what was written ends is therefore a question about what comes
next: digits end before anything but a digit, and a numeral before anything
but a digit, a point and the letter `e`. All other tokens have an end of their
own.

* `Numeral.scan_append`, `Text.scan_append`: a numeral and a text are taken
  off the front, and nothing of what follows;
* `Token.next_append`: so is every token;
* `tokens_of_writtenAs`: hence a list of tokens in which the numerals stand
  apart is read back from any way of writing it.
-/

set_option autoImplicit false

namespace LogBuckets.Json

namespace Numeral

/-! ### Numerals -/

/-- Digits end before `rest`. -/
def NoDigit (rest : List Char) : Prop :=
  ∀ c ∈ rest.head?, c.isDigit = false

/-- Numerals end before `rest`. -/
def Delimited (rest : List Char) : Prop :=
  ∀ c ∈ rest.head?, c.isDigit = false ∧ c ≠ '.' ∧ c ≠ 'e' ∧ c ≠ 'E'

/-- Where numerals end, digits do. -/
theorem Delimited.noDigit {rest : List Char} (h : Delimited rest) : NoDigit rest :=
  fun c hc => (h c hc).1

/-- Digits are taken off the front, all of them. -/
theorem scanDigits_append {digits rest : List Char} (h : IsDigits digits)
    (hrest : NoDigit rest) : scanDigits (digits ++ rest) = some (digits, rest) := by
  have hend : rest.takeWhile Char.isDigit = [] ∧ rest.dropWhile Char.isDigit = rest := by
    cases rest with
    | nil => exact ⟨rfl, rfl⟩
    | cons c rest => simp [hrest c rfl]
  rw [scanDigits, List.takeWhile_append_of_pos h.2, List.dropWhile_append_of_pos h.2, hend.1,
    hend.2, List.append_nil, if_neg h.1]

/-- So is the part before the point. Only a single 0 may begin with 0. -/
theorem scanWhole_append {whole rest : List Char} (h : IsWhole whole) (hrest : NoDigit rest) :
    scanWhole (whole ++ rest) = some (whole, rest) := by
  rw [scanWhole, scanDigits_append h.1 hrest]
  split
  · next heq =>
      -- More digits after a leading 0 are not written.
      cases heq
      exact absurd (h.2 rfl) (by simp)
  · rfl

/-- So is a fraction. Where there is none, no point may follow. -/
theorem scanFraction_append {fraction : Option (List Char)} {cs rest : List Char}
    (h : FractionWrittenAs fraction cs) (hrest : NoDigit rest)
    (hpoint : rest.head? ≠ some '.') : scanFraction (cs ++ rest) = some (fraction, rest) := by
  cases h with
  | absent =>
      unfold scanFraction
      split
      · next heq => rw [List.nil_append] at heq; simp [heq] at hpoint
      · rfl
  | present h =>
      rw [List.cons_append, scanFraction, scanDigits_append h hrest]
      rfl

/-- Digits do not begin with a sign. -/
theorem IsDigits.scanSign_append {digits : List Char} (h : IsDigits digits)
    (rest : List Char) : scanSign (digits ++ rest) = (false, digits ++ rest) := by
  obtain ⟨hne, hdigit⟩ := h
  cases digits with
  | nil => exact absurd rfl hne
  | cons c cs =>
      have hc := hdigit c (by simp)
      unfold scanSign
      -- The digit is neither a plus nor a minus.
      split
      · next heq => cases heq; exact absurd hc (by decide)
      · next heq => cases heq; exact absurd hc (by decide)
      · rfl

/-- So is a power, with a sign or without one. -/
theorem scanPower_append {power : Int} {cs rest : List Char} (h : PowerWrittenAs power cs)
    (hrest : NoDigit rest) : scanPower (cs ++ rest) = some (some power, rest) := by
  cases h with
  | unsigned h => simp [scanPower, h.scanSign_append, scanDigits_append h hrest]
  | positive h => simp [scanPower, scanSign, scanDigits_append h hrest]
  | negative h => simp [scanPower, scanSign, scanDigits_append h hrest]

/-- So is an exponent. Where there is none, neither letter for one may follow. -/
theorem scanExponent_append {exponent : Option Int} {cs rest : List Char}
    (h : ExponentWrittenAs exponent cs) (hrest : Delimited rest) :
    scanExponent (cs ++ rest) = some (exponent, rest) := by
  cases h with
  | absent =>
      rw [List.nil_append]
      unfold scanExponent
      split
      · exact absurd rfl (hrest 'e' rfl).2.2.1
      · exact absurd rfl (hrest 'E' rfl).2.2.2
      · rfl
  | lower h => exact scanPower_append h hrest.noDigit
  | upper h => exact scanPower_append h hrest.noDigit

/-- Neither a fraction nor an exponent begins with a digit. -/
theorem noDigit_fraction {fraction : Option (List Char)} {exponent : Option Int}
    {fs es rest : List Char} (hf : FractionWrittenAs fraction fs)
    (he : ExponentWrittenAs exponent es) (hrest : Delimited rest) :
    NoDigit (fs ++ (es ++ rest)) := by
  cases hf with
  | absent =>
      cases he with
      | absent => exact hrest.noDigit
      | lower h => rintro c ⟨⟩; rfl
      | upper h => rintro c ⟨⟩; rfl
  | present h => rintro c ⟨⟩; rfl

/-- An exponent, if there is one, ends a fraction: it begins with a letter. -/
theorem noDigit_exponent {exponent : Option Int} {es rest : List Char}
    (he : ExponentWrittenAs exponent es) (hrest : Delimited rest) :
    NoDigit (es ++ rest) ∧ (es ++ rest).head? ≠ some '.' := by
  cases he with
  | absent =>
      exact ⟨hrest.noDigit, fun h => (hrest '.' h).2.1 rfl⟩
  | lower h => exact ⟨by rintro c ⟨⟩; rfl, by simp⟩
  | upper h => exact ⟨by rintro c ⟨⟩; rfl, by simp⟩

/-- All parts of a numeral are taken off the front, one after the other. -/
theorem scanUnsigned_append {whole fs es rest : List Char} {fraction : Option (List Char)}
    {exponent : Option Int} (negative : Bool) (hw : IsWhole whole)
    (hf : FractionWrittenAs fraction fs) (he : ExponentWrittenAs exponent es)
    (hrest : Delimited rest) :
    scanUnsigned negative (whole ++ (fs ++ (es ++ rest)))
      = some (⟨negative, whole, fraction, exponent⟩, rest) := by
  obtain ⟨hdigit, hpoint⟩ := noDigit_exponent he hrest
  simp [scanUnsigned, scanWhole_append hw (noDigit_fraction hf he hrest),
    scanFraction_append hf hdigit hpoint, scanExponent_append he hrest]

/-- A numeral is taken off the front of a text as it was written. -/
theorem scan_append {n : Numeral} {cs rest : List Char} (h : n.WrittenAs cs)
    (hrest : Delimited rest) : scan (cs ++ rest) = some (n, rest) := by
  cases h with
  | negative hw hf he =>
      have hscan := scanUnsigned_append true hw hf he hrest
      simpa [scan] using hscan
  | positive hw hf he =>
      have hscan := scanUnsigned_append false hw hf he hrest
      obtain ⟨⟨hne, hdigit⟩, -⟩ := hw
      rename_i whole fs es fraction exponent
      cases whole with
      | nil => exact absurd rfl hne
      | cons c whole =>
          -- The first character is a digit, and so not the minus.
          have hc := hdigit c (by simp)
          unfold scan
          split
          · next heq => cases heq; exact absurd hc (by decide)
          · simpa using hscan

end Numeral

namespace Text

/-! ### Texts -/

/-- A piece of a text has its own end, so anything may follow it. -/
theorem scanPiece_append {piece : Piece} {cs : List Char} (h : PieceWrittenAs piece cs)
    (rest : List Char) : scanPiece (cs ++ rest) = some (piece, rest) := by
  cases h with
  | plain hquote hbackslash hcontrol =>
      simp [scanPiece, hbackslash, hcontrol]
  | short h =>
      rename_i e c
      have hu : e ≠ 'u' := by
        rintro rfl
        cases h
      simp [scanPiece, hu, h]
  | unit h => simp [scanPiece, h]

/-- No piece begins with the quote that ends a text. -/
theorem PieceWrittenAs.exists_cons {piece : Piece} {cs : List Char}
    (h : PieceWrittenAs piece cs) : ∃ c cs', cs = c :: cs' ∧ c ≠ '"' := by
  cases h with
  | plain hquote hbackslash hcontrol => exact ⟨_, _, rfl, hquote⟩
  | short h => exact ⟨_, _, rfl, by decide⟩
  | unit h => exact ⟨_, _, rfl, by decide⟩

/-- A text is taken off the front of a longer one up to its quote. -/
theorem scan_append {pieces : List Piece} {cs : List Char} (h : WrittenAs pieces cs)
    (rest : List Char) : scan (cs ++ '"' :: rest) = some (pieces, rest) := by
  induction h with
  | nil => simp [scan]
  | cons h hrest ih =>
      rename_i piece pieces cs cs'
      -- The first piece ends before the rest, and does not begin with a quote.
      have hpiece := scanPiece_append h (cs' ++ '"' :: rest)
      obtain ⟨c, cs, rfl, hc⟩ := h.exists_cons
      rw [List.append_assoc]
      rw [List.cons_append] at hpiece ⊢
      unfold scan
      split
      · next heq => cases heq; exact absurd rfl hc
      · split
        · next hnone => rw [hpiece] at hnone; cases hnone
        · next hsome =>
            rw [hpiece] at hsome
            cases hsome
            rw [ih]
            rfl

end Text

/-! ### Tokens -/

/-- Where a token ends if `rest` follows: that matters to numerals alone. -/
def Token.EndsBefore (t : Token) (rest : List Char) : Prop :=
  (∃ n, t = .numeral n) → Numeral.Delimited rest

/-- The six characters that are marks. -/
theorem Mark.mem_of_ofChar? {m : Mark} {c : Char} (h : Mark.ofChar? c = some m) :
    c ∈ ['{', '}', '[', ']', ':', ','] := by
  unfold Mark.ofChar? at h
  split at h <;> simp at h ⊢

/-- The three letters that words begin with. -/
theorem Token.mem_of_wordTail? {c : Char} {tail : List Char}
    (h : Token.wordTail? c = some tail) : c ∈ ['n', 't', 'f'] := by
  unfold Token.wordTail? at h
  split at h <;> simp at h ⊢

/-- The four characters that are blank. -/
theorem isBlank_iff {c : Char} :
    isBlank c = true ↔ c = ' ' ∨ c = '\n' ∨ c = '\t' ∨ c = '\r' := by
  simp [isBlank, or_assoc]

/-- The first character of a numeral. -/
theorem Numeral.WrittenAs.exists_cons {n : Numeral} {cs : List Char} (h : n.WrittenAs cs) :
    ∃ c cs', cs = c :: cs' ∧ (c.isDigit = true ∨ c = '-') := by
  cases h with
  | negative hw hf he => exact ⟨_, _, rfl, Or.inr rfl⟩
  | positive hw hf he =>
      obtain ⟨⟨hne, hdigit⟩, -⟩ := hw
      obtain ⟨c, cs, rfl⟩ := List.exists_cons_of_ne_nil hne
      exact ⟨c, _, rfl, Or.inl (hdigit c (by simp))⟩

/-- No other token begins with that character, and it is no blank. -/
theorem Token.next_of_numeral {c : Char} {cs rest : List Char} {n : Numeral}
    (hc : c.isDigit = true ∨ c = '-') (h : Numeral.scan (c :: cs) = some (n, rest)) :
    isBlank c = false ∧ Token.next c cs = (.numeral n, rest) := by
  -- Neither a digit nor the minus begins a mark, a word, a text or a blank.
  have hother : ∀ c ∈ ['{', '}', '[', ']', ':', ','] ++
      (['n', 't', 'f'] ++ ['"', ' ', '\n', '\t', '\r']),
      ¬ (c.isDigit = true ∨ c = '-') := by simp
  have hmark : Mark.ofChar? c = none := by
    refine Option.eq_none_iff_forall_ne_some.2 fun m hm => hother c ?_ hc
    exact List.mem_append_left _ (Mark.mem_of_ofChar? hm)
  have hword : Token.wordTail? c = none := by
    refine Option.eq_none_iff_forall_ne_some.2 fun tail htail => hother c ?_ hc
    exact List.mem_append_right _ (List.mem_append_left _ (Token.mem_of_wordTail? htail))
  have hquote : c ≠ '"' := fun heq => hother c (by simp [heq]) hc
  have hblank : isBlank c = false := by
    rw [← Bool.not_eq_true, isBlank_iff]
    intro heq
    exact hother c (by simp [heq]) hc
  exact ⟨hblank, by simp [Token.next, hmark, hword, hquote, h]⟩

/-- A token is written with a first character that is not blank, and is read from
it on up to its end. -/
theorem Token.next_append {t : Token} {cs rest : List Char} (h : t.WrittenAs cs)
    (hend : t.EndsBefore rest) :
    ∃ c cs', cs = c :: cs' ∧ isBlank c = false ∧ Token.next c (cs' ++ rest) = (t, rest) := by
  cases h with
  | mark h =>
      rename_i m c
      have hblank : ∀ c ∈ ['{', '}', '[', ']', ':', ','], isBlank c = false := by simp [isBlank]
      exact ⟨c, [], rfl, hblank c (Mark.mem_of_ofChar? h), by simp [Token.next, h]⟩
  | null => exact ⟨_, _, rfl, rfl, by simp [Token.next, Mark.ofChar?, Token.wordTail?]⟩
  | true => exact ⟨_, _, rfl, rfl, by simp [Token.next, Mark.ofChar?, Token.wordTail?]⟩
  | false => exact ⟨_, _, rfl, rfl, by simp [Token.next, Mark.ofChar?, Token.wordTail?]⟩
  | text h =>
      refine ⟨_, _, rfl, rfl, ?_⟩
      simp [Token.next, Mark.ofChar?, Text.scan_append h]
  | numeral h =>
      have hscan := Numeral.scan_append h (hend ⟨_, rfl⟩)
      obtain ⟨c, cs, rfl, hc⟩ := h.exists_cons
      exact ⟨c, cs, rfl, Token.next_of_numeral hc hscan⟩

/-! ### Lists of tokens -/

/-- Blanks in front are passed over. -/
theorem tokens_blank_append {bs : List Char} (h : Blank bs) (cs : List Char) :
    tokens (bs ++ cs) = tokens cs := by
  induction bs with
  | nil => rfl
  | cons b bs ih =>
      have hb : isBlank b = true := isBlank_iff.2 (h b (by simp))
      rw [List.cons_append, tokens, if_pos hb]
      exact ih fun c hc => h c (by simp [hc])

/-- A token is taken off the front of a text, if it can end before what follows it. -/
theorem tokens_append {t : Token} {cs rest : List Char} (h : t.WrittenAs cs)
    (hend : t.EndsBefore rest) : tokens (cs ++ rest) = t :: tokens rest := by
  obtain ⟨c, cs, rfl, hblank, hnext⟩ := Token.next_append h hend
  rw [List.cons_append, tokens, if_neg (by simp [hblank]), hnext]

/-- A numeral ends before blanks, marks and the end of the text. -/
theorem WrittenAs.delimited {ts : List Token} {cs : List Char} (h : WrittenAs ts cs)
    (hmark : ∀ t ∈ ts.head?, ∃ m, t = .mark m) : Numeral.Delimited cs := by
  -- Blanks end a numeral, and so does whatever may follow where there are none.
  have hblank : ∀ {bs cs}, Blank bs → Numeral.Delimited cs → Numeral.Delimited (bs ++ cs) := by
    intro bs cs hb hcs
    cases bs with
    | nil => exact hcs
    | cons b bs =>
        rintro c ⟨⟩
        rcases hb b (by simp) with rfl | rfl | rfl | rfl <;> decide
  cases h with
  | nil hb =>
      have hnil : Numeral.Delimited [] := by rintro c ⟨⟩
      simpa using hblank hb hnil
  | cons hb ht hrest =>
      refine hblank hb ?_
      obtain ⟨m, rfl⟩ := hmark _ rfl
      cases ht with
      | mark h =>
          have hend : ∀ c ∈ ['{', '}', '[', ']', ':', ','],
              c.isDigit = false ∧ c ≠ '.' ∧ c ≠ 'e' ∧ c ≠ 'E' := by simp
          intro c hc
          obtain rfl := Option.some.inj hc
          exact hend _ (Mark.mem_of_ofChar? h)

/-- Tokens are read back from any way of writing them, if numerals stand apart. -/
theorem tokens_of_writtenAs {ts : List Token} {cs : List Char} (h : WrittenAs ts cs)
    (hapart : Apart ts) : tokens cs = ts := by
  induction h with
  | nil hb => simpa [tokens] using tokens_blank_append hb []
  | cons hb ht hrest ih =>
      obtain ⟨hnext, htail⟩ := List.isChain_cons.1 hapart
      have hend : Token.EndsBefore _ _ := fun hn => hrest.delimited fun t' ht' => hnext t' ht' hn
      rw [tokens_blank_append hb, tokens_append ht hend, ih htail]

end LogBuckets.Json
