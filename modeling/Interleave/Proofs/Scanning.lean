import Interleave.Expr.Printer
import Interleave.Proofs.Grammar
import Mathlib.Algebra.Group.Nat.Defs

/-!
# Scanning written text

What the scan makes of a text that was put together from tokens. A word is cut off where the first
character follows that cannot stand in a word, and a string where the first quote follows that no
backslash protects. So a word is found again if what follows it is no part of a word
(`Token.scanFrom_word`), and a string with escapes before its quotes and backslashes is found again
whatever it contains (`splitString_escape`). Conversely, every word that the scan finds is a word
(`Token.isWord_of_mem_lexemes`).

Reading undoes what writing does to an atom: `unescape_escape` for strings, `Numeral.value_chars`
for numbers.

## Yields

How a scan goes on behind a token is said by `Scan.Yields`: one scan gives some lexemes and then
what another one gives, and both end at the same open quote, if at any. Yields compose, so the scan
of a written compound is put together from those of its parts. Offsets are left out, since texts are
compared at different places.

What follows a token matters only for words. A word that is followed by a delimiter ends there, and
a parenthesis and a string end by themselves.
-/

namespace Interleave

namespace Token

/-! ## Words -/

/-- The characters are those of a word. -/
def IsWord (cs : List Char) : Prop :=
  cs ≠ [] ∧ ∀ c ∈ cs, isWordChar c = true

instance (cs : List Char) : Decidable (IsWord cs) :=
  decidable_of_iff (cs.isEmpty = false ∧ cs.all isWordChar = true) (by simp [IsWord])

/-- A word that stands before the text ends there. -/
def Delimits (cs : List Char) : Prop :=
  ∀ c ∈ cs.head?, isWordChar c = false

theorem delimits_nil : Delimits [] := nofun

theorem delimits_cons {c : Char} {cs : List Char} (h : isWordChar c = false) :
    Delimits (c :: cs) := by
  rintro c' ⟨⟩
  exact h

theorem isWordChar_iff {c : Char} :
    isWordChar c = true ↔
      Text.isBlank c = false ∧ c ≠ '(' ∧ c ≠ ')' ∧ c ≠ '"' ∧ c ≠ ';' := by
  simp [isWordChar, and_assoc]

theorem takeWhile_isWordChar {cs rest : List Char} (hcs : ∀ c ∈ cs, isWordChar c = true)
    (hrest : Delimits rest) : (cs ++ rest).takeWhile isWordChar = cs := by
  rw [List.takeWhile_append_of_pos hcs]
  cases rest with
  | nil => simp
  | cons c rest => simp [hrest c rfl]

theorem dropWhile_isWordChar {cs rest : List Char} (hcs : ∀ c ∈ cs, isWordChar c = true)
    (hrest : Delimits rest) : (cs ++ rest).dropWhile isWordChar = rest := by
  rw [List.dropWhile_append_of_pos hcs]
  cases rest with
  | nil => rfl
  | cons c rest => simp [hrest c rfl]

/-! ## One token in front -/

/-- The first scan gives some lexemes and then what the second gives. -/
structure Scan.Yields (s : Scan) (ls : List Lexeme) (s' : Scan) : Prop where
  /-- The lexemes stand in front of those of the second scan. -/
  lexemes : s.lexemes = ls ++ s'.lexemes
  /-- Both end at the same open quote, if at any. -/
  openQuote : s.openQuote = s'.openQuote

theorem Scan.Yields.refl (s : Scan) : s.Yields [] s := ⟨rfl, rfl⟩

theorem Scan.Yields.trans {s s' s'' : Scan} {ls ls' : List Lexeme} (h : s.Yields ls s')
    (h' : s'.Yields ls' s'') : s.Yields (ls ++ ls') s'' :=
  ⟨by rw [h.lexemes, h'.lexemes, List.append_assoc], h.openQuote.trans h'.openQuote⟩

theorem Scan.yields_cons (t : Token) (s : Scan) : (s.cons t).Yields [t.lexeme] s := ⟨rfl, rfl⟩

variable {offset : Nat} {cs rest : List Char}

theorem scanFrom_blank {c : Char} (hc : Text.isBlank c = true) :
    scanFrom offset (c :: cs) = scanFrom (offset + 1) cs := by
  rw [scanFrom, if_pos hc]

theorem scanFrom_opening :
    scanFrom offset ('(' :: cs) = (scanFrom (offset + 1) cs).cons ⟨.opening, "(", offset⟩ := by
  rw [scanFrom, if_neg (by decide), if_neg (by decide), if_pos rfl]

theorem scanFrom_closing :
    scanFrom offset (')' :: cs) = (scanFrom (offset + 1) cs).cons ⟨.closing, ")", offset⟩ := by
  rw [scanFrom, if_neg (by decide), if_neg (by decide), if_neg (by decide), if_pos rfl]

theorem scanFrom_string {body : List Char} (h : splitString cs = some (body, rest)) :
    scanFrom offset ('"' :: cs) = (scanFrom (offset + body.length + 2) rest).cons
      ⟨.string, String.ofList ('"' :: body ++ ['"']), offset⟩ := by
  rw [scanFrom, if_neg (by decide), if_neg (by decide), if_neg (by decide), if_neg (by decide),
    if_pos rfl]
  split <;> simp_all

theorem scanFrom_word (hcs : IsWord cs) (hrest : Delimits rest) :
    scanFrom offset (cs ++ rest) =
      (scanFrom (offset + cs.length) rest).cons ⟨.word, String.ofList cs, offset⟩ := by
  obtain ⟨hne, hall⟩ := hcs
  cases cs with
  | nil => exact absurd rfl hne
  | cons c cs =>
    obtain ⟨hblank, hopening, hclosing, hquote, hcomment⟩ :=
      isWordChar_iff.mp (hall c List.mem_cons_self)
    have hcs : ∀ c ∈ cs, isWordChar c = true := fun c hc ↦ hall c (List.mem_cons_of_mem _ hc)
    rw [List.cons_append, scanFrom, if_neg (Bool.eq_false_iff.mp hblank), if_neg hcomment,
      if_neg hopening, if_neg hclosing, if_neg hquote, takeWhile_isWordChar hcs hrest,
      dropWhile_isWordChar hcs hrest, List.length_cons, Nat.add_assoc, Nat.add_comm 1]

/-- A scan that comes to the end of the text gives some lexemes, and no quote is left open. -/
theorem scan_of_yields {ls : List Lexeme}
    (h : (scanFrom 0 (cs ++ [])).Yields ls (scanFrom offset [])) :
    (scan (String.ofList cs)).openQuote = none ∧ (scan (String.ofList cs)).lexemes = ls := by
  rw [List.append_nil, scanFrom.eq_1 offset] at h
  rw [scan, String.toList_ofList, h.openQuote, h.lexemes]
  exact ⟨rfl, List.append_nil _⟩

theorem isWord_of_mem_lexemes {word : String}
    (h : (Kind.word, word) ∈ (scanFrom offset cs).lexemes) : IsWord word.toList := by
  fun_induction scanFrom offset cs with
  | case1 => cases h
  | case2 offset c rest _ ih => exact ih h
  | case3 offset rest _ ih => exact ih h
  | case4 offset rest _ _ ih =>
    rcases List.mem_cons.mp h with h | h
    · cases h
    · exact ih h
  | case5 offset rest _ _ _ ih =>
    rcases List.mem_cons.mp h with h | h
    · cases h
    · exact ih h
  | case6 => cases h
  | case7 offset rest _ _ _ _ body after _ ih =>
    rcases List.mem_cons.mp h with h | h
    · cases h
    · exact ih h
  | case8 offset c rest hblank hcomment hopening hclosing hquote ih =>
    rcases List.mem_cons.mp h with h | h
    · cases h
      have hc : isWordChar c = true :=
        isWordChar_iff.mpr ⟨Bool.eq_false_iff.mpr hblank, hopening, hclosing, hquote, hcomment⟩
      rw [String.toList_ofList]
      refine ⟨List.cons_ne_nil _ _, List.forall_mem_cons.mpr ⟨hc, ?_⟩⟩
      exact List.all_eq_true.mp List.all_takeWhile
    · exact ih h

end Token

/-! ## Strings -/

theorem Expr.escape_cons (c : Char) (cs : List Char) :
    Expr.escape (c :: cs) = (if c = '"' ∨ c = '\\' then ['\\', c] else [c]) ++ Expr.escape cs :=
  List.flatMap_cons

theorem splitString_escape (cs rest : List Char) :
    Token.splitString (Expr.escape cs ++ '"' :: rest) = some (Expr.escape cs, rest) := by
  induction cs with
  | nil => rfl
  | cons c cs ih =>
    rw [Expr.escape_cons]
    split
    · simp [Token.splitString, ih]
    · rename_i hc
      rw [not_or] at hc
      simp [Token.splitString, ih, hc]

theorem unescape_escape (cs : List Char) : unescape (Expr.escape cs) = cs := by
  induction cs with
  | nil => rfl
  | cons c cs ih =>
    rw [Expr.escape_cons]
    split
    · rename_i hc
      rcases hc with rfl | rfl
      · simp [unescape, unescapeChar, ih]
      · simp [unescape, unescapeChar, ih]
    · rename_i hc
      rw [not_or] at hc
      simp [unescape, ih, hc]

/-- A string token with escapes before quotes and backslashes stands for its contents. -/
theorem readString_escape (s : String) :
    readString (String.ofList ('"' :: Expr.escape s.toList ++ ['"'])) = .string s := by
  simp [readString, unescape_escape]

/-! ## Numerals -/

namespace Numeral

theorem isWordChar_of_isDigit {c : Char} (h : c.isDigit = true) : Token.isWordChar c = true := by
  have hc := Char.isDigit_iff_toNat.mp h
  have hzero : '0'.toNat = 48 := rfl
  have hnine : '9'.toNat = 57 := rfl
  have hblank : Text.isBlank c = false := by
    rw [Bool.eq_false_iff, Text.isBlank, ne_eq, Text.inRanges_iff]
    simp only [Text.blankRanges, List.mem_cons, List.not_mem_nil, or_false, exists_eq_or_imp,
      exists_eq_left]
    omega
  refine Token.isWordChar_iff.mpr ⟨hblank, ?_, ?_, ?_, ?_⟩ <;>
  · rintro rfl
    exact absurd h (by decide)

theorem isDigit_toDigits {n : Nat} : ∀ c ∈ Nat.toDigits 10 n, c.isDigit = true :=
  fun _ hc ↦ Nat.isDigit_of_mem_toDigits (by decide) (by decide) hc

theorem toDigits_ne_minus {n : Nat} {ds : List Char} : Nat.toDigits 10 n ≠ '-' :: ds := by
  intro h
  have hmem : '-' ∈ Nat.toDigits 10 n := h ▸ List.mem_cons_self
  exact absurd (isDigit_toDigits '-' hmem) (by decide)

theorem magnitude_chars (n : Int) : magnitude (chars n) = Nat.toDigits 10 n.natAbs := by
  cases n with
  | ofNat n =>
    rw [chars, magnitude.eq_def]
    split
    · rename_i h
      exact absurd h toDigits_ne_minus
    · rfl
  | negSucc n => rfl

theorem value_chars (n : Int) : value (chars n) = n := by
  cases n with
  | ofNat n =>
    rw [chars, value.eq_def]
    split
    · rename_i h
      exact absurd h toDigits_ne_minus
    · rw [Nat.ofDigitChars_ten_toDigits]
      rfl
  | negSucc n =>
    rw [chars, value, Nat.ofDigitChars_ten_toDigits]
    rfl

theorem isNumeral_chars (n : Int) : isNumeral (chars n) = true := by
  rw [isNumeral, magnitude_chars, Bool.and_eq_true, Bool.not_eq_true', List.isEmpty_eq_false_iff,
    List.all_eq_true]
  exact ⟨Nat.toDigits_ne_nil, isDigit_toDigits⟩

theorem isWord_chars (n : Int) : Token.IsWord (chars n) := by
  have hdigits : ∀ n : Nat, ∀ c ∈ Nat.toDigits 10 n, Token.isWordChar c = true :=
    fun n c hc ↦ isWordChar_of_isDigit (isDigit_toDigits c hc)
  cases n with
  | ofNat n => exact ⟨Nat.toDigits_ne_nil, hdigits n⟩
  | negSucc n => exact ⟨List.cons_ne_nil _ _, List.forall_mem_cons.mpr ⟨by decide, hdigits (n + 1)⟩⟩

/-- An integer is too long exactly when it has more digits than the cap allows. -/
theorem isTooLong_eq_false_iff {n : Int} :
    isTooLong n = false ↔ (Nat.toDigits 10 n.natAbs).length ≤ maxDigits := by
  have hpos : 0 < maxDigits := by decide
  rw [isTooLong, decide_eq_false_iff_not, Nat.not_le]
  unfold bound
  -- nothing about the limit matters but that it is positive
  generalize maxDigits = limit at hpos ⊢
  exact (Nat.length_toDigits_le_iff (by decide) hpos).symm

end Numeral

end Interleave
