import Interleave.Proofs.Lexing
import Mathlib.Data.List.Forall2

/-!
# Spellings of expressions

How an expression may be spelled, said of one expression at a time: a number, a string or a
reference by one lexeme, and a compound by an opening parenthesis, the spellings of its elements one
after the other, and a closing parenthesis (`Expr.SpelledBy`). A text is read as a program if and
only if its lexemes are the spellings of the expressions of the program, one after the other, and no
sequence of lexemes spells two programs (`reading_accepts_spellings_of_one_program`).

The relation `Spells` describes the same sequences of lexemes from left to right, for lexemes of any
texts. What is added here is the shape of the texts that the scan gives.

## Why a second relation

`Spells` goes over a whole sequence of lexemes, as the reader does. It is not how one says what a
single expression looks like. `Expr.SpelledBy` is, since it goes by the parts of one expression;
each of the two is shown to give the other. Words and strings are described by their characters
here, so that the whole can be read without knowing the scan: an integer is an optional minus sign
and digits, with the value that they have in decimal.
-/

namespace Interleave

/-! ## Integers -/

/-- The word is an integer in decimal, with the given digits and the given value: at least one
digit, all from `0` to `9`, perhaps after a minus sign. -/
inductive IsInteger : (word digits : List Char) → Int → Prop where
  | plain {digits : List Char} (hne : digits ≠ []) (hdigits : ∀ d ∈ digits, '0' ≤ d ∧ d ≤ '9') :
    IsInteger digits digits (Nat.ofDigitChars 10 digits 0)
  | minus {digits : List Char} (hne : digits ≠ []) (hdigits : ∀ d ∈ digits, '0' ≤ d ∧ d ≤ '9') :
    IsInteger ('-' :: digits) digits (-Nat.ofDigitChars 10 digits 0)

/-- The expression may be spelled by the lexemes. -/
inductive Expr.SpelledBy : Expr → List Token.Lexeme → Prop where
  /-- A number is spelled by a word of the form of an integer that is not too long. -/
  | number {word : String} {digits : List Char} {n : Int} (h : IsInteger word.toList digits n)
    (hlen : digits.length ≤ Numeral.maxDigits) : SpelledBy (.number n) [(.word, word)]
  /-- A string is spelled by a string token whose body has the contents when escapes are undone. -/
  | string (body : List Char) :
    SpelledBy (.string (String.ofList (unescape body)))
      [(.string, String.ofList ('"' :: body ++ ['"']))]
  /-- A reference is spelled by its name, if that has not the form of an integer and does not begin
  with a digit. -/
  | reference {name : String}
    (hform : ∀ digits n, ¬IsInteger name.toList digits n)
    (hdigit : ∀ c ∈ name.toList.head?, Text.isDigit c = false) :
    SpelledBy (.reference name) [(.word, name)]
  /-- A compound is spelled by its elements between parentheses. -/
  | compound {elements : List Expr} {spellings : List (List Token.Lexeme)}
    (h : List.Forall₂ SpelledBy elements spellings) :
    SpelledBy (.compound elements)
      ((.opening, "(") :: spellings.flatten ++ [(.closing, ")")])

/-! ## Integers and numerals -/

theorem isDigit_iff {d : Char} : d.isDigit = true ↔ '0' ≤ d ∧ d ≤ '9' := by
  rw [Char.isDigit, Bool.and_eq_true, decide_eq_true_iff, decide_eq_true_iff]
  rfl

/-- The words that are integers are the numerals, with their digits and values. -/
theorem isInteger_iff {word digits : List Char} {n : Int} :
    IsInteger word digits n ↔ Numeral.isNumeral word = true ∧
      Numeral.magnitude word = digits ∧ Numeral.value word = n := by
  have hall : ∀ ds : List Char,
      (ds ≠ [] ∧ ∀ d ∈ ds, '0' ≤ d ∧ d ≤ '9') ↔ (!ds.isEmpty && ds.all Char.isDigit) = true := by
    intro ds
    simp [isDigit_iff]
  constructor
  · intro h
    cases h with
    | plain hne hdigits =>
      have hsign : ∀ ds, word ≠ '-' :: ds := by
        rintro ds rfl
        exact absurd (hdigits '-' List.mem_cons_self) (by decide)
      have hmagnitude := Numeral.magnitude.eq_2 word hsign
      rw [Numeral.isNumeral, hmagnitude]
      exact ⟨(hall word).mp ⟨hne, hdigits⟩, rfl, Numeral.value.eq_2 word hsign⟩
    | minus hne hdigits => exact ⟨(hall digits).mp ⟨hne, hdigits⟩, rfl, rfl⟩
  · rintro ⟨hnumeral, rfl, rfl⟩
    obtain ⟨hne, hdigits⟩ := (hall (Numeral.magnitude word)).mpr hnumeral
    by_cases hsign : ∃ ds, word = '-' :: ds
    · obtain ⟨ds, rfl⟩ := hsign
      exact .minus hne hdigits
    · rw [Numeral.magnitude.eq_2 word (not_exists.mp hsign)] at hne hdigits ⊢
      rw [Numeral.value.eq_2 word (not_exists.mp hsign)]
      exact .plain hne hdigits

theorem any_isDigit_eq_false_iff {o : Option Char} :
    o.any Text.isDigit = false ↔ ∀ c ∈ o, Text.isDigit c = false := by
  cases o <;> simp

/-! ## Spellings, one after the other -/

mutual

theorem Expr.SpelledBy.spells :
    ∀ {e : Expr} {ls : List Token.Lexeme}, e.SpelledBy ls → Spells ls [e]
  | _, _, .number h hlen => by
    obtain ⟨hnumeral, rfl, rfl⟩ := isInteger_iff.mp h
    exact .atom (.number hnumeral hlen) .nil
  | _, _, .string body => by
    have hread : readString (String.ofList ('"' :: body ++ ['"']))
        = .string (String.ofList (unescape body)) := by simp [readString]
    rw [← hread]
    exact .atom .string .nil
  | _, _, .reference hform hdigit => by
    refine .atom (.reference ?_ ?_) .nil
    · refine Bool.eq_false_iff.mpr fun hnumeral ↦ ?_
      exact hform _ _ (isInteger_iff.mpr ⟨hnumeral, rfl, rfl⟩)
    · exact any_isDigit_eq_false_iff.mpr hdigit
  | _, _, .compound h => (Expr.spells_flatten h).compound .nil

theorem Expr.spells_flatten : ∀ {es : List Expr} {spellings : List (List Token.Lexeme)},
    List.Forall₂ Expr.SpelledBy es spellings → Spells spellings.flatten es
  | _, _, .nil => .nil
  | _, _, .cons h hs => h.spells.append (Expr.spells_flatten hs)

end

theorem Token.HasShape.eq_opening {text : String} (h : HasShape .opening text.toList) :
    text = "(" := by
  rw [← String.toList_inj]
  generalize text.toList = cs at h ⊢
  cases h
  rfl

theorem Token.HasShape.eq_closing {text : String} (h : HasShape .closing text.toList) :
    text = ")" := by
  rw [← String.toList_inj]
  generalize text.toList = cs at h ⊢
  cases h
  rfl

theorem Denotes.spelledBy {l : Token.Lexeme} {e : Expr} (h : Denotes l e)
    (hl : Token.HasShape l.1 l.2.toList) : e.SpelledBy [l] := by
  cases h with
  | @number word hnumeral hlen =>
    exact .number (isInteger_iff.mpr ⟨hnumeral, rfl, rfl⟩) hlen
  | @reference name hnumeral hdigit =>
    refine .reference (fun digits n h ↦ ?_) ?_
    · rw [(isInteger_iff.mp h).1] at hnumeral
      cases hnumeral
    · exact any_isDigit_eq_false_iff.mp hdigit
  | @string text =>
    generalize hchars : text.toList = chars at hl
    cases hl with
    | @string body hbody =>
      have htext : text = String.ofList ('"' :: body ++ ['"']) := by
        rw [← hchars, String.ofList_toList]
      have hread : readString text = .string (String.ofList (unescape body)) := by
        simp [htext, readString]
      rw [hread, htext]
      exact .string body

theorem Spells.exists_spellings {ls : List Token.Lexeme} {es : List Expr} (h : Spells ls es)
    (hls : ∀ l ∈ ls, Token.HasShape l.1 l.2.toList) :
    ∃ spellings, List.Forall₂ Expr.SpelledBy es spellings ∧ ls = spellings.flatten := by
  induction h with
  | nil => exact ⟨[], .nil, rfl⟩
  | @atom l e ls es hatom _ ih =>
    obtain ⟨hl, hls⟩ := List.forall_mem_cons.mp hls
    obtain ⟨spellings, hes, rfl⟩ := ih hls
    exact ⟨[l] :: spellings, .cons (hatom.spelledBy hl) hes, rfl⟩
  | @compound left right ls ls' es es' _ _ ihelements ih =>
    rw [List.forall_mem_append, List.forall_mem_cons, List.forall_mem_cons] at hls
    obtain ⟨⟨hopening, hinner⟩, hclosing, hrest⟩ := hls
    have hleft : left = "(" := Token.HasShape.eq_opening hopening
    have hright : right = ")" := Token.HasShape.eq_closing hclosing
    obtain ⟨inner, helements, rfl⟩ := ihelements hinner
    obtain ⟨spellings, hes, rfl⟩ := ih hrest
    refine ⟨_, .cons (.compound helements) hes, ?_⟩
    rw [hleft, hright, List.flatten_cons, List.append_assoc]
    rfl

theorem Token.hasShape_of_mem_lexemes {source : String} {l : Token.Lexeme}
    (hl : l ∈ (Token.scan source).lexemes) : Token.HasShape l.1 l.2.toList := by
  obtain ⟨pieces, rest, h, hrest⟩ := Token.exists_decomposes source.toList
  rw [Token.Scan.lexemes, Token.scan, h.tokens_scanFrom hrest 0] at hl
  obtain ⟨t, ht, rfl⟩ := List.mem_map.mp hl
  obtain ⟨p, hp, hkind, htext⟩ := Token.exists_piece_of_mem_tokensAt ht
  rw [Token.lexeme, hkind, htext, String.toList_ofList]
  exact h.shape p hp

/-! ## No two programs are spelled alike -/

/-- A feed of the lexemes, at no particular places. -/
def TokenFeed.ofLexemes (ls : List Token.Lexeme) : TokenFeed :=
  ⟨ls.map fun l ↦ ⟨l.1, l.2, 0⟩, ⟨[], none⟩⟩

theorem TokenFeed.lexemes_ofLexemes (ls : List Token.Lexeme) : (ofLexemes ls).lexemes = ls := by
  have hlexeme : Token.lexeme ∘ (fun l : Token.Lexeme ↦ (⟨l.1, l.2, 0⟩ : Token)) = id := rfl
  rw [lexemes, ofLexemes, List.append_nil, List.map_map, hlexeme, List.map_id]

/-- The reader reads one program from a sequence of lexemes, so only one is spelled by it. -/
theorem Spells.unique {ls : List Token.Lexeme} {es es' : List Expr} (h : Spells ls es)
    (h' : Spells ls es') : es = es' := by
  have hread : ∀ {es}, Spells ls es → (TokenFeed.ofLexemes ls).restExprs.1 = .ok es := by
    intro es h
    rw [← TokenFeed.lexemes_ofLexemes ls] at h
    obtain ⟨s', hs'⟩ := TokenFeed.restExprs_of_spells h rfl
    rw [hs']
  exact Except.ok.inj ((hread h).symm.trans (hread h'))

/-- **Reading accepts exactly the spellings, each of one program.** A text is read as a program if
and only if lexing comes to its end and its tokens, apart from their places, are spellings of the
expressions of the program, one after the other: none is left over, missing or used twice. A
sequence of lexemes is made up of spellings in this way for one program only. Nothing limits how
deeply compounds are nested. -/
theorem reading_accepts_spellings_of_one_program (source : String) (program : List Expr) :
    (parse source = .ok program ↔ ∃ tokens spellings,
        (TokenFeed.ofSource source).drain = (tokens, none) ∧
          List.Forall₂ Expr.SpelledBy program spellings ∧
          tokens.map Token.lexeme = spellings.flatten) ∧
      ∀ program' spellings spellings', List.Forall₂ Expr.SpelledBy program spellings →
        List.Forall₂ Expr.SpelledBy program' spellings' →
        spellings.flatten = spellings'.flatten → program = program' := by
  refine ⟨?_, fun program' spellings spellings' h h' heq ↦ ?_⟩
  · rw [parse_eq_ok_iff, TokenFeed.drain_ofSource]
    constructor
    · rintro ⟨hquote, hspells⟩
      obtain ⟨spellings, hprogram, hlexemes⟩ :=
        hspells.exists_spellings fun l hl ↦ Token.hasShape_of_mem_lexemes hl
      refine ⟨_, spellings, ?_, hprogram, hlexemes⟩
      rw [hquote, Option.map_none]
    · rintro ⟨tokens, spellings, hdrain, hprogram, hlexemes⟩
      obtain ⟨rfl, hquote⟩ := Prod.mk.inj hdrain
      refine ⟨Option.map_eq_none_iff.mp hquote, ?_⟩
      rw [Token.Scan.lexemes, hlexemes]
      exact Expr.spells_flatten hprogram
  · have hspells' := Expr.spells_flatten h'
    rw [← heq] at hspells'
    exact (Expr.spells_flatten h).unique hspells'

end Interleave
