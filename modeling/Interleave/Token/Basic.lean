import Interleave.Text.Blank

/-!
# Tokens

Program text is a sequence of tokens: parentheses, strings in double quotes, and words. Blanks and
comments stand between tokens and separate words; a comment runs from a semicolon to the end of its
line. `Token.scan` cuts a text into its tokens from left to right.

A string token keeps its quotes and its escapes. Inside a string a backslash takes the next
character with it, whatever that is, so an escaped quote does not close the string. The one thing
that can be wrong with a text at this level is a quote that opens a string and is never closed; the
scan then ends at that quote.

## Places

Offsets count characters and not bytes. Every token has the offset of its first character in the
whole text, which is why `Token.scanFrom` is given where its text begins. Faults of reading are
reported at these places.

## Recursion

The scan goes on behind what it has taken, and that is shorter than what it was given: for a comment
and a word by what is known about the longest run of a class of characters, and for a string since
at least the closing quote was taken (`Token.length_of_splitString`).
-/

namespace Interleave

/-- The four kinds of token. -/
inductive Token.Kind where
  /-- An opening parenthesis. -/
  | opening
  /-- A closing parenthesis. -/
  | closing
  /-- A string with its quotes. -/
  | string
  /-- A maximal run of other characters that are not blank. -/
  | word
  deriving DecidableEq

/-- A token of a program text. -/
structure Token where
  /-- The kind of the token. -/
  kind : Token.Kind
  /-- The characters of the token as they stand in the text. -/
  text : String
  /-- The offset of its first character in the text, counted in characters. -/
  offset : Nat
  deriving DecidableEq

namespace Token

/-- Whether a character can stand in a word. -/
def isWordChar (c : Char) : Bool :=
  !Text.isBlank c && c != '(' && c != ')' && c != '"' && c != ';'

/-- The tokens of a text, and the offset of the quote at which the scan ended, if it ended at a
quote that nothing closes. -/
structure Scan where
  /-- The tokens from left to right. -/
  tokens : List Token
  /-- The offset of a quote that nothing closes. -/
  openQuote : Option Nat
  deriving DecidableEq

def Scan.cons (t : Token) (s : Scan) : Scan :=
  { s with tokens := t :: s.tokens }

@[simp] theorem Scan.tokens_cons (t : Token) (s : Scan) : (s.cons t).tokens = t :: s.tokens := rfl

@[simp] theorem Scan.openQuote_cons (t : Token) (s : Scan) :
    (s.cons t).openQuote = s.openQuote := rfl

/-! ## Strings -/

/-- Cuts the text after an opening quote into the body of the string and what follows its closing
quote. -/
def splitString : List Char → Option (List Char × List Char)
  | [] => none
  | '"' :: cs => some ([], cs)
  | '\\' :: c :: cs => (splitString cs).map fun (body, rest) ↦ ('\\' :: c :: body, rest)
  | c :: cs => (splitString cs).map fun (body, rest) ↦ (c :: body, rest)

/-- Body, closing quote and rest make up the text. -/
theorem append_of_splitString {cs body rest : List Char} (h : splitString cs = some (body, rest)) :
    cs = body ++ '"' :: rest := by
  fun_induction splitString cs generalizing body rest with
  | case1 => simp at h
  | case2 cs => simp_all
  | case3 c cs ih =>
    obtain ⟨⟨b, r⟩, hs, he⟩ := Option.map_eq_some_iff.1 h
    cases he
    simp [ih hs]
  | case4 c cs _ _ ih =>
    obtain ⟨⟨b, r⟩, hs, he⟩ := Option.map_eq_some_iff.1 h
    cases he
    simp [ih hs]

theorem length_of_splitString {cs body rest : List Char}
    (h : splitString cs = some (body, rest)) : rest.length < cs.length := by
  rw [append_of_splitString h]
  simp
  omega

/-! ## Scanning -/

/-- Cuts a text that begins at the given offset into tokens. -/
def scanFrom (offset : Nat) (cs : List Char) : Scan :=
  match cs with
  | [] => ⟨[], none⟩
  | c :: rest =>
    if Text.isBlank c then scanFrom (offset + 1) rest
    else if c = ';' then
      -- the line feed is not taken, and is passed over as a blank
      scanFrom (offset + 1 + (rest.takeWhile (· != '\n')).length) (rest.dropWhile (· != '\n'))
    else if c = '(' then (scanFrom (offset + 1) rest).cons ⟨.opening, "(", offset⟩
    else if c = ')' then (scanFrom (offset + 1) rest).cons ⟨.closing, ")", offset⟩
    else if c = '"' then
      match _h : splitString rest with
      | none => ⟨[], some offset⟩
      | some (body, after) =>
        (scanFrom (offset + body.length + 2) after).cons
          ⟨.string, String.ofList ('"' :: body ++ ['"']), offset⟩
    else
      (scanFrom (offset + 1 + (rest.takeWhile isWordChar).length) (rest.dropWhile isWordChar)).cons
        ⟨.word, String.ofList (c :: rest.takeWhile isWordChar), offset⟩
termination_by cs.length
decreasing_by
  · simp
  · exact Nat.lt_succ_of_le (List.dropWhile_suffix _).length_le
  · simp
  · simp
  · exact Nat.lt_succ_of_lt (length_of_splitString _h)
  · exact Nat.lt_succ_of_le (List.dropWhile_suffix _).length_le

/-- Cuts a text into tokens. -/
def scan (source : String) : Scan :=
  scanFrom 0 source.toList

end Token

end Interleave
