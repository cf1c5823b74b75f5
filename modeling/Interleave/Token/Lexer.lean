import Interleave.Fault
import Interleave.Token.Basic

/-!
# Lexing by alternatives

A second way to cut a text into tokens. `Token.scan` looks at one character and decides by it what
to do next. Here the text is matched against a list of alternatives: blanks are passed over, and
then the first alternative that fits what follows is taken, in the order comment, parenthesis,
string, quote that nothing closes, word. `Token.front?` tries them.

If none of them fits, nothing but blanks may be left of the text. If there is something else, the
character where the blanks began is called unexpected, and that is the end of it. Whether this ever
happens is a question about the alternatives, which is why the outcome is part of `Token.Ending`:
the alternatives leave out no character that is not blank, so it never does
(`Token.lex_ne_unexpected`), and both ways to cut a text come to the same (`Token.lex_eq_scan`).
The reader works with the scan, which is the simpler of the two.
-/

namespace Interleave.Token

/-- What stands at the front of a text. -/
inductive Front where
  /-- A comment, and what follows its line. -/
  | comment (text rest : List Char)
  /-- A token, and what follows it. -/
  | token (kind : Kind) (text rest : List Char)
  /-- A quote that nothing closes. -/
  | openQuote

/-- The first alternative that fits the text. -/
def front? : List Char → Option Front
  | [] => none
  | ';' :: cs => some (.comment (';' :: cs.takeWhile (· != '\n')) (cs.dropWhile (· != '\n')))
  | '(' :: cs => some (.token .opening ['('] cs)
  | ')' :: cs => some (.token .closing [')'] cs)
  | '"' :: cs =>
    match splitString cs with
    | some (body, rest) => some (.token .string ('"' :: body ++ ['"']) rest)
    | none => some .openQuote
  | c :: cs =>
    if isWordChar c then
      some (.token .word (c :: cs.takeWhile isWordChar) (cs.dropWhile isWordChar))
    else none

/-- What is left of a text after its front. -/
def Front.rest : Front → List Char
  | comment _ rest | token _ _ rest => rest
  | openQuote => []

theorem length_rest_of_front? {cs : List Char} {f : Front} (h : front? cs = some f) :
    f.rest.length < cs.length := by
  revert h
  fun_cases front? cs with
  | case1 => rintro ⟨⟩
  | case2 cs =>
    rintro ⟨⟩
    exact Nat.lt_succ_of_le (List.dropWhile_suffix _).length_le
  | case3 cs =>
    rintro ⟨⟩
    exact Nat.lt_succ_self _
  | case4 cs =>
    rintro ⟨⟩
    exact Nat.lt_succ_self _
  | case5 cs body rest hsplit =>
    rintro ⟨⟩
    exact Nat.lt_succ_of_lt (length_of_splitString hsplit)
  | case6 cs hsplit =>
    rintro ⟨⟩
    exact Nat.succ_pos _
  | case7 c cs =>
    rintro ⟨⟩
    exact Nat.lt_succ_of_le (List.dropWhile_suffix _).length_le
  | case8 c cs => rintro ⟨⟩

/-! ## Lexing -/

/-- How the lexing of a text ends. -/
inductive Ending where
  /-- Nothing is left but blanks. -/
  | complete
  /-- A quote opens a string that never closes. -/
  | openQuote (offset : Nat)
  /-- No alternative fits what is left, and that is not blank. The character is the first one
  that is left, which may be a blank. -/
  | unexpected (c : Char) (offset : Nat)
  deriving DecidableEq

/-- The fault that an ending means for the text, if any. -/
def Ending.fault? : Ending → Option Fault
  | complete => none
  | openQuote offset => some (.program (.malformed .openString (some offset)))
  | unexpected c offset => some (.program (.malformed (.unexpectedChar c) (some offset)))

/-- The tokens of a text, and how its lexing ends. -/
structure Lexing where
  /-- The tokens from left to right. -/
  tokens : List Token
  /-- How it ends after the last of them. -/
  ending : Ending
  deriving DecidableEq

/-- Cuts a text that begins at the given offset into tokens. -/
def lexFrom (offset : Nat) (cs : List Char) : Lexing :=
  let start := offset + (cs.takeWhile Text.isBlank).length
  match _h : front? (cs.dropWhile Text.isBlank) with
  | some (.comment text rest) => lexFrom (start + text.length) rest
  | some (.token kind text rest) =>
    let l := lexFrom (start + text.length) rest
    { l with tokens := ⟨kind, String.ofList text, start⟩ :: l.tokens }
  | some .openQuote => ⟨[], .openQuote start⟩
  | none =>
    match cs with
    | [] => ⟨[], .complete⟩
    | c :: rest =>
      if (c :: rest).all Text.isBlank then ⟨[], .complete⟩ else ⟨[], .unexpected c offset⟩
termination_by cs.length
decreasing_by
  all_goals
    exact Nat.lt_of_lt_of_le (length_rest_of_front? _h) (List.dropWhile_suffix _).length_le

def lex (source : String) : Lexing :=
  lexFrom 0 source.toList

end Interleave.Token
