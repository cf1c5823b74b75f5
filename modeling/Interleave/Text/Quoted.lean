import Interleave.Text.Printable

/-!
# Quoted text

Messages show a text between quotes, so that blanks and unprintable characters in it can be seen.
Single quotes are used, unless the text holds a single quote and no double quote. The quote in use
and the backslash are preceded by a backslash, line feed, carriage return and tab have letters of
their own, and other unprintable characters are written by their code points in hexadecimal.

The quoting is made for readers of messages, and it is not the quoting of program text, in which
only double quotes are used and only quotes and backslashes are escaped: see `Expr.chars` for that
one. The choice of the quote saves escapes. A text with both kinds of quote is put in single quotes,
and the single quotes in it are escaped.

A code point is written in the shortest of three forms, with two, four or eight hexadecimal digits,
so the text in quotes determines the text.
-/

namespace Interleave.Text

def singleQuote : Char := '\x27'

def doubleQuote : Char := '\x22'

/-- Hexadecimal digits, in lower case, filled up with zeros to a least width. -/
def hexDigits (width n : Nat) : List Char :=
  (Nat.toDigits 16 n).leftpad width '0'

/-- The code point of a character in the shortest of the forms `\xhh`, `\uhhhh`, `\Uhhhhhhhh`. -/
def codePoint (c : Char) : List Char :=
  if c.toNat ≤ 0xFF then '\\' :: 'x' :: hexDigits 2 c.toNat
  else if c.toNat ≤ 0xFFFF then '\\' :: 'u' :: hexDigits 4 c.toNat
  else '\\' :: 'U' :: hexDigits 8 c.toNat

def quotedChar (quote c : Char) : List Char :=
  if c = quote ∨ c = '\\' then ['\\', c]
  else if c = '\n' then ['\\', 'n']
  else if c = '\r' then ['\\', 'r']
  else if c = '\t' then ['\\', 't']
  else if isPrintable c then [c]
  else codePoint c

def quoteFor (cs : List Char) : Char :=
  if singleQuote ∈ cs ∧ doubleQuote ∉ cs then doubleQuote else singleQuote

def quoted (s : String) : String :=
  let quote := quoteFor s.toList
  String.ofList (quote :: s.toList.flatMap (quotedChar quote) ++ [quote])

end Interleave.Text
