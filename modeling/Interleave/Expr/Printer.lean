import Interleave.Fault

/-!
# Writing expressions

An expression has three texts.

* Its *source text* is program text on one line, from which it can be read back: elements of a
  compound are separated by one space, and in a string only the quote and the backslash are escaped.
* Its *summary*, for messages, is the source text of an atom and the size of a compound.
* Its *structure*, for traces, spells out the tree.

All three are capped: an integer that is too long breaks the attempt off.

## Nesting

`Expr.source` is the text of a tree of any depth, and theorems about texts are about it. What writes
a tree in practice goes down it on a stack that ends somewhere, and where it ends is not a matter of
the language: it depends on what the interpreter runs on and on how much of the stack is in use. So
`Expr.format` takes the deepest nesting that the stack bears as an argument, gives the source text
up to that nesting, and breaks off beyond it. Nothing here fixes the number, and whatever is proved
about formatting is proved for every limit.
-/

namespace Interleave.Expr

/-! ## Source text -/

/-- The contents of a string with escapes before quotes and backslashes. -/
def escape (cs : List Char) : List Char :=
  cs.flatMap fun c ↦ if c = '"' ∨ c = '\\' then ['\\', c] else [c]

mutual

/-- The characters of the source text of an expression. -/
def chars : Expr → List Char
  | .number n => Numeral.chars n
  | .string s => '"' :: escape s.toList ++ ['"']
  | .reference name => name.toList
  | .compound es => '(' :: charsAll es ++ [')']

/-- The characters of the source texts of expressions, with one space between two. -/
def charsAll : List Expr → List Char
  | [] => []
  | [e] => chars e
  | e :: es => chars e ++ ' ' :: charsAll es

end

/-- The source text of an expression, whatever the length of its integers. -/
def text (e : Expr) : String :=
  String.ofList e.chars

/-- The source text of an expression. -/
def source (e : Expr) : Except Fault String :=
  if e.isWritable then .ok e.text else .error (.breakdown .integerTooLong)

/-! ## Summary -/

/-- A short summary of an expression, which does not look inside compounds. -/
def summary : Expr → Except Fault String
  | .compound es =>
    .ok ("a compound of " ++ Numeral.text es.length ++ " element" ++
      if es.length = 1 then "" else "s")
  | e => e.source

/-! ## Structure -/

/-- A sequence of texts in parentheses. A sequence of one item has a comma after it. -/
def sequenceText : List String → String
  | [item] => "(" ++ item ++ ",)"
  | items => "(" ++ ", ".intercalate items ++ ")"

mutual

/-- The structure of an expression, whatever the length of its integers. -/
def inspectText : Expr → String
  | .number n => "Number(value=" ++ Numeral.text n ++ ")"
  | .string s => "String(value=" ++ Text.quoted s ++ ")"
  | .reference name => "Reference(name=" ++ Text.quoted name ++ ")"
  | .compound es => "Compound(elements=" ++ sequenceText (inspectEach es) ++ ")"

def inspectEach : List Expr → List String
  | [] => []
  | e :: es => inspectText e :: inspectEach es

end

def inspect (e : Expr) : Except Fault String :=
  if e.isWritable then .ok e.inspectText else .error (.breakdown .integerTooLong)

/-! ## Formatting programs -/

/-- The source text of an expression that is not nested deeper than the limit. -/
def format (limit : Nat) (e : Expr) : Except Fault String :=
  if e.nesting ≤ limit then e.source else .error (.breakdown .tooDeep)

/-- The source text of a program on one line. The expressions are formatted one by one, so the limit
is on each of them. -/
def formatAll (limit : Nat) (es : List Expr) : Except Fault String :=
  return " ".intercalate (← es.mapM (format limit))

end Interleave.Expr
