import Interleave.Expr.Printer

/-!
# Layout of expressions over lines

An expression that fits on a line is written there. A compound that does not fit is written with one
element on each line, each laid out in turn one level deeper. Widths and levels are integers: a
negative indentation is no indentation, and shortens nothing.

## What decides whether an expression fits

The width of a line is compared with the length of the source text on one line, indentation
included. Nothing else is taken into account: the closing parentheses that will follow the last
element are not counted, and a string with line feeds in it is as long as its text, over however
many lines it goes. An atom that does not fit is written all the same, since it cannot be divided.

`Expr.layout` is defined for every tree. `Expr.formatLines` is what writes a tree in practice: it
needs the source text first, so it is refused where `Expr.format` is refused, at nesting beyond the
limit and at integers that are too long.
-/

namespace Interleave.Expr

/-- How long lines may be and how far each level is indented. -/
structure LayoutOptions where
  /-- The greatest length of a line. -/
  maxLineLength : Int := 80
  /-- The indentation of one level. -/
  indentWidth : Int := 2
  deriving DecidableEq

def LayoutOptions.indentation (o : LayoutOptions) (level : Int) : List Char :=
  List.replicate (level * o.indentWidth).toNat ' '

/-- Whether a text fits on a line at a level. -/
def LayoutOptions.fits (o : LayoutOptions) (level : Int) (cs : List Char) : Bool :=
  decide ((cs.length : Int) + level * o.indentWidth ≤ o.maxLineLength)

mutual

/-- The characters of an expression that begins at a level. -/
def layoutChars (o : LayoutOptions) (level : Int) : Expr → List Char
  | .compound (e :: es) =>
    let line := chars (.compound (e :: es))
    if o.fits level line then line
    else '(' :: layoutChars o (level + 1) e ++ layoutLines o (level + 1) es ++ [')']
  | e => e.chars

/-- The characters of expressions that each begin a line at a level. -/
def layoutLines (o : LayoutOptions) (level : Int) : List Expr → List Char
  | [] => []
  | e :: es => '\n' :: o.indentation level ++ layoutChars o level e ++ layoutLines o level es

end

/-- An expression laid out over lines, beginning at a level. -/
def layout (o : LayoutOptions) (level : Int) (e : Expr) : String :=
  String.ofList (layoutChars o level e)

/-- The layout of an expression that is not nested deeper than the limit. Whether it fits on a line
is told by its source text, so what cannot be formatted on one line is refused. -/
def formatLines (limit : Nat) (o : LayoutOptions) (level : Int) (e : Expr) :
    Except Fault String :=
  (e.format limit).map fun _ ↦ e.layout o level

end Interleave.Expr
