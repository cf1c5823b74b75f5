import Interleave.Numeral

/-!
# Expressions

A program is a list of expressions. An expression is a number, a string, a reference to a name, or a
compound of expressions in parentheses. A compound whose first element is a reference to a special
form is that form; any other compound is a call. The tree alone does not fix the text it was read
from: blanks, comments, leading zeros and escapes are forgotten.

## Measures

Two measures of a tree are needed later, and both are computed on the tree and on lists of trees at
once. `Expr.nesting` is the number of compounds inside each other, on which limits of the stack are
put. `Expr.isWritable` says that no integer in the tree is too long to be written. An expression
that was read from a text is writable, since the reader refuses longer numerals; one that was built
by an embedding program need not be.

Expressions are compared by their trees. Equality is decided by recursion on both trees, since it
cannot be derived for a type with lists of itself inside.
-/

namespace Interleave

/-- An expression of the language. -/
inductive Expr where
  /-- An integer, unbounded. -/
  | number (value : Int)
  /-- A string, by its contents without quotes and escapes. -/
  | string (contents : String)
  /-- A reference to a name. -/
  | reference (name : String)
  /-- A sequence in parentheses, possibly empty. -/
  | compound (elements : List Expr)
  deriving Inhabited

namespace Expr

/-! ## Equality -/

mutual

/-- Equality of expressions is decided by comparing their trees. -/
def decEq : (a b : Expr) → Decidable (a = b)
  | .number m, .number n => decidable_of_iff (m = n) (by simp)
  | .string s, .string t => decidable_of_iff (s = t) (by simp)
  | .reference s, .reference t => decidable_of_iff (s = t) (by simp)
  | .compound as, .compound bs =>
    match decEqAll as bs with
    | .isTrue h => .isTrue (by rw [h])
    | .isFalse h => .isFalse (by simpa using h)
  | .number _, .string _ | .number _, .reference _ | .number _, .compound _
  | .string _, .number _ | .string _, .reference _ | .string _, .compound _
  | .reference _, .number _ | .reference _, .string _ | .reference _, .compound _
  | .compound _, .number _ | .compound _, .string _ | .compound _, .reference _ =>
    .isFalse nofun

/-- Equality of lists of expressions is decided element by element. -/
def decEqAll : (as bs : List Expr) → Decidable (as = bs)
  | [], [] => .isTrue rfl
  | a :: as, b :: bs =>
    match decEq a b, decEqAll as bs with
    | .isTrue h, .isTrue h' => .isTrue (by rw [h, h'])
    | .isFalse h, _ => .isFalse (by simp [h])
    | _, .isFalse h => .isFalse (by simp [h])
  | [], _ :: _ | _ :: _, [] => .isFalse nofun

end

instance : DecidableEq Expr := decEq

/-! ## Parts -/

def head? : Expr → Option Expr
  | .compound (e :: _) => some e
  | _ => none

def tail : Expr → List Expr
  | .compound es => es.tail
  | _ => []

/-! ## Measures -/

mutual

/-- How deeply compounds are nested in an expression. -/
def nesting : Expr → Nat
  | .compound es => nestingAll es + 1
  | _ => 0

/-- How deeply compounds are nested in the deepest of some expressions. -/
def nestingAll : List Expr → Nat
  | [] => 0
  | e :: es => max (nesting e) (nestingAll es)

end

mutual

/-- Whether every number in the expression is short enough to be written under the cap. -/
def isWritable : Expr → Bool
  | .number n => !Numeral.isTooLong n
  | .string _ | .reference _ => true
  | .compound es => isWritableAll es

/-- Whether every number in the expressions is short enough to be written under the cap. -/
def isWritableAll : List Expr → Bool
  | [] => true
  | e :: es => isWritable e && isWritableAll es

end

end Expr

end Interleave
