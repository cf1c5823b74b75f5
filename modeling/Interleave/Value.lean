import Interleave.Expr.Basic
import Interleave.Text.Quoted

/-!
# Values

The values a program computes with: integers, booleans, strings, the undefined value that side
effects leave behind, and two kinds of function. A primitive is built in. A closure pairs parameters
and a body with the frame in which it was made.

## Identity

Functions are compared by identity and not by what they do. A closure therefore carries the number
under which it was made, and two closures with the same parameters, body and frame are different
values if they were made at different times.

For primitives there is no such number, and this is a simplification. Whoever binds the primitives
in a frame makes new function objects, each of which is equal to itself only. As long as they are
bound once, which is how sessions begin, there is one object of each kind, and to compare kinds is
to compare objects. An embedding program that binds the primitives in a second frame as well, and
hands functions from one frame to the other, has two objects of one kind that `Value.same` does not
tell apart.

## Texts

Two texts belong to a value: `Value.display`, which programs print, and `Value.inspect`, which
messages show and in which strings are quoted.
-/

namespace Interleave

/-- The position of a frame in the store of frames. -/
abbrev FrameId := Nat

/-- A built-in function. -/
inductive Primitive where
  /-- The sum of integers. -/
  | add
  /-- The first integer less all the others. -/
  | sub
  /-- The product of integers. -/
  | mul
  /-- Whether all arguments equal the first. -/
  | equal
  /-- Prints its arguments. -/
  | print
  deriving DecidableEq

namespace Primitive

def name : Primitive → String
  | add => "+"
  | sub => "-"
  | mul => "*"
  | equal => "="
  | print => "print"

/-- All primitives, in the order in which they are bound. -/
def all : List Primitive := [add, sub, mul, equal, print]

/-- The least number of arguments that a primitive takes. -/
def leastArguments : Primitive → Nat
  | sub | equal => 1
  | add | mul | print => 0

/-- The text by which a primitive of the given name is shown. -/
def tag (name : String) : String := "<primitive " ++ name ++ ">"

end Primitive

/-- A function made by a program. Two closures made at different times are different values, which
`serial` tells apart. -/
structure Closure where
  /-- When the closure was made, counted in closures. -/
  serial : Nat
  /-- The names that the arguments are bound to. -/
  params : List String
  /-- The expressions evaluated in order by a call. -/
  body : List Expr
  /-- The frame that a call's own frame lies in. -/
  frame : FrameId
  deriving DecidableEq

/-- A value of the language. -/
inductive Value where
  /-- An integer, unbounded. -/
  | int (n : Int)
  /-- A boolean. -/
  | bool (b : Bool)
  /-- A string. -/
  | str (s : String)
  /-- The value of side effects and of a conditional without a branch to take. -/
  | undefined
  /-- A built-in function. -/
  | primitive (p : Primitive)
  /-- A function made by a program. -/
  | closure (c : Closure)
  deriving DecidableEq, Inhabited

namespace Value

/-- Equality as programs see it. Values of different kinds are never equal, and closures are equal
only to themselves. Primitives are compared by what they compute, as if each were made once: see
the remarks on identity above. -/
def same : Value → Value → Bool
  | .int m, .int n => m == n
  | .bool a, .bool b => a == b
  | .str s, .str t => s == t
  | .undefined, .undefined => true
  | .primitive p, .primitive q => p == q
  | .closure c, .closure d => c.serial == d.serial
  | _, _ => false

/-- Whether a condition with this value takes the second branch. Only false does. -/
def isFalse : Value → Bool
  | .bool false => true
  | _ => false

/-- Whether a value has a text under the cap on the length of integers. -/
def isWritable : Value → Bool
  | .int n => !Numeral.isTooLong n
  | _ => true

/-- The text of a function or of the undefined value, which display and inspection share. -/
def functionText : Value → String
  | .primitive p => Primitive.tag p.name
  | .closure c => "<lambda (" ++ " ".intercalate c.params ++ ")>"
  | _ => "undefined"

/-- The text of a value as programs print it. -/
def display : Value → String
  | .int n => Numeral.text n
  | .bool true => "#t"
  | .bool false => "#f"
  | .str s => s
  | v => v.functionText

/-- The text of a value as messages show it, whatever the length of its integer. -/
def inspectText : Value → String
  | .int n => Numeral.text n
  | .bool true => "True"
  | .bool false => "False"
  | .str s => Text.quoted s
  | v => v.functionText

end Value

end Interleave
