import Interleave.World

/-!
# Primitives

The built-in functions and constants, and what calls of them do. A call first checks that there are
enough arguments, then that arithmetic gets integers only; the first argument that is no integer is
the one reported. Booleans are not integers. Only `print` changes the world.

## Order of the checks

The order decides which error is reported when there are several. The number of arguments comes
first, then their kinds from left to right. The difference and the comparison need at least one
argument; a sum of nothing is zero and a product of nothing is one. The difference of a single
integer is that integer and not its negative.

Values that are not integers are described in the error by their display, which exists for every
value but integers that are too long, and those are integers. So no primitive breaks down.

`Primitive.result` and `Primitive.effect` are kept apart, so that what a primitive computes is a
function of its arguments.
-/

namespace Interleave

namespace Primitive

/-- Checks that a primitive of the given name gets the least number of arguments that it takes. -/
def checkArity (name : String) (least given : Nat) : Except Fault Unit :=
  if given < least then .error (.program (.arity (.primitive name least given))) else .ok ()

def integers (name : String) : List Value → Except Fault (List Int)
  | [] => .ok []
  | .int n :: vs => (integers name vs).map (n :: ·)
  | v :: _ => .error (.program (.kind (.notInteger name v.display)))

/-- The first integer less all the others; a single one is itself. -/
def difference : List Int → Int
  | [] => 0
  | n :: ns => ns.foldl (· - ·) n

def allSame : List Value → Bool
  | [] => true
  | v :: vs => vs.all v.same

def printedLine (vs : List Value) : String :=
  " ".intercalate (vs.map Value.display) ++ "\n"

/-- The value of a primitive for arguments of which there are enough. -/
def result : Primitive → List Value → Except Fault Value
  | add, vs => (integers add.name vs).map fun ns ↦ .int (ns.foldl (· + ·) 0)
  | sub, vs => (integers sub.name vs).map fun ns ↦ .int (difference ns)
  | mul, vs => (integers mul.name vs).map fun ns ↦ .int (ns.foldl (· * ·) 1)
  | equal, vs => .ok (.bool (allSame vs))
  | print, _ => .ok .undefined

def effect (p : Primitive) (vs : List Value) (w : World) : World :=
  match p with
  | print => w.print (printedLine vs)
  | add | sub | mul | equal => w

def call (p : Primitive) (vs : List Value) (w : World) : Except Fault Value × World :=
  match checkArity p.name p.leastArguments vs.length with
  | .error f => (.error f, w)
  | .ok () =>
    match p.result vs with
    | .error f => (.error f, w)
    | .ok v => (.ok v, p.effect vs w)

end Primitive

namespace World

def builtins : Bindings :=
  Primitive.all.map (fun p ↦ (p.name, .primitive p)) ++ [("#t", .bool true), ("#f", .bool false)]

def defineBuiltins (w : World) (f : FrameId) : Except Fault Unit × World :=
  w.defineAll f builtins

/-- The frame that holds the built-in functions and constants of a fresh world. -/
def globalFrame : FrameId := 0

/-- A world with one frame, which holds the built-in functions and constants. -/
def fresh : World :=
  ((({} : World).newFrame none []).2.defineBuiltins globalFrame).2

end World

end Interleave
