import Interleave.Machine

/-!
# Direct evaluation

The direct evaluator walks the expression and needs no queue: to evaluate a compound it evaluates
the parts of the compound, and to call a closure it evaluates the body. It shares frames,
primitives and special forms with the queue machine, and agrees with it wherever it does not run
out of depth.

Nesting is bounded: `Direct.evaluate` takes the depth that is left, and every expression inside
another, or inside the body of a called closure, lies one level deeper.

## Depth instead of fuel

The depth bounds nesting and not length: a program of any number of expressions needs no more depth
than its deepest one. Whoever runs the evaluator gives the depth. A program whose recursion never
ends runs out of any depth, and this is told apart from a fault, as running out of fuel is for the
machine.

`Direct.valuesOf` and `Direct.lastOf` take the evaluator as an argument, so the recursion of
`Direct.evaluate` is on the depth alone and its equations can be used as they stand.

The message of a malformed conditional is the one place where the two evaluators differ. The machine
says how many parts it found, and the direct evaluator does not; `Direct.reword` drops the count.
-/

namespace Interleave.Direct

/-- Evaluates expressions from left to right and gives all their values. -/
def valuesOf (evaluate : Expr → World → Outcome Value × World) :
    List Expr → World → Outcome (List Value) × World
  | [], w => (.done [], w)
  | e :: es, w =>
    match evaluate e w with
    | (.done v, w') =>
      match valuesOf evaluate es w' with
      | (.done vs, w'') => (.done (v :: vs), w'')
      | (.failed f, w'') => (.failed f, w'')
      | (.outOfFuel, w'') => (.outOfFuel, w'')
    | (.failed f, w') => (.failed f, w')
    | (.outOfFuel, w') => (.outOfFuel, w')

/-- Evaluates expressions from left to right and gives the value of the last, or the given value if
there are none. -/
def lastOf (evaluate : Expr → World → Outcome Value × World) :
    Value → List Expr → World → Outcome Value × World
  | v, [], w => (.done v, w)
  | _, e :: es, w =>
    match evaluate e w with
    | (.done v, w') => lastOf evaluate v es w'
    | other => other

def settle (r : Except Fault Value × World) : Outcome Value × World :=
  match r with
  | (.ok v, w) => (.done v, w)
  | (.error f, w) => (.failed f, w)

/-- A fault as the direct evaluator words it: the parts of a malformed conditional are not
counted. -/
def reword : Fault → Fault
  | .program (.arity (.conditional _)) => .program (.arity (.conditional none))
  | f => f

/-- Evaluates an expression in a frame, with so many levels of nesting left. -/
def evaluate : (depth : Nat) → Expr → FrameId → World → Outcome Value × World
  | 0, _, _, w => (.outOfFuel, w)
  | depth + 1, e, frame, w =>
    match e with
    | .number n => (.done (.int n), w)
    | .string s => (.done (.str s), w)
    | .reference x => settle (w.lookup frame x, w)
    | .compound es =>
      match Expr.specialForm? es with
      | some (form, parts) =>
        match Form.ofParts form parts with
        | .error f => (.failed (reword f), w)
        | .ok (.conditional c t e) =>
          match evaluate depth c frame w with
          | (.done v, w') =>
            if v.isFalse then
              match e with
              | some e => evaluate depth e frame w'
              | none => (.done .undefined, w')
            else evaluate depth t frame w'
          | other => other
        | .ok (.definition x e) =>
          match evaluate depth e frame w with
          | (.done v, w') =>
            match w'.define frame x v with
            | (.ok (), w'') => (.done .undefined, w'')
            | (.error f, w'') => (.failed f, w'')
          | other => other
        | .ok (.lambda params body) =>
          let (v, w') := w.newClosure params body frame
          (.done v, w')
      | none =>
        match valuesOf (fun e w ↦ evaluate depth e frame w) es w with
        | (.done [], w') => (.failed (.program (.notCallable none)), w')
        | (.done (.primitive p :: args), w') => settle (p.call args w')
        | (.done (.closure c :: args), w') =>
          match Machine.bindArguments c args w' with
          | (.ok inner, w'') =>
            -- unlike in the machine, a call in tail position is one level deeper as well
            lastOf (fun e w ↦ evaluate depth e inner w) .undefined c.body w''
          | (.error f, w'') => (.failed f, w'')
        | (.done (v :: _), w') => (.failed (.ofCallee v), w')
        | (.failed f, w') => (.failed f, w')
        | (.outOfFuel, w') => (.outOfFuel, w')

/-- Evaluates expressions one after the other and gives the value of the last. -/
def evaluateAll (depth : Nat) (es : List Expr) (frame : FrameId) (w : World) :
    Outcome Value × World :=
  lastOf (fun e w ↦ evaluate depth e frame w) .undefined es w

/-- The nesting that the direct evaluator is given by default. -/
def depthLimit : Nat := 1000

end Interleave.Direct
