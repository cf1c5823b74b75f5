import Interleave.Primitive

/-!
# The queue machine

A program runs as a queue of steps with a current value. One step is taken at a time: it may change
the current value, put further steps in front of the queue, and change the world. New steps always
go in front, so what is queued behind them waits until they are done.

* A compound that is no special form becomes a call: each element in turn is evaluated and its
  value joined to the record of the call, and at the end the first value is applied to the others.
* The call of a closure makes a frame for its parameters and puts the body in front of the queue.
  Nothing stays behind for the caller, so a call at the end of a body does not lengthen the queue.

`Machine.step` takes one step and `Machine.run` takes steps until the queue is empty. A run may
never end, so it has a bound on the number of steps, and reaching it is told apart from failing.
-/

namespace Interleave

/-- How a computation with a bound on its length ended. -/
inductive Outcome (α : Type) where
  /-- It gave a result. -/
  | done (result : α)
  /-- It failed. -/
  | failed (fault : Fault)
  /-- It reached its bound. -/
  | outOfFuel
  deriving DecidableEq

namespace Machine

/-! ## Putting steps in front -/

/-- The steps that carry out a special form. -/
def formSteps (frame : FrameId) : Form → List Step
  | .conditional c t e => [.evaluate c frame, .branch t e frame]
  | .definition x e => [.evaluate e frame, .define x frame]
  | .lambda params body => [.closure params body frame]

/-- The steps that carry out a call whose values are collected in the given record. -/
def callSteps (frame : FrameId) (call : CallId) (elements : List Expr) : List Step :=
  elements.flatMap (fun e ↦ [.evaluate e frame, .join call]) ++ [.apply call frame]

/-- Puts the steps that evaluate an expression in front of a queue. -/
def expand (e : Expr) (frame : FrameId) (q : Queue) (w : World) : Except Fault Queue × World :=
  match e with
  | .number n => (.ok (.literal (.int n) :: q), w)
  | .string s => (.ok (.literal (.str s) :: q), w)
  | .reference x => (.ok (.reference x frame :: q), w)
  | .compound es =>
    match Expr.specialForm? es with
    | some (form, parts) =>
      ((Form.ofParts form parts).map (formSteps frame · ++ q), w.note (.expanding form))
    | none =>
      -- the record is begun before its elements are evaluated, so that they can share it
      let (call, w') := w.newCall []
      (.ok (callSteps frame call es ++ q), w')

/-! ## Calls -/

/-- Makes the frame for the body of a closure, in which its parameters are bound to arguments. -/
def bindArguments (c : Closure) (args : List Value) (w : World) : Except Fault FrameId × World :=
  if args.length = c.params.length then
    let (frame, w') := w.newFrame (some c.frame) (Bindings.ofPairs (c.params.zip args))
    (.ok frame, w')
  else (.error (.program (.arity (.closure c.params.length args.length))), w)

/-- Applies a function to arguments. A primitive gives its value at once, and a closure puts its
body in front of the queue. -/
def apply (fn : Value) (args : List Value) (q : Queue) (w : World) :
    Except Fault (Value × Queue) × World :=
  match fn with
  | .primitive p =>
    match p.call args w with
    | (.ok v, w') => (.ok (v, q), w')
    | (.error f, w') => (.error f, w')
  | .closure c =>
    match bindArguments c args w with
    | (.ok frame, w') => (.ok (.undefined, Queue.ofProgram c.body frame ++ q), w')
    | (.error f, w') => (.error f, w')
  | v => (.error (.ofCallee v), w)

/-! ## Taking steps -/

/-- Goes on with an expression: its steps come next and there is no current value yet. -/
def proceed (e : Expr) (frame : FrameId) (q : Queue) (w : World) :
    Except Fault (Value × Queue) × World :=
  match expand e frame q w with
  | (.ok q', w') => (.ok (.undefined, q'), w')
  | (.error f, w') => (.error f, w')

/-- Takes one step, with the current value and the rest of the queue. -/
def step (s : Step) (current : Value) (q : Queue) (w : World) :
    Except Fault (Value × Queue) × World :=
  match s with
  | .evaluate e frame => proceed e frame q w
  | .literal v => (.ok (v, q), w)
  | .reference x frame => ((w.lookup frame x).map (·, q), w)
  | .join call => (.ok (current, q), w.collect call current)
  | .apply call _ =>
    match w.collected call with
    | [] => (.error (.program (.notCallable none)), w)
    | fn :: args => apply fn args q w
  | .branch consequent alternative frame =>
    if current.isFalse then
      match alternative with
      | some e => proceed e frame q w
      | none => (.ok (.undefined, q), w)
    else proceed consequent frame q w
  | .define x frame =>
    match w.define frame x current with
    | (.ok (), w') => (.ok (.undefined, q), w'.note (.defined x))
    | (.error f, w') => (.error f, w')
  | .closure params body frame =>
    let (v, w') := w.newClosure params body frame
    (.ok (v, q), w')

/-! ## Running -/

/-- Takes a step that is traced first. If the log breaks off, the step is not taken. -/
def takeStep (log : Option Log) (s : Step) (current : Value) (q : Queue) (w : World) :
    Except Fault (Value × Queue) × World :=
  match w.trace log (.step s current q.length) with
  | .ok w' => step s current q w'
  | .error b => (.error (.breakdown b), w)

/-- Takes at most `fuel` steps, until the queue is empty. -/
def run (log : Option Log) : (fuel : Nat) → Value → Queue → World → Outcome Value × World
  | _, current, [], w => (.done current, w)
  | 0, _, _ :: _, w => (.outOfFuel, w)
  | fuel + 1, current, s :: q, w =>
    match takeStep log s current q w with
    | (.ok (v, q'), w') => run log fuel v q' w'
    | (.error f, w') => (.failed f, w')

/-- Evaluates expressions one after the other and gives the value of the last. -/
def evaluate (log : Option Log) (fuel : Nat) (es : List Expr) (frame : FrameId) (w : World) :
    Outcome Value × World :=
  run log fuel .undefined (Queue.ofProgram es frame) w

end Machine

/-! ## Values out of place -/

/-- The fault of finding a value where an expression belongs. -/
def Fault.notExpression (v : Value) : Fault :=
  match v.inspect with
  | .ok text => .program (.kind (.notExpression text))
  | .error f => f

/-- The fault of finding a value where a step belongs. -/
def Fault.notStep (v : Value) : Fault :=
  match v.inspect with
  | .ok text => .program (.kind (.notStep text))
  | .error f => f

end Interleave
