import Interleave.SpecialForm

/-!
# Steps

A step is the least unit of work that a program can be stopped after. What a program has still to do
is a queue of steps. Steps carry expressions, values and the positions of frames and of calls, and
nothing else, so a queue can be looked at, compared and shown.

While the elements of a call are evaluated one after the other, their values are collected in a
record of their own, which the steps of the call share by its position.

## Records by position

Two calls under way at the same time have two records, also if they are calls of the same
expression. Steps hold the position of a record and not the values in it, and the values are in the
world. So two queues that are equal may do different things in different worlds. That nobody but the
steps of a call reads or changes its record is not part of the type: it is an invariant, and is
proved of all runs.

The text of a step shows neither frames nor calls. It is what traces show, and like every text with
integers in it, it has a total form and one that breaks off at integers that are too long.
-/

namespace Interleave

/-- The position of the record in which the values of a call are collected. -/
abbrev CallId := Nat

/-- A unit of work. -/
inductive Step where
  /-- Replaces an expression by the steps that evaluate it. -/
  | evaluate (e : Expr) (frame : FrameId)
  /-- Gives a value. -/
  | literal (v : Value)
  /-- Gives the value of a name. -/
  | reference (name : String) (frame : FrameId)
  /-- Adds the current value to the record of a call. -/
  | join (call : CallId)
  /-- Applies the first value in the record of a call to the others. -/
  | apply (call : CallId) (frame : FrameId)
  /-- Goes on with one of two expressions, as the current value says. -/
  | branch (consequent : Expr) (alternative : Option Expr) (frame : FrameId)
  /-- Binds a name to the current value. -/
  | define (name : String) (frame : FrameId)
  /-- Gives a new function. -/
  | closure (params : List String) (body : List Expr) (frame : FrameId)
  deriving DecidableEq

/-- What is still to be done, first step first. -/
abbrev Queue := List Step

namespace Step

/-- Whether every integer in the step is short enough to be written under the cap. -/
def isWritable : Step → Bool
  | evaluate e _ => e.isWritable
  | literal v => v.isWritable
  | branch c a _ => c.isWritable && a.all (·.isWritable)
  | closure _ body _ => Expr.isWritableAll body
  | reference .. | join _ | apply .. | define .. => true

/-- The text of a step, whatever the length of its integers. Frames and calls are not shown. -/
def inspectText : Step → String
  | evaluate e _ => "EvaluateExpression(expr=" ++ e.inspectText ++ ")"
  | literal v => "EvaluateLiteral(value=" ++ v.inspectText ++ ")"
  | reference name _ => "EvaluateReference(name=" ++ Text.quoted name ++ ")"
  | join _ => "JoinArgument()"
  | apply .. => "Apply()"
  | branch c a _ =>
    "BranchOnCondition(consequent=" ++ c.inspectText ++ ", alternative=" ++
      (match a with
        | some e => e.inspectText
        | none => "None") ++ ")"
  | define name _ => "BindDefinition(name=" ++ Text.quoted name ++ ")"
  | closure params body _ =>
    "MakeClosure(params=" ++ Expr.sequenceText (params.map Text.quoted) ++ ", body=" ++
      Expr.sequenceText (Expr.inspectEach body) ++ ")"

def inspect (s : Step) : Except Fault String :=
  if s.isWritable then .ok s.inspectText else .error (.breakdown .integerTooLong)

end Step

/-- The steps that evaluate expressions one after the other. -/
def Queue.ofProgram (es : List Expr) (frame : FrameId) : Queue :=
  es.map (.evaluate · frame)

end Interleave
