import Interleave.Step

/-!
# The journal

What an interpreter does beyond computing values is noted down as it happens: which special forms
are taken apart, which names are defined, what the threads do, and which errors are reported. The
journal is data. `Note.line?` is the line that a note makes in a log, and whether a log is kept or
shown at all is for others to decide.

## Notes and lines

A note is made whether or not anybody reads it, and reading does not change anything. The two
exceptions are the notes of steps, `Note.step` and `Note.turn`. They are made only if there is a
log, before the step is taken, and the log may refuse them.

## Logs

What a log does with a step depends on how it is set up. It has to write the step down, and steps
hold integers and expressions that may be too long or nested too deeply to be written. One log
leaves such a line out and goes on. Another one lets the failure through, and then whoever takes the
step is broken off by it. So a log is a function that says of each step whether it breaks off, and
how. A run of the machine shows the log the current value as well, and a turn of a thread does not.

Nothing is assumed about logs in general. `Log.lenient` and `Log.strict` are two of them.
-/

namespace Interleave

/-- Something that happened. -/
inductive Note where
  /-- A special form was met. -/
  | expanding (form : SpecialForm)
  /-- A name was defined. -/
  | defined (name : String)
  /-- A traced step of a queue is about to be taken, with a current value and with so many steps
  after it. -/
  | step (step : Step) (current : Value) (remaining : Nat)
  /-- A thread was made for a program of so many expressions. -/
  | spawned (thread forms : Nat)
  /-- A traced step of a thread is about to be taken. -/
  | turn (thread : Nat) (step : Step)
  /-- A thread was retired after so many steps. -/
  | retired (thread steps : Nat)
  /-- A thread failed and nobody was there to be told. -/
  | failed (thread : Nat) (error : ProgramError)
  /-- A thread failed and the handler was told. -/
  | reported (thread : Nat) (error : ProgramError)
  deriving DecidableEq

namespace Note

/-- The part of the interpreter that a note comes from, by which log lines name it. -/
def origin : Note → String
  | expanding _ | defined _ | step .. => "spindle.evaluation.machine"
  | spawned .. | turn .. | retired .. | failed .. | reported .. => "spindle.evaluation.scheduler"

/-- Whether a note is about an error, which is logged also when no log is asked for. -/
def isError : Note → Bool
  | failed .. => true
  | _ => false

/-- The text of a note. A report has none, for the handler has told it already, and neither has a
note of a step with an integer too long to be written. -/
def text? : Note → Option String
  | expanding form => some ("expanding special form " ++ form.name)
  | defined name => some ("defined " ++ name)
  | step s v n =>
    if s.isWritable && v.isWritable then
      some ("step " ++ s.inspectText ++ " acc=" ++ v.inspectText ++
        " remaining=" ++ Numeral.text n)
    else none
  | spawned id forms =>
    some ("spawned thread " ++ Numeral.text id ++ " with " ++ Numeral.text forms ++
      " top-level forms")
  | turn id s =>
    if s.isWritable then some ("thread " ++ Numeral.text id ++ " step " ++ s.inspectText) else none
  | retired id steps =>
    some ("retired thread " ++ Numeral.text id ++ " after " ++ Numeral.text steps ++ " steps")
  | failed id e => some ("thread " ++ Numeral.text id ++ " failed: " ++ e.report)
  | reported .. => none

/-- The line that a note makes in a log. -/
def line? (n : Note) : Option String :=
  n.text?.map fun text ↦ (if n.isError then "ERROR " else "DEBUG ") ++ n.origin ++ ": " ++ text

end Note

/-! ## Logs -/

/-- What a log does about a step that is about to be taken and, where it is shown it, about the
current value: it takes the note, or breaks off. -/
abbrev Log := Step → Option Value → Option Breakdown

namespace Log

/-- The log that takes every note. -/
def lenient : Log := fun _ _ ↦ none

/-- The log that breaks off at an integer which is too long to be written. -/
def strict : Log := fun s current ↦
  if s.isWritable && current.all (·.isWritable) then none else some .integerTooLong

/-- What a log does about a note. All that does not show a step is taken. -/
def verdict (log : Log) : Note → Option Breakdown
  | .step s current _ => log s (some current)
  | .turn _ s => log s none
  | .expanding _ | .defined _ | .spawned .. | .retired .. | .failed .. | .reported .. => none

end Log

end Interleave
