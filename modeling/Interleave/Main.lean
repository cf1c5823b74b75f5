import Interleave.CommandLine.Run

/-!
# The program

Reads the files named on the command line and the variables, runs, and writes what the run leaves
behind to the two streams.

All that depends on the outside is gathered before anything runs: what is found at the paths of the
files and on the way to them, and the values of two variables. From then on `CommandLine.execute` is
a function, and this module hands its report to the streams.

A path at which nothing can be read is treated as one that leads nowhere, whatever the reason. The
log takes every step, and the fuel is a bound that no run lives to reach.
-/

open Interleave

/-- What is found at a path that does not lead through a file. -/
def look (path : String) : IO (Option CommandLine.Entry) := do
  try
    return some (.file (← IO.FS.readFile path))
  catch
    | .inappropriateType .. => return some .directory
    | _ => return none

def lookUp {α : Type} (table : List (String × Option α)) (name : String) : Option α :=
  (table.lookup name).join

/-- Writes a report to the two streams and gives the status. -/
def deliver (report : CommandLine.Report) : IO UInt32 := do
  IO.print report.output
  IO.eprint report.errors
  match report.status with
  | .ok status => return status.toUInt32
  | .error f =>
    IO.eprintln f.message
    return 1

/-- Says why a command line is not run and gives the status. -/
def dismiss : CommandLine.Dismissal → IO UInt32
  | .misused e => do
    IO.eprintln e.line
    return 2
  | .helped => do
    IO.print CommandLine.helpText
    return 0

/-- What is found at the paths of files, and on the way to them. -/
def lookAround (names : List String) : IO (List (String × Option CommandLine.Entry)) :=
  ((names.map CommandLine.Path.ofName).flatMap CommandLine.Path.trail).mapM fun path ↦
    return (path.text, ← look path.text)

/-- Runs a command line and gives the status. -/
def main (words : List String) : IO UInt32 := do
  let files ← match CommandLine.Arguments.ofWords words with
    | .ok arguments => lookAround arguments.programs
    | .error _ => pure []
  let settings ← ["SPINDLE_TRACE", "SPINDLE_MAX_STEPS"].mapM fun name ↦
    return (name, ← IO.getEnv name)
  match CommandLine.execute (lookUp files) (lookUp settings) .lenient endless words with
  | .error dismissal => dismiss dismissal
  | .ok report => deliver report
