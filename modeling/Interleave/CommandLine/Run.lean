import Interleave.CommandLine.Arguments
import Interleave.CommandLine.File
import Interleave.Session.Program
import Interleave.Settings

/-!
# Running a command line

The files and the code that a command line gives become threads of one session, files first. All
files are fetched before anything else, and all sources are read before anything runs. The status
is 0 if every thread ended without failing, and 1 if a source is malformed, a thread failed, or the
run was stopped by its budget.

Failures of threads are told on the error stream as they happen. With a log, its lines go there
too, in the order of events.

## The log

The log lines come from the journal after the fact, except for one thing: if lines are asked for
twice, or once with a setting that asks for steps, every step is shown to the log before it is
taken, and a log can break off. What it does is not known here, so it is a parameter of `run`. The
program itself passes a log that takes every step. Where steps are not asked for, the log is shown
nothing and cannot break off, whatever it is.

## Reports

A run gives a report: the status, or the fault that stopped the run, and the texts of the two
streams. Printing happens at the end, and the streams are independent, so the order between a line
on one and a line on the other is not part of the report.
-/

namespace Interleave.CommandLine

/-- What a run of the command line leaves behind. -/
structure Report where
  /-- The status, or the breakdown that ended the run. -/
  status : Except Fault Nat
  /-- The text on the output stream. -/
  output : String
  /-- The text on the error stream. -/
  errors : String

def Arguments.sources (a : Arguments) (files : Files) : Except Fault (List Source) := do
  return (← a.programs.mapM (Source.ofFile files)) ++ a.code.map (⟨"<eval>", ·⟩)

def noteText (verbosity : Nat) (n : Note) : String :=
  match n with
  | .reported id e => "thread " ++ Numeral.text id ++ ": " ++ e.report ++ "\n"
  | _ =>
    if 0 < verbosity || n.isError then
      match n.line? with
      | some line => line ++ "\n"
      | none => ""
    else ""

/-- The report on a session, with a last line on the error stream. -/
def report (verbosity : Nat) (s : Session) (status : Except Fault Nat) (lastLine : String) :
    Report where
  status := status
  output := String.join s.world.printed.toList
  errors := String.join (s.world.journal.toList.map (noteText verbosity)) ++ lastLine

/-- Makes every source a thread. If one is malformed, the line that says so is returned, and with
another fault the fault itself. -/
def spawnAll : List Source → Session → Except (Except Fault String) Unit × Session
  | [], s => (.ok (), s)
  | source :: sources, s =>
    match s.spawnSource source.text World.globalFrame with
    | (.ok _, s') => spawnAll sources s'
    | (.error (.program e), s') => (.error (.ok (source.name ++ ": " ++ e.report ++ "\n")), s')
    | (.error (.breakdown b), s') => (.error (.error (.breakdown b)), s')

/-- The status of a run that ended, and the last line told about it. -/
def verdict (budget : Option Int) (s : Session) : Nat × String :=
  if !s.isDone then
    (1, "stopped after " ++ Numeral.text (budget.getD 0) ++ " steps\n")
  else if s.failed.isEmpty then (0, "") else (1, "")

/-- Whether the log is shown every step. It is not asked for anything if there are no log lines. -/
def isTraced (a : Arguments) (settings : Settings.Variables) : Bool :=
  decide (1 < a.verbosity) || decide (0 < a.verbosity) && Settings.traced settings

/-- How the threads of a command line are watched over: failures are told and left at that. -/
def supervision (log : Log) (a : Arguments) (settings : Settings.Variables) : Supervision where
  log := if isTraced a settings then some log else none
  handler := some fun _ _ _ ↦ {}

/-- The budget that a command line or else a setting gives. -/
def Arguments.budget (a : Arguments) (settings : Settings.Variables) :
    Except Fault (Option Int) :=
  match a.maxSteps with
  | .steps n => .ok (some n)
  | .numberless => .error (.breakdown .numberlessLimit)
  | .unset => Settings.maxSteps settings

def runThreads (log : Log) (a : Arguments) (settings : Settings.Variables) (fuel : Nat)
    (s : Session) : Report :=
  match a.budget settings with
  | .error f => report a.verbosity s (.error f) ""
  | .ok budget =>
    match s.run (supervision log a settings) fuel budget with
    | (.done _, s') =>
      let (status, lastLine) := verdict budget s'
      report a.verbosity s' (.ok status) lastLine
    | (.failed f, s') => report a.verbosity s' (.error f) ""
    | (.outOfFuel, s') => report a.verbosity s' (.ok 1) ""

/-- Runs what a command line asks for. -/
def run (files : Files) (settings : Settings.Variables) (log : Log) (fuel : Nat) (a : Arguments) :
    Except UsageError Report :=
  match a.sources files with
  | .error f => .ok (report a.verbosity .fresh (.error f) "")
  | .ok [] => .error .nothingToRun
  | .ok sources =>
    match spawnAll sources .fresh with
    | (.ok (), s) => .ok (runThreads log a settings fuel s)
    | (.error (.ok line), s) => .ok (report a.verbosity s (.ok 1) line)
    | (.error (.error f), s) => .ok (report a.verbosity s (.error f) "")

/-- Reads a command line and runs what it asks for. -/
def execute (files : Files) (settings : Settings.Variables) (log : Log) (fuel : Nat)
    (words : List String) : Except Dismissal Report :=
  match Arguments.ofWords words with
  | .error d => .error d
  | .ok a =>
    match run files settings log fuel a with
    | .error e => .error (.misused e)
    | .ok report => .ok report

end Interleave.CommandLine
