import Interleave.Direct
import Interleave.Expr.Reader
import Interleave.Session.Run

/-!
# Programs in a session

Program text is read as a whole before anything of it is evaluated, so a text that is malformed
changes nothing. It can be made a thread, or evaluated at once, to the end and apart from the
threads, by the queue machine or by the direct evaluator. All of them share the global frame.

## Where programs run

A thread is made in a given frame, or in a new frame inside the global one, to which bindings are
handed over. What runs in a frame of its own can read the global frame, and defines names in its
own.

Evaluations at once take their fuel, or their depth, as an argument, and give it back as an outcome
of its own if it was not enough. What they did to the world up to then stays. They do not show in
the list of threads. An evaluation by the machine may have a log, and without one it fails by the
program alone.
-/

namespace Interleave

/-- A bound that no computation lives to reach. -/
def endless : Nat := Nat.pow 2 60

namespace Session

/-- Reads a program and makes it a thread in a frame. -/
def spawnSource (source : String) (frame : FrameId) (s : Session) : Except Fault Nat × Session :=
  match parse source with
  | .ok program => (.ok s.threads.size, s.spawn program frame)
  | .error f => (.error f, s)

/-- Reads a program and makes it a thread in a new frame with the given bindings. -/
def spawnChild (source : String) (bindings : Bindings) (s : Session) :
    Except Fault Nat × Session :=
  match parse source with
  | .ok program =>
    let (frame, world) := s.world.newFrame (some World.globalFrame) bindings
    (.ok s.threads.size, { s with world }.spawn program frame)
  | .error f => (.error f, s)

/-- Evaluates a program at once with the queue machine. -/
def eval (log : Option Log) (fuel : Nat) (source : String) (s : Session) :
    Outcome Value × Session :=
  match parse source with
  | .error f => (.failed f, s)
  | .ok program =>
    let (outcome, world) := Machine.evaluate log fuel program World.globalFrame s.world
    (outcome, { s with world })

/-- Evaluates a program at once with the direct evaluator. -/
def evalDirect (depth : Nat) (source : String) (s : Session) : Outcome Value × Session :=
  match parse source with
  | .error f => (.failed f, s)
  | .ok program =>
    let (outcome, world) := Direct.evaluateAll depth program World.globalFrame s.world
    (outcome, { s with world })

/-- The names defined in the global frame besides the built-in ones. -/
def definedNames (s : Session) : List String :=
  match s.world.frames[World.globalFrame]? with
  | none => []
  | some frame => frame.names.drop World.builtins.length

end Session

end Interleave
