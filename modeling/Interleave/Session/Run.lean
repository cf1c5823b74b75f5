import Interleave.Session.Basic

/-!
# Turns

Threads take turns. In a pass every active thread is visited once, in order: it takes one step and
stays active if it has more to do, or else is retired. A thread that was cancelled, or has nothing
to do, is retired without a step. A run is a sequence of passes until no thread is active.

**Budgets.** A pass and a run can be given a budget of steps, failing ones included. When it is
used up in the middle of a pass, the threads not yet visited stay active behind those that were.

**Failures.** A program error fails its thread only. If the session has a handler, the handler is
told and answers with reactions: it may cancel threads, make new ones, and raise a fault of its
own. New threads join the end of the list being visited, so the same pass comes to them. A fault
that a handler raises, or a breakdown, ends the pass where it is: the list of active threads stays
what it was, so threads retired earlier in the pass are still on it and will be retired once more.

`Session.visit` is the visit of one thread, and passes and runs repeat it. Without a budget they
may never end, so they take fuel, and running out of it is told apart from ending.
-/

namespace Interleave

/-! ## Handlers -/

/-- What a handler does about a failure. -/
inductive Reaction where
  /-- Cancels a thread. -/
  | cancel (id : Nat)
  /-- Makes a thread that evaluates expressions in a frame. -/
  | spawn (program : List Expr) (frame : FrameId)

/-- The answer of a handler: reactions, in order, and then perhaps a fault of its own. -/
structure Response where
  /-- What the handler does. -/
  reactions : List Reaction := []
  /-- The fault that it then raises. -/
  raises : Option Fault := none

/-- What to do about the failure of a thread, given by number, in the session that it leaves.

A handler looks at the session, and all that it can do is in its response. Handlers that step
threads by hand, evaluate texts or start passes and runs of their own while they are told of a
failure are left out: a pass is never begun in the middle of another one. -/
abbrev Handler := Session → Nat → ProgramError → Response

/-- How passes are watched over. -/
structure Supervision where
  /-- The log that is shown every step before it is taken. Without one, steps are not traced. -/
  log : Option Log := none
  /-- Who is told of failures. Without a handler they are noted only. -/
  handler : Option Handler := none

namespace Session

def react (s : Session) : Reaction → Session
  | .cancel id => s.cancel id
  | .spawn program frame => s.spawn program frame

/-- Tells of a failure; a fault is returned if the handler raises one. -/
def tell (handler : Option Handler) (id : Nat) (e : ProgramError) (s : Session) :
    Option Fault × Session :=
  match handler with
  | none => (none, s.note (.failed id e))
  | some h =>
    let response := h s id e
    (response.raises, response.reactions.foldl react (s.note (.reported id e)))

end Session

/-! ## Passes -/

/-- How far a pass has come. -/
structure Progress where
  /-- How many of the active threads were visited. -/
  visited : Nat := 0
  /-- The numbers of the visited threads that stay active. -/
  kept : Array Nat := #[]
  /-- How many steps were taken, failing ones included. -/
  executed : Nat := 0
  deriving DecidableEq

namespace Progress

/-- The progress after the visit of a thread that is retired without a step. -/
def skip (p : Progress) : Progress :=
  { p with visited := p.visited + 1 }

/-- The progress after the visit of a thread that took its last step. -/
def drop (p : Progress) : Progress :=
  { p with visited := p.visited + 1, executed := p.executed + 1 }

/-- The progress after the visit of a thread that took a step and stays active. -/
def keep (p : Progress) (id : Nat) : Progress :=
  { visited := p.visited + 1, kept := p.kept.push id, executed := p.executed + 1 }

end Progress

/-- What comes of a visit. -/
inductive Visit where
  /-- The pass goes on. -/
  | next (p : Progress) (s : Session)
  /-- The pass is over, after so many steps. -/
  | finished (executed : Nat) (s : Session)
  /-- A fault ended the pass. -/
  | broken (f : Fault) (s : Session)

namespace Session

def hasSteps (s : Session) (id : Nat) : Bool :=
  (s.threads[id]?).any (!·.queue.isEmpty)

/-- Traces the next step of a thread. -/
def traceTurn (log : Option Log) (id : Nat) (s : Session) : Except Breakdown Session :=
  match (s.threads[id]?).bind (·.queue.head?) with
  | some step => (s.world.trace log (.turn id step)).map fun world ↦ { s with world }
  | none => .ok s

/-- Lets a visited thread take its step. If the log breaks off, the thread still has the step before
it. -/
def turn (sup : Supervision) (p : Progress) (id : Nat) (s : Session) : Visit :=
  match s.traceTurn sup.log id with
  | .error b => .broken (.breakdown b) s
  | .ok traced =>
    match traced.stepThread id with
    | (.ok (), s') =>
      if s'.hasSteps id then .next (p.keep id) s' else .next p.drop (s'.retire id)
    | (.error (.program e), s') =>
      -- the thread is retired before anybody is told, so a handler finds it retired
      match (s'.fail id e).tell sup.handler id e with
      | (none, s'') => .next p.drop s''
      | (some f, s'') => .broken f s''
    | (.error (.breakdown b), s') => .broken (.breakdown b) s'

/-- Whether a thread is to be retired without a step. -/
def isIdle (s : Session) (id : Nat) : Bool :=
  (s.threads[id]?).all fun t ↦ t.isCancelled || t.queue.isEmpty

/-- Visits the next thread, unless the budget is used up. -/
def visit (sup : Supervision) (budget : Option Int) (p : Progress) (s : Session) : Visit :=
  match s.active[p.visited]? with
  | none => .finished p.executed { s with active := p.kept }
  | some id =>
    if budget.any (· ≤ (p.executed : Int)) then
      -- those not visited yet lose their turn in this pass, but not their place
      .finished p.executed { s with active := p.kept ++ s.active.extract p.visited }
    else if s.isIdle id then .next p.skip (s.retire id)
    else s.turn sup p id

/-- Goes on with a pass, for at most `fuel` visits. -/
def passFrom (sup : Supervision) (budget : Option Int) :
    (fuel : Nat) → Progress → Session → Outcome Nat × Session
  | 0, _, s => (.outOfFuel, s)
  | fuel + 1, p, s =>
    match s.visit sup budget p with
    | .next p' s' => passFrom sup budget fuel p' s'
    | .finished n s' => (.done n, s')
    | .broken f s' => (.failed f, s')

/-- Visits every active thread once and gives the number of steps taken. -/
def pass (sup : Supervision) (fuel : Nat) (budget : Option Int) (s : Session) :
    Outcome Nat × Session :=
  passFrom sup budget fuel {} s

/-! ## Runs -/

/-- Runs passes after `executed` steps were taken, for at most `fuel` passes of at most so many
visits each. -/
def runFrom (sup : Supervision) (budget : Option Int) :
    (fuel executed : Nat) → Session → Outcome Nat × Session
  | 0, _, s => (.outOfFuel, s)
  | fuel + 1, executed, s =>
    let left := budget.map (· - (executed : Int))
    if s.isDone || left.any (· ≤ 0) then (.done executed, s)
    else
      match s.pass sup fuel left with
      | (.done n, s') => runFrom sup budget fuel (executed + n) s'
      | other => other

/-- Runs passes until no thread is active or the budget is used up, and gives the number of steps
taken. -/
def run (sup : Supervision) (fuel : Nat) (budget : Option Int) (s : Session) :
    Outcome Nat × Session :=
  runFrom sup budget fuel 0 s

end Session

end Interleave
