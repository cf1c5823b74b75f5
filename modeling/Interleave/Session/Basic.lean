import Interleave.Machine

/-!
# Threads and sessions

A thread is a program under way: a queue of steps, a current value, and a count of the steps taken.
A session is a world together with all threads ever made in it, each known by its number. It keeps
the numbers of the active threads in the order in which they take turns, and of the retired and the
failed threads in the order in which they became so.

A thread is retired when it has nothing left to do, when it was cancelled, or when it failed. A
failed thread loses its queue and keeps its error.

## Lists and flags

That a thread is retired is told twice, by its flag and by the list of the retired, and that it
failed is told by its error and by the list of the failed. They need not agree at every moment. A
thread is taken off the list of the active ones at the end of the pass in which it was retired, and
a fault that escapes from a pass leaves that list as it was. What does hold at every moment is
proved about all operations and not built into the structure, since an embedding program works on
the parts.

Steps by hand are part of the interface. `Session.stepThread` lets a thread take one, outside of any
pass; it neither retires the thread nor fails it.
-/

namespace Interleave

/-! ## Threads -/

/-- A program under way. -/
structure Thread where
  /-- The number of the thread. -/
  id : Nat
  /-- What is still to be done. -/
  queue : Queue
  /-- The value of the last step; at the end, of the program. -/
  current : Value := .undefined
  /-- Whether the thread was retired. -/
  isRetired : Bool := false
  /-- The error that the thread failed with. -/
  error : Option ProgramError := none
  /-- Whether the thread is to be retired instead of taking another step. -/
  isCancelled : Bool := false
  /-- How many steps were taken without failing. -/
  steps : Nat := 0
  deriving DecidableEq

namespace Thread

/-- Takes the next step. A step that fails is gone from the queue, and nothing else about the thread
changes. -/
def step (t : Thread) (w : World) : Except Fault Unit × Thread × World :=
  match t.queue with
  | [] => (.error (.breakdown .emptyQueue), t, w)
  | s :: q =>
    match Machine.step s t.current q w with
    | (.ok (v, q'), w') => (.ok (), { t with current := v, queue := q', steps := t.steps + 1 }, w')
    | (.error f, w') => (.error f, { t with queue := q }, w')

def text (t : Thread) : String :=
  "<Thread " ++ Numeral.text t.id ++ (if t.isRetired then " retired" else " active") ++
    " queued=" ++ Numeral.text t.queue.length ++ ">"

end Thread

/-! ## Sessions -/

/-- A world and the threads in it. -/
structure Session where
  /-- What the threads share. -/
  world : World
  /-- All threads ever made, each at the position of its number. -/
  threads : Array Thread := #[]
  /-- The numbers of the active threads, in the order of their turns. -/
  active : Array Nat := #[]
  /-- The numbers of the retired threads, in the order of retirement. -/
  retired : Array Nat := #[]
  /-- The numbers of the failed threads, in the order of failure. -/
  failed : Array Nat := #[]
  deriving DecidableEq

namespace Session

/-- A session whose world holds the built-in functions and constants, and no thread. -/
def fresh : Session :=
  { world := World.fresh }

def isDone (s : Session) : Bool :=
  s.active.isEmpty

def note (s : Session) (n : Note) : Session :=
  { s with world := s.world.note n }

/-- Makes a thread that evaluates expressions in a frame. Its number is the number of threads made
before it. -/
def spawn (s : Session) (program : List Expr) (frame : FrameId) : Session :=
  let id := s.threads.size
  { s with
    world := s.world.note (.spawned id program.length)
    threads := s.threads.push { id, queue := Queue.ofProgram program frame }
    active := s.active.push id }

/-- Asks that a thread be retired instead of taking another step. -/
def cancel (s : Session) (id : Nat) : Session :=
  { s with threads := s.threads.modify id ({ · with isCancelled := true }) }

/-- Retires a thread. Taking it off the list of active threads is left to the pass. -/
def retire (s : Session) (id : Nat) : Session :=
  { s with
    world := s.world.note (.retired id ((s.threads[id]?.map Thread.steps).getD 0))
    threads := s.threads.modify id ({ · with isRetired := true })
    retired := s.retired.push id }

def fail (s : Session) (id : Nat) (e : ProgramError) : Session :=
  retire
    { s with
      threads := s.threads.modify id ({ · with error := some e, queue := [] })
      failed := s.failed.push id }
    id

def stepThread (s : Session) (id : Nat) : Except Fault Unit × Session :=
  match s.threads[id]? with
  | none => (.error (.breakdown .emptyQueue), s)
  | some t =>
    match t.step s.world with
    | (r, t', w') => (r, { s with world := w', threads := s.threads.setIfInBounds id t' })

end Session

end Interleave
