import Interleave.Journal

/-!
# The world

What programs share and change: the store of frames, the records of calls under way, the number of
closures made, the texts printed, and the journal.

A frame binds names to values, in the order of definition, and lies in an outer frame that was made
before it. A name is looked up from frame to frame outward. A definition adds a binding to one frame
and fails if that frame has one for the name already; what outer frames bind does not matter. Frames
are never removed and bindings never changed.

Operations that can fail return the world together with their result, since what was done before a
failure stays done.

## Positions

Frames, records of calls and closures are known by number, in the order in which they were made, and
an operation that makes one gives its number. Nothing is ever removed, so a number stays good.
Numbers of things that do not exist are no values that a program can get hold of, and operations
treat them as empty: there is nothing to be found in a frame that is not there.

## Output

Printed texts and notes are collected in the order in which they come, and one does not appear in
the other. Printing never fails, and texts are sequences of Unicode scalar values.
-/

namespace Interleave

/-! ## Frames -/

/-- Names with their values, in order of definition. -/
abbrev Bindings := List (String × Value)

namespace Bindings

/-- Gives a name a value. A name that has one already keeps its place. -/
def insert (bs : Bindings) (x : String) (v : Value) : Bindings :=
  match bs with
  | [] => [(x, v)]
  | (y, u) :: rest => if y = x then (x, v) :: rest else (y, u) :: insert rest x v

/-- The bindings that result from assigning names to values one after the other. -/
def ofPairs (pairs : List (String × Value)) : Bindings :=
  pairs.foldl (fun bs (x, v) ↦ bs.insert x v) []

end Bindings

/-- A scope: bindings, and the frame that is searched for what they do not bind. -/
structure Frame where
  /-- The next frame outward. -/
  outer : Option FrameId
  /-- The bindings made in this frame. -/
  bindings : Bindings
  deriving DecidableEq

namespace Frame

def value? (f : Frame) (x : String) : Option Value :=
  f.bindings.lookup x

def binds (f : Frame) (x : String) : Bool :=
  (f.value? x).isSome

def push (f : Frame) (x : String) (v : Value) : Frame :=
  { f with bindings := f.bindings ++ [(x, v)] }

def names (f : Frame) : List String :=
  f.bindings.map Prod.fst

end Frame

/-! ## The state -/

/-- The state that programs share. -/
structure World where
  /-- All frames ever made. -/
  frames : Array Frame := #[]
  /-- For every call ever begun, the values of its elements so far. -/
  calls : Array (List Value) := #[]
  /-- How many closures were made. -/
  closures : Nat := 0
  /-- The texts printed, one for each printing. -/
  printed : Array String := #[]
  /-- What happened, in order. -/
  journal : Array Note := #[]
  deriving DecidableEq

namespace World

def note (w : World) (n : Note) : World :=
  { w with journal := w.journal.push n }

/-- Notes something that is traced, if there is a log for it. What the log does not take is not
noted, and nothing has happened. -/
def trace (w : World) (log : Option Log) (n : Note) : Except Breakdown World :=
  match log with
  | none => .ok w
  | some log =>
    match log.verdict n with
    | none => .ok (w.note n)
    | some b => .error b

/-- Prints a text. The stream takes every text: it is never closed or full, and it has an encoding
for all characters. Texts are sequences of Unicode scalar values, so there are no lone surrogates
that an encoding would refuse. -/
def print (w : World) (text : String) : World :=
  { w with printed := w.printed.push text }

/-! ## Looking names up -/

def binds (w : World) (f : FrameId) (x : String) : Bool :=
  (w.frames[f]?).any (·.binds x)

/-- The frame that binds a name, from the given frame outward. Only links to older frames are
followed; there are no others. -/
def find? (w : World) (f : FrameId) (x : String) : Option FrameId :=
  if w.binds f x then some f
  else
    match w.frames[f]?.bind Frame.outer with
    | some g => if g < f then w.find? g x else none
    | none => none
termination_by f

/-- The value of a name, from the given frame outward. -/
def lookup (w : World) (f : FrameId) (x : String) : Except Fault Value :=
  match (w.find? f x).bind fun g ↦ w.frames[g]?.bind (·.value? x) with
  | some v => .ok v
  | none => .error (.program (.unbound x))

def chain (w : World) (f : FrameId) : List Frame :=
  match w.frames[f]? with
  | none => []
  | some frame =>
    match frame.outer with
    | some g => if g < f then frame :: w.chain g else [frame]
    | none => [frame]
termination_by f

/-! ## Making frames and bindings -/

def newFrame (w : World) (outer : Option FrameId) (bindings : Bindings) : FrameId × World :=
  (w.frames.size, { w with frames := w.frames.push ⟨outer, bindings⟩ })

/-- Binds a name in a frame that does not bind it yet. -/
def bind (w : World) (f : FrameId) (x : String) (v : Value) : World :=
  { w with frames := w.frames.modify f (·.push x v) }

/-- Defines a name in a frame. -/
def define (w : World) (f : FrameId) (x : String) (v : Value) : Except Fault Unit × World :=
  if w.binds f x then (.error (.program (.alreadyDefined x)), w) else (.ok (), w.bind f x v)

/-- Defines names in a frame one after the other, up to the first failure. -/
def defineAll (w : World) (f : FrameId) : Bindings → Except Fault Unit × World
  | [] => (.ok (), w)
  | (x, v) :: bs =>
    match w.define f x v with
    | (.ok (), w') => w'.defineAll f bs
    | (.error e, w') => (.error e, w')

def newClosure (w : World) (params : List String) (body : List Expr) (f : FrameId) :
    Value × World :=
  (.closure ⟨w.closures, params, body, f⟩, { w with closures := w.closures + 1 })

/-! ## Records of calls -/

def newCall (w : World) (values : List Value) : CallId × World :=
  (w.calls.size, { w with calls := w.calls.push values })

def collected (w : World) (c : CallId) : List Value :=
  w.calls[c]?.getD []

def collect (w : World) (c : CallId) (v : Value) : World :=
  { w with calls := w.calls.modify c (· ++ [v]) }

/-! ## Showing frames -/

/-- The bindings of a frame, with values as messages show them. -/
def bindingsText (f : Frame) : Except Fault String := do
  let items ← f.bindings.mapM fun (x, v) ↦ return x ++ ": " ++ (← v.inspect)
  return "\x7b" ++ ", ".intercalate items ++ "\x7d"

/-- The text of a frame, with a hint if there is more outside it. -/
def frameText (w : World) (f : FrameId) : Except Fault String :=
  match w.frames[f]? with
  | none => .ok ""
  | some frame => do
    let text ← bindingsText frame
    return if frame.outer.isSome then text ++ " -> ..." else text

/-- The text of a frame and of all frames outside it. -/
def chainText (w : World) (f : FrameId) : Except Fault String := do
  let texts ← (w.chain f).mapM bindingsText
  return "<Environment chain: " ++ " -> ".intercalate texts ++ ">"

end World

end Interleave
