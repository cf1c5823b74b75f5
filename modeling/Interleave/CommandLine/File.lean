import Interleave.Fault

/-!
# Files of the command line

A command line calls files by name. A name is a path once its empty segments and its single dots are
left out, and messages show it so; two dots stay, for what they lead to is not for the name to say.
A path may begin with one slash or with two. More than two are one.

A path is followed segment by segment, through directories, and the first segment that leads no
further says why. Before that, the path as a whole must not be too long.

## Files as a function

What there is at a path is given by a function from the texts of paths to entries, so the rest of
the program does not ask anybody for files, and a run is settled by its arguments. The function is
asked for every path on the way, since a file in the place of a directory has another message than a
path that leads nowhere. The paths that only go upward are directories whatever the function says.

Files are texts. That a file can hold bytes that are no text, that it may not be read by everyone,
and that it may change while it is read is left out. Line ends are unified when a source is fetched,
so offsets count a carriage return and a line feed as one character.
-/

namespace Interleave.CommandLine

/-! ## Paths -/

/-- A path. -/
structure Path where
  /-- The slashes that it begins with. -/
  root : String
  /-- The segments between slashes, none of them empty or a single dot. -/
  segments : List String
  deriving DecidableEq

namespace Path

/-- The slashes that a path begins with, given how many are written. -/
def rootOf : Nat → String
  | 0 => ""
  | 2 => "//"
  | _ => "/"

def ofName (name : String) : Path where
  root := rootOf (name.toList.takeWhile (· == '/')).length
  segments := (name.splitOn "/").filter fun segment ↦ segment != "" && segment != "."

/-- The text of a path. The path without segments that begins with no slash is a single dot. -/
def text (p : Path) : String :=
  if p.root.isEmpty && p.segments.isEmpty then "." else p.root ++ "/".intercalate p.segments

def push (p : Path) (segment : String) : Path :=
  { p with segments := p.segments ++ [segment] }

/-- The paths passed on the way to a path, and last the path itself. -/
def trail (p : Path) : List Path :=
  (List.range (p.segments.length + 1)).map fun n ↦ { p with segments := p.segments.take n }

/-- Whether a path only goes upward, and so leads to a directory whatever files there are. -/
def isUpward (p : Path) : Bool :=
  p.segments.all (· == "..")

def maxBytes : Nat := 4095

def maxSegmentBytes : Nat := 255

end Path

/-! ## Files -/

/-- What can be found at a path. -/
inductive Entry where
  /-- A file with the given text. -/
  | file (text : String)
  /-- A directory. -/
  | directory
  deriving DecidableEq

/-- What is found at the paths of given texts. -/
abbrev Files := String → Option Entry

namespace Path

/-- What is found at a path that was followed up to its last segment. -/
def found? (p : Path) (files : Files) : Option Entry :=
  if p.isUpward then some .directory else files p.text

/-- Follows segments from the path and the entry that were reached. -/
def follow (files : Files) (reached : Path) : Entry → List String → Except FileError Entry
  | e, [] => .ok e
  | .file _, _ :: _ => .error .notDirectory
  | .directory, segment :: segments =>
    if maxSegmentBytes < segment.utf8ByteSize then .error .tooLong
    else
      match (reached.push segment).found? files with
      | some e => follow files (reached.push segment) e segments
      | none => .error .missing

def read (p : Path) (files : Files) : Except FileError String :=
  if maxBytes < p.text.utf8ByteSize then .error .tooLong
  else
    match follow files { p with segments := [] } .directory p.segments with
    | .ok (.file text) => .ok text
    | .ok .directory => .error .directory
    | .error e => .error e

def fetch (p : Path) (files : Files) : Except Fault String :=
  if p.text.contains '\x00' then .error (.breakdown .nullInPath)
  else
    match p.read files with
    | .ok text => .ok text
    | .error e => .error (.breakdown (.file e p.text))

end Path

/-- A text with every line ended by a line feed alone. -/
def unifyLines : List Char → List Char
  | [] => []
  | '\r' :: '\n' :: cs => '\n' :: unifyLines cs
  | '\r' :: cs => '\n' :: unifyLines cs
  | c :: cs => c :: unifyLines cs

/-- A source with the name by which messages call it. -/
structure Source where
  /-- The name. -/
  name : String
  /-- The text. -/
  text : String

def Source.ofFile (files : Files) (name : String) : Except Fault Source := do
  return ⟨name, String.ofList (unifyLines (← (Path.ofName name).fetch files).toList)⟩

end Interleave.CommandLine
