import Interleave.Text.Quoted
import Interleave.Numeral

/-!
# Arguments of the command line

A command line names files and gives switches. The words are first taken for what they look like,
one by one, and the items that come of it are then read from left to right.

* Switches with a value take the next word, if that is a plain one, or have the value attached:
  after `=`, or directly after a letter. Letters can be joined behind one dash, and a long name can
  be cut short where it stays unambiguous.
* What follows the letter of a switch without a value is more letters, also after `=`. An equals
  sign further on is no letter, but it can begin the value of the letter before it.
* Words that begin with a dash are plain if they are a lone dash, look like a negative number, or
  hold a space. After the word `--` all words are plain.
* An attached value that is `--` is left out: the switch is then given nothing.
* The first run of plain words that no switch takes are the names of files. Later runs, like
  switches that do not exist, are not recognised.
-/

namespace Interleave.CommandLine

/-- The switches. -/
inductive Switch where
  /-- Shows how the program is used. -/
  | help
  /-- Runs the given code. -/
  | eval
  /-- Asks for a log; twice, for every step in it. -/
  | verbose
  /-- Stops after the given number of steps. -/
  | maxSteps
  deriving DecidableEq

namespace Switch

def all : List Switch := [help, eval, verbose, maxSteps]

def longName : Switch → String
  | help => "--help"
  | eval => "--eval"
  | verbose => "--verbose"
  | maxSteps => "--max-steps"

def letter? : Switch → Option Char
  | help => some 'h'
  | eval => some 'e'
  | verbose => some 'v'
  | maxSteps => none

def names (s : Switch) : List String :=
  (s.letter?.map fun c ↦ String.ofList ['-', c]).toList ++ [s.longName]

def takesValue : Switch → Bool
  | eval | maxSteps => true
  | help | verbose => false

def named? (word : String) : Option Switch :=
  all.find? (·.names.contains word)

def ofLetter? (c : Char) : Option Switch :=
  all.find? (·.letter? == some c)

def abbreviatedBy (word : String) : List Switch :=
  all.filter fun s ↦ word.toList.isPrefixOf s.longName.toList

end Switch

/-! ## Errors -/

/-- What can be wrong with a command line. -/
inductive UsageError where
  /-- A long name that was cut too short. -/
  | ambiguous (word : String) (candidates : List Switch)
  /-- A switch without the value that it takes. -/
  | missingValue (s : Switch)
  /-- A value for a switch that takes none. -/
  | refusedValue (s : Switch) (value : String)
  /-- A number of steps that is no integer. -/
  | badInteger (s : Switch) (value : String)
  /-- Words that are neither switches nor names of files. -/
  | unrecognized (words : List String)
  /-- Neither a file nor code was given. -/
  | nothingToRun
  deriving DecidableEq

namespace UsageError

def switchText (s : Switch) : String :=
  "argument " ++ "/".intercalate s.names ++ ": "

def message : UsageError → String
  | ambiguous word candidates =>
    "ambiguous option: " ++ word ++ " could match " ++
      ", ".intercalate (candidates.map Switch.longName)
  | missingValue s => switchText s ++ "expected one argument"
  | refusedValue s value => switchText s ++ "ignored explicit argument " ++ Text.quoted value
  | badInteger s value => switchText s ++ "invalid int value: " ++ Text.quoted value
  | unrecognized words => "unrecognized arguments: " ++ " ".intercalate words
  | nothingToRun => "nothing to run: give a file or -e CODE"

def line (e : UsageError) : String :=
  "spindle: error: " ++ e.message

end UsageError

def helpLines : List String :=
  ["usage: spindle [-h] [-e CODE] [-v] [--max-steps MAX_STEPS] [programs ...]",
    "",
    "Interpreter for the Spindle expression language.",
    "",
    "positional arguments:",
    "  programs              source files, one thread each",
    "",
    "options:",
    "  -h, --help            show this help message and exit",
    "  -e CODE, --eval CODE  run CODE as a thread (may be repeated)",
    "  -v, --verbose         log scheduler activity (-vv for every step)",
    "  --max-steps MAX_STEPS",
    "                        stop after this many steps (default:",
    "                        $SPINDLE_MAX_STEPS or unlimited)"]

def helpText : String :=
  String.join (helpLines.map (· ++ "\n"))

/-- Why a command line is not run. -/
inductive Dismissal where
  /-- It is wrong. -/
  | misused (e : UsageError)
  /-- It asks how the program is used. -/
  | helped
  deriving DecidableEq

/-! ## Items -/

/-- What a word looks like. -/
inductive Item where
  /-- A plain word. -/
  | plain (word : String)
  /-- The word after which all words are plain. -/
  | divider
  /-- Switches without values and, last, one more switch, with the value attached to it. A last
  switch that takes a value and has none attached takes the next word. -/
  | switches (first : List Switch) (last : Switch) (value : Option String)
  /-- A switch with text attached that it has no use for. -/
  | refused (s : Switch) (text : String)
  /-- Something that looks like a switch and is none. -/
  | unknown (word : String)
  deriving DecidableEq

namespace Item

/-- A switch named by its letter, after other switches, with text attached to it: its value, or else
more letters. -/
def ofLetters (first : List Switch) (s : Switch) (text : List Char) : Item :=
  if s.takesValue then .switches first s (some (String.ofList text))
  else
    match text with
    | [] => .refused s ""
    | c :: cs =>
      match Switch.ofLetter? c with
      | none => .refused s (String.ofList (c :: cs))
      | some next =>
        if cs.isEmpty then .switches (first ++ [s]) next none
        else ofLetters (first ++ [s]) next cs

/-- A switch named in full, with a value attached to it. -/
def ofLong (s : Switch) (value : String) : Item :=
  if s.takesValue then .switches [] s (some value) else .refused s value

/-- Whether a word looks like a negative number, perhaps with a decimal point, perhaps with a line
feed at its end. -/
def isNegativeNumber : List Char → Bool
  | '-' :: cs =>
    let whole := cs.takeWhile Text.isDecimal
    match cs.dropWhile Text.isDecimal with
    | [] | ['\n'] => !whole.isEmpty
    | '.' :: cs =>
      let fraction := cs.takeWhile Text.isDecimal
      let rest := cs.dropWhile Text.isDecimal
      !fraction.isEmpty && (rest.isEmpty || rest == ['\n'])
    | _ => false
  | _ => false

/-- What a word is that begins with a dash and names no switch. -/
def ofUnnamed (word : String) : Item :=
  if isNegativeNumber word.toList || word.toList.contains ' ' then .plain word else .unknown word

/-- What a word is that begins with two dashes and names no switch in full. -/
def ofAbbreviation (word name : String) (value : Option String) : Except UsageError Item :=
  match Switch.abbreviatedBy name, value with
  | [], _ => .ok (ofUnnamed word)
  | [s], none => .ok (.switches [] s none)
  | [s], some value => .ok (ofLong s value)
  | candidates, _ => .error (.ambiguous word candidates)

/-- What a word is that stands before any divider. -/
def ofWord (word : String) : Except UsageError Item :=
  match Switch.named? word, word.toList with
  | some s, _ => .ok (.switches [] s none)
  | none, '-' :: c :: cs =>
    let name := String.ofList (word.toList.takeWhile (· != '='))
    let value := match word.toList.dropWhile (· != '=') with
      | _ :: text => some (String.ofList text)
      | [] => none
    match Switch.named? name, value with
    | some s, some value =>
      .ok (if c == '-' then ofLong s value else ofLetters [] s value.toList)
    | _, _ =>
      if c == '-' then ofAbbreviation word name value
      else
        match Switch.ofLetter? c with
        | some s => .ok (ofLetters [] s cs)
        | none => .ok (ofUnnamed word)
  | none, _ => .ok (.plain word)

def ofWords : List String → Except UsageError (List Item)
  | [] => .ok []
  | "--" :: words => .ok (.divider :: words.map .plain)
  | word :: words => do return (← ofWord word) :: (← ofWords words)

end Item

/-! ## Arguments -/

/-- After how many steps a command line says to stop. -/
inductive StepLimit where
  /-- It does not say. -/
  | unset
  /-- After the given number. -/
  | steps (n : Int)
  /-- It says so without a number. -/
  | numberless
  deriving DecidableEq

/-- What a command line asks for. -/
structure Arguments where
  /-- The names of files to run. -/
  programs : List String := []
  /-- Code to run. -/
  code : List String := []
  /-- How often a log was asked for. -/
  verbosity : Nat := 0
  /-- After how many steps to stop. -/
  maxSteps : StepLimit := .unset
  deriving DecidableEq

namespace Arguments

def give (a : Arguments) (s : Switch) (value : Option String) : Except Dismissal Arguments :=
  match s, value with
  | .help, _ => .error .helped
  | .verbose, _ => .ok { a with verbosity := a.verbosity + 1 }
  | .eval, _ => .ok { a with code := a.code ++ [value.getD ""] }
  | .maxSteps, none => .ok { a with maxSteps := .numberless }
  | .maxSteps, some text =>
    match Numeral.ofText? text with
    | some n => .ok { a with maxSteps := .steps n }
    | none => .error (.misused (.badInteger s text))

/-- Gives several switches nothing, and the last one its value. -/
def giveAll (a : Arguments) (first : List Switch) (last : Switch) (value : Option String) :
    Except Dismissal Arguments := do
  (← first.foldlM (fun a s ↦ a.give s none) a).give last value

/-- The names of files are one run of words: it is to come, being read, or over. -/
inductive Phase where
  /-- No name was read. -/
  | before
  /-- Names are being read. -/
  | within
  /-- All names were read. -/
  | after
  deriving DecidableEq

/-- The phase after something else than a plain word. -/
def Phase.interrupt : Phase → Phase
  | before => before
  | within | after => after

/-- Reads items, given what was read, the phase, and the words not recognised. -/
def read (a : Arguments) (phase : Phase) (strays : List String) :
    List Item → Except Dismissal Arguments
  | [] => if strays.isEmpty then .ok a else .error (.misused (.unrecognized strays))
  | .plain word :: items =>
    if phase = .after then read a phase (strays ++ [word]) items
    else read { a with programs := a.programs ++ [word] } .within strays items
  | .divider :: items =>
    if phase = .after then read a phase (strays ++ ["--"]) items
    else read a .within strays items
  | .unknown word :: items => read a phase.interrupt (strays ++ [word]) items
  | .refused s text :: _ => .error (.misused (.refusedValue s text))
  | .switches first s (some value) :: items => do
    let value := if value = "--" then none else some value
    read (← a.giveAll first s value) phase.interrupt strays items
  | .switches first s none :: items =>
    if s.takesValue then
      match items with
      | .plain word :: items => do
        read (← a.giveAll first s (some word)) phase.interrupt strays items
      | _ => .error (.misused (.missingValue s))
    else do read (← a.giveAll first s none) phase.interrupt strays items

def ofWords (words : List String) : Except Dismissal Arguments :=
  match Item.ofWords words with
  | .ok items => read {} .before [] items
  | .error e => .error (.misused e)

end Arguments

end Interleave.CommandLine
