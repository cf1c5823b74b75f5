import Interleave.Fault

/-!
# Settings

Settings come from variables that may be unset. An unset or blank variable gives the default. A flag
is on when its text is one of four words, in upper or lower case. A number of steps is any integer,
and one that is not positive stands for no limit.

## Reading a setting

The text of a variable is trimmed first, so a variable that holds only blanks is as good as unset.
Any word but the four that switch a flag on switches it off, also a word that looks like a mistake.
For a limit it is the other way round: what is no integer is a fault, and its message shows the text
as it was given. The numerals are the liberal ones, with signs, underscores and digits of all
scripts.

Two settings concern runs: whether steps are traced, and after how many steps a run stops. Both are
read when a run begins. They come as a function, so what other variables there are does not matter.
-/

namespace Interleave.Settings

/-- The values of variables, of which some are unset. -/
abbrev Variables := String → Option String

def onWords : List String := ["1", "true", "yes", "on"]

/-- Whether a flag is on. No letter outside ASCII has one of the letters of these words as its lower
case, so lower case in ASCII is enough. -/
def flag (text : Option String) (default : Bool) : Bool :=
  match text.map Text.trim with
  | none | some "" => default
  | some word => onWords.contains (word.map Char.toLower)

/-- The limit that the variable of the given name sets. -/
def limit (name : String) (text : Option String) (default : Option Int) :
    Except Fault (Option Int) :=
  match text with
  | none => .ok default
  | some text =>
    if (Text.trim text).isEmpty then .ok default
    else
      match Numeral.ofText? (Text.trim text) with
      | some n => .ok (if 0 < n then some n else none)
      | none => .error (.breakdown (.badSetting name text))

/-- Whether every step is to be noted before it is taken. -/
def traced (settings : Variables) : Bool :=
  flag (settings "SPINDLE_TRACE") false

/-- After how many steps a run is to stop. -/
def maxSteps (settings : Variables) : Except Fault (Option Int) :=
  limit "SPINDLE_MAX_STEPS" (settings "SPINDLE_MAX_STEPS") none

end Interleave.Settings
