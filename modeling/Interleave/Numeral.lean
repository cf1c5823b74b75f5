import Interleave.Text.Blank
import Interleave.Text.Digit

/-!
# Decimal numerals

Integers are written in decimal, with a minus sign before a negative one. Two conversions are capped
at `Numeral.maxDigits` digits: reading a numeral, where leading zeros count, and writing an integer
into a message. The cap keeps a conversion, whose cost grows with the square of the length, from
being forced by a short program.

* `Numeral.text` writes an integer, whatever its length.
* `Numeral.isNumeral` and `Numeral.value` recognise and read the numerals of program text.
* `Numeral.ofText?` reads the more liberal numerals of settings and of the command line.

## Two kinds of numeral

The numerals of program text are digits from `0` to `9` with an optional minus sign, and nothing
else. A plus sign, an underscore or a digit of another script makes a word a name, or malformed.
Numerals in settings and on the command line are read by the conversion for general use, which takes
all of these, and blanks around the number.

The cap applies to both, and to the digits as they are written. An integer that a program computes
has no cap. So there are integers with which programs can go on computing and that no message can
show, and every function that writes an integer into a message has to say what happens then.
-/

namespace Interleave.Numeral

/-- The most digits that a capped conversion handles. -/
def maxDigits : Nat := 4300

/-- The least number that has more than `maxDigits` digits. -/
def bound : Nat := Nat.pow 10 maxDigits

def isTooLong (n : Int) : Bool :=
  decide (bound ≤ n.natAbs)

/-! ## Writing -/

/-- The decimal digits of an integer, after a minus sign if it is negative. -/
def chars : Int → List Char
  | .ofNat n => Nat.toDigits 10 n
  | .negSucc n => '-' :: Nat.toDigits 10 (n + 1)

def text (n : Int) : String :=
  String.ofList (chars n)

/-! ## Reading program text -/

def magnitude : List Char → List Char
  | '-' :: ds => ds
  | ds => ds

/-- Whether a word is a numeral of program text: an optional minus sign and at least one digit, all
from `0` to `9`. -/
def isNumeral (cs : List Char) : Bool :=
  !(magnitude cs).isEmpty && (magnitude cs).all Char.isDigit

/-- The integer that a numeral of program text denotes. -/
def value : List Char → Int
  | '-' :: ds => -(Nat.ofDigitChars 10 ds 0 : Int)
  | ds => (Nat.ofDigitChars 10 ds 0 : Int)

/-! ## Reading settings -/

/-- The values of decimal digits of any script, where single underscores may stand between two
digits. -/
def digitValues? : List Char → Option (List Nat)
  | [] => none
  -- a last character has to be a digit, which rules out an underscore at the end
  | [c] => (Text.decimalValue? c).map ([·])
  | c :: '_' :: cs => do return (← Text.decimalValue? c) :: (← digitValues? cs)
  | c :: cs => do return (← Text.decimalValue? c) :: (← digitValues? cs)

/-- The number written by a list of digits that is not too long. -/
def ofDigitValues? (ds : List Nat) : Option Nat :=
  if ds.length ≤ maxDigits then some (ds.foldl (fun n d ↦ 10 * n + d) 0) else none

/-- The integer written by a liberal numeral: blanks around it, a sign, decimal digits of any
script, and single underscores between digits. -/
def ofText? (s : String) : Option Int :=
  let around (c : Char) := Text.isBlank c && !Text.isSeparator c
  match Text.trimBy around s.toList with
  | '-' :: cs => (digitValues? cs >>= ofDigitValues?).map fun n ↦ -(n : Int)
  | '+' :: cs => (digitValues? cs >>= ofDigitValues?).map Int.ofNat
  | cs => (digitValues? cs >>= ofDigitValues?).map Int.ofNat

end Interleave.Numeral
