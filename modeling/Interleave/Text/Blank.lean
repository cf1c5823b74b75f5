import Interleave.Text.CodeRange

/-!
# Blank characters

Blanks separate words and are trimmed from settings: the characters of the Unicode property
White_Space, and the four information separators `U+001C` to `U+001F`.

The information separators are blank where texts are split and trimmed, and they end a word in
program text. They are not blank around a numeral, where the conversion for general use has a list
of its own; `Text.isSeparator` tells them apart. The table is given by ranges of code points, in
ascending order, and is complete: a character outside ASCII that looks like a space but is not in
the table, such as the zero-width space, can stand in a name.
-/

namespace Interleave.Text

def blankRanges : List CodeRange :=
  [⟨0x9, 0xD⟩, ⟨0x1C, 0x20⟩, ⟨0x85, 0x85⟩, ⟨0xA0, 0xA0⟩, ⟨0x1680, 0x1680⟩, ⟨0x2000, 0x200A⟩,
   ⟨0x2028, 0x2029⟩, ⟨0x202F, 0x202F⟩, ⟨0x205F, 0x205F⟩, ⟨0x3000, 0x3000⟩]

def isBlank (c : Char) : Bool :=
  inRanges blankRanges c

/-- Whether a character is one of the four information separators, which are blank but may not
stand around a numeral. -/
def isSeparator (c : Char) : Bool :=
  (CodeRange.mk 0x1C 0x1F).contains c

/-- The text without the characters of a class at its two ends. -/
def trimBy (p : Char → Bool) (cs : List Char) : List Char :=
  ((cs.dropWhile p).reverse.dropWhile p).reverse

def trim (s : String) : String :=
  String.ofList (trimBy isBlank s.toList)

end Interleave.Text
