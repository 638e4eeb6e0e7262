/-
White space.

`isBlank` holds of the characters that separate tokens and that are dropped at both ends
of a line typed at the prompt: the white space of Unicode together with the four
information separators U+001C to U+001F.  `strip` drops them at both ends of a text.
-/
import LoxLang.Text.Ranges

namespace LoxLang

/-- First and last code point of each run of white space characters. -/
def blankRanges : List (Nat × Nat) :=
  [(0x09, 0x0d), (0x1c, 0x20), (0x85, 0x85), (0xa0, 0xa0), (0x1680, 0x1680),
   (0x2000, 0x200a), (0x2028, 0x2029), (0x202f, 0x202f), (0x205f, 0x205f),
   (0x3000, 0x3000)]

/-- Whether `c` is white space. -/
def isBlank (c : Char) : Bool :=
  inRanges blankRanges c

/-- The text without the white space at its two ends. -/
def strip (cs : List Char) : List Char :=
  ((cs.dropWhile isBlank).reverse.dropWhile isBlank).reverse

end LoxLang
