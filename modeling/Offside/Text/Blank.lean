import Offside.Text.Basic

/-!
# Blank characters

The characters that separate words and indent lines are those with the Unicode property
White_Space: the ASCII controls from tab to carriage return, the space, and a handful of wider
spaces and separators. Zero-width characters such as U+200B and U+FEFF are not among them.
-/

namespace Offside

/-- The ranges of code points, both ends included, that make up White_Space. -/
def blankRanges : List (Nat × Nat) :=
  [(0x09, 0x0D), (0x20, 0x20), (0x85, 0x85), (0xA0, 0xA0), (0x1680, 0x1680), (0x2000, 0x200A),
    (0x2028, 0x2029), (0x202F, 0x202F), (0x205F, 0x205F), (0x3000, 0x3000)]

/-- A character is blank when it has the property White_Space. -/
def isBlank (c : Char) : Bool :=
  blankRanges.any fun (low, high) => low ≤ c.toNat && c.toNat ≤ high

namespace Text

/-- A text without the blanks at its start. -/
def trimStart (t : Text) : Text :=
  t.dropWhile isBlank

/-- A text without the blanks at its end. -/
def trimEnd (t : Text) : Text :=
  dropTail isBlank t

/-- A text without the blanks at either end. -/
def trim (t : Text) : Text :=
  trimEnd (trimStart t)

/-- The blanks at the start of a text. -/
def leading (t : Text) : Text :=
  t.takeWhile isBlank

/-- The maximal runs of characters that are not blank. -/
def words (t : Text) : List Text :=
  (t.splitOnP isBlank).filter (· ≠ [])

/-- Nothing is lost between the blanks at the start and the rest. -/
@[simp] theorem leading_append_trimStart (t : Text) : leading t ++ trimStart t = t :=
  List.takeWhile_append_dropWhile

end Text

end Offside
