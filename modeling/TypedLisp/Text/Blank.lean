import TypedLisp.Text.Ranges

/-!
# Blank characters

The characters with the property White_Space, and texts without them at their ends.
-/

namespace TypedLisp.Text

/-- The code points with the property White_Space. -/
def blankRanges : Ranges := [
  (0x9, 0xd), (0x20, 0x20), (0x85, 0x85), (0xa0, 0xa0), (0x1680, 0x1680), (0x2000, 0x200a),
  (0x2028, 0x2029), (0x202f, 0x202f), (0x205f, 0x205f), (0x3000, 0x3000)]

/-- Whether the character is blank. -/
def isBlank (c : Char) : Bool := inRanges blankRanges c

/-- The text without the blanks at its two ends. -/
def trim (s : String) : String :=
  let trimmed := (s.toList.dropWhile isBlank).reverse.dropWhile isBlank
  String.ofList trimmed.reverse

end TypedLisp.Text
