import RandomText.Text.CodePoint

/-!
# Blank code points

The white space of Unicode together with the four information separators U+001C to U+001F.
-/

namespace RandomText

namespace CodePoint

/-- The information separators U+001C to U+001F. -/
def isSeparator (c : CodePoint) : Bool := 28 ≤ c.val && c.val ≤ 31

def isBlank (c : CodePoint) : Bool :=
  (9 ≤ c.val && c.val ≤ 13) || c.isSeparator || c.val = 32 || c.val = 0x85 || c.val = 0xA0 ||
    c.val = 0x1680 || (0x2000 ≤ c.val && c.val ≤ 0x200A) || c.val = 0x2028 || c.val = 0x2029 ||
    c.val = 0x202F || c.val = 0x205F || c.val = 0x3000

def isSpaceOrTab (c : CodePoint) : Bool := c = ' ' || c = '\t'

end CodePoint

namespace Text

/-- The text without the blanks at its two ends. -/
def trimmed (t : Text) : Text :=
  ((t.dropWhile CodePoint.isBlank).reverse.dropWhile CodePoint.isBlank).reverse

end Text

end RandomText
