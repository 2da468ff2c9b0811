import RandomText.Yaml.Error

/-!
# A place in a document

A cursor stands before the rest of a document and knows its index, line and column. Looking beyond
the end shows U+0000, which stands in no document.
-/

namespace RandomText.Yaml

structure Cursor where
  rest : Text
  index : Nat
  line : Nat
  column : Nat

namespace Cursor

def start (text : Text) : Cursor := ⟨text, 0, 0, 0⟩

end Cursor

/-- What is seen at the end. -/
def finish : CodePoint := ⟨0, by decide⟩

def isEnd (c : CodePoint) : Bool := c.val = 0

/-- Line feed, carriage return, next line, line separator and paragraph separator. -/
def isBreak (c : CodePoint) : Bool :=
  c.val = 10 || c.val = 13 || c.val = 0x85 || c.val = 0x2028 || c.val = 0x2029

def isBreakOrEnd (c : CodePoint) : Bool := isEnd c || isBreak c

/-- What may stand behind a directive, a tag or a block scalar's header. -/
def isSpaceOrEnd (c : CodePoint) : Bool := isBreakOrEnd c || c = ' '

/-- What ends a word. -/
def isBlankOrEnd (c : CodePoint) : Bool := isSpaceOrEnd c || c = '\t'

/-- A letter, a digit, a hyphen or an underscore. -/
def isWordPart (c : CodePoint) : Bool := c.isDigit || c.isLetter || c = '-' || c = '_'

/-- Whether `c` stands in `set`. -/
def isOneOf (set : Text) (c : CodePoint) : Bool := set.contains c

namespace Cursor

def peek (c : Cursor) : CodePoint := c.rest.headD finish

def peekAt (c : Cursor) (k : Nat) : CodePoint := c.rest.getD k finish

/-- The cursor behind the next code point. A carriage return before a line feed ends no line. -/
def advance (c : Cursor) : Cursor :=
  match c.rest with
  | [] => c
  | d :: rest =>
    if d.val = 10 ∨ d.val = 0x85 ∨ d.val = 0x2028 ∨ d.val = 0x2029 ∨
        (d.val = 13 ∧ (rest.headD finish).val ≠ 10) then
      ⟨rest, c.index + 1, c.line + 1, 0⟩
    else if d.val = 0xFEFF then ⟨rest, c.index + 1, c.line, c.column⟩
    else ⟨rest, c.index + 1, c.line, c.column + 1⟩

def advanceBy (c : Cursor) : Nat → Cursor
  | 0 => c
  | n + 1 => c.advance.advanceBy n

/-- The longest text of code points with a property, and the cursor behind it. -/
def takeWhile (c : Cursor) (p : CodePoint → Bool) : Text × Cursor :=
  let taken := c.rest.takeWhile p
  (taken, c.advanceBy taken.length)

def skipWhile (c : Cursor) (p : CodePoint → Bool) : Cursor := (c.takeWhile p).2

def skipSpaces (c : Cursor) : Cursor := c.skipWhile fun d => d = ' '

/-- The cursor behind a comment, if one begins here. -/
def skipComment (c : Cursor) : Cursor :=
  if c.peek = '#' then c.skipWhile fun d => !isBreakOrEnd d else c

/-- The break at the cursor, with a line feed for every break that has no form of its own, and the
cursor behind it. -/
def lineBreak? (c : Cursor) : Option (CodePoint × Cursor) :=
  let d := c.peek
  if d.val = 13 ∧ (c.peekAt 1).val = 10 then some ('\n', c.advanceBy 2)
  else if d.val = 10 ∨ d.val = 13 ∨ d.val = 0x85 then some ('\n', c.advance)
  else if d.val = 0x2028 ∨ d.val = 0x2029 then some (d, c.advance)
  else none

/-- Whether three equal marks stand here as a word. -/
def hasMarks (c : Cursor) (mark : CodePoint) : Bool :=
  c.rest.take 3 = [mark, mark, mark] && isBlankOrEnd (c.peekAt 3)

/-- Whether a mark between documents stands here, whatever the column. -/
def hasDocumentMark (c : Cursor) : Bool := c.hasMarks '-' || c.hasMarks '.'

/-- The text between two line breaks as folding leaves it: the breaks after the first one, or a
space if there is none. A break with a form of its own is kept. -/
def folded (first : CodePoint) (breaks : Text) : Text :=
  if first ≠ '\n' then first :: breaks
  else if breaks.isEmpty then " "
  else breaks

end Cursor

end RandomText.Yaml
