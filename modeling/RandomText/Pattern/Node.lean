import RandomText.Pattern.Position

/-!
# Pattern trees

A pattern is a tree whose leaves draw a piece of text and whose groups combine their children. The
conditions under which a node makes sense are part of its type: a repeat count is at least one, a
sample set has a character, a range has an element.
-/

namespace RandomText

/-- What one instance of a leaf may be. -/
inductive Atom where
  /-- The text itself. -/
  | literal (text : Text)
  /-- A printable ASCII character. -/
  | any
  /-- An ASCII letter of one case. -/
  | alpha (uppercase : Bool)
  /-- A decimal digit. -/
  | numeric
  /-- A character of `symbols`. -/
  | symbol
  /-- A character of `basicSymbols`. -/
  | basicSymbol
  /-- One of the characters; one that stands there twice is twice as likely. -/
  | sampleSet (chars : Text) (nonempty : chars ≠ [])
  /-- The decimal text of an integer between two bounds, both included. -/
  | range (first last : Int) (ordered : first ≤ last)
  /-- A character whose code lies between those of two characters, both included. -/
  | charRange (first last : CodePoint) (ordered : first.val ≤ last.val)
deriving DecidableEq

/-- How a group combines its children. -/
inductive GroupKind where
  /-- The whole pattern: its children in order. -/
  | root
  /-- The children in order. -/
  | sequence
  /-- One of the children. -/
  | choice
deriving DecidableEq

/-- What every node carries: how often it is repeated and where it stands. -/
structure Tag where
  repeatCount : Nat
  position : Option Position
  one_le : 1 ≤ repeatCount
deriving DecidableEq

/-- A tag for a node that is not repeated. -/
def Tag.once (position : Option Position) : Tag := ⟨1, position, Nat.le_refl 1⟩

inductive Node where
  | leaf (tag : Tag) (atom : Atom)
  | group (tag : Tag) (kind : GroupKind) (children : List Node)

namespace Atom

def lowercaseLetters : Text := "abcdefghijklmnopqrstuvwxyz"

def uppercaseLetters : Text := "ABCDEFGHIJKLMNOPQRSTUVWXYZ"

def symbols : Text := "!@#$%^&*()_+-=[]\x7b\x7d|;:'\",.<>?"

def basicSymbols : Text := "!@#$%^&*?"

/-- The letters of one case. -/
def letters (uppercase : Bool) : Text := if uppercase then uppercaseLetters else lowercaseLetters

/-- The first printable ASCII code. -/
def printableStart : Int := 32

/-- The code after the last printable ASCII code. -/
def printableStop : Int := 127

end Atom

namespace Node

def tag : Node → Tag
  | leaf tag _ => tag
  | group tag _ _ => tag

def repeatCount (node : Node) : Nat := node.tag.repeatCount

def position (node : Node) : Option Position := node.tag.position

def children : Node → List Node
  | leaf _ _ => []
  | group _ _ children => children

def withTag (tag : Tag) : Node → Node
  | leaf _ atom => leaf tag atom
  | group _ kind children => group tag kind children

/-- The same node, repeated `n` times. -/
def withRepeatCount (n : Nat) (h : 1 ≤ n) (node : Node) : Node :=
  node.withTag ⟨n, node.position, h⟩

section repeatCount

variable (n : Nat) (h : 1 ≤ n)

@[simp]
theorem withRepeatCount_leaf (tag : Tag) (atom : Atom) :
    (leaf tag atom).withRepeatCount n h = leaf ⟨n, tag.position, h⟩ atom := rfl

@[simp]
theorem withRepeatCount_group (tag : Tag) (kind : GroupKind) (children : List Node) :
    (group tag kind children).withRepeatCount n h = group ⟨n, tag.position, h⟩ kind children := rfl

@[simp]
theorem repeatCount_withRepeatCount (node : Node) : (node.withRepeatCount n h).repeatCount = n := by
  cases node <;> rfl

@[simp]
theorem position_withRepeatCount (node : Node) :
    (node.withRepeatCount n h).position = node.position := by
  cases node <;> rfl

@[simp]
theorem children_withRepeatCount (node : Node) :
    (node.withRepeatCount n h).children = node.children := by
  cases node <;> rfl

end repeatCount

/-- The name of the kind of a node in stored trees. -/
def typeName : Node → Text
  | leaf _ (.literal _) => "LiteralNode"
  | leaf _ .any => "AnyNode"
  | leaf _ (.alpha _) => "AlphaNode"
  | leaf _ .numeric => "NumericNode"
  | leaf _ .symbol => "SymbolNode"
  | leaf _ .basicSymbol => "BasicSymbolNode"
  | leaf _ (.sampleSet _ _) => "SampleSetNode"
  | leaf _ (.range _ _ _) => "RangeNode"
  | leaf _ (.charRange _ _ _) => "AsciiRangeNode"
  | group _ .root _ => "RootNode"
  | group _ _ _ => "GroupNode"

mutual

/-- The nodes of a tree, each before its children, in order. -/
def preorder : Node → List Node
  | leaf tag atom => [leaf tag atom]
  | group tag kind children => group tag kind children :: preorderAll children

def preorderAll : List Node → List Node
  | [] => []
  | node :: rest => preorder node ++ preorderAll rest

end

mutual

/-- Whether two trees agree in everything but the positions. -/
def same : Node → Node → Bool
  | leaf t a, leaf u b => t.repeatCount = u.repeatCount && a = b
  | group t k xs, group u l ys => t.repeatCount = u.repeatCount && k = l && sameAll xs ys
  | _, _ => false

def sameAll : List Node → List Node → Bool
  | [], [] => true
  | x :: xs, y :: ys => same x y && sameAll xs ys
  | _, _ => false

end

end Node

end RandomText
