import RandomText.Text.Numeral

/-!
# Places in a text

A position names a text and an index into it; its line and column are computed on demand. Lines end
at line feeds only, and lines and columns count from one.
-/

namespace RandomText

structure Position where
  origin : Text
  index : Int
  input : Text
deriving DecidableEq

namespace Position

/-- The part of the input before the index, if the index lies within the input or at its end. -/
def before? (p : Position) : Option Text :=
  if p.input.isEmpty ∨ p.index < 0 ∨ p.input.length < p.index then none
  else some (p.input.take p.index.toNat)

/-- The line of the index; the first, if the index lies outside of the input. -/
def line (p : Position) : Nat :=
  match p.before? with
  | none => 1
  | some before => before.count (CodePoint.ofChar '\n') + 1

/-- The column of the index; counted from the start, if the index lies outside of the input. -/
def column (p : Position) : Nat :=
  match p.before? with
  | none => if 0 ≤ p.index then p.index.toNat + 1 else 1
  | some before => (before.reverse.takeWhile (· ≠ CodePoint.ofChar '\n')).length + 1

/-- `origin:line:column`. -/
def text (p : Position) : Text :=
  p.origin ++ ":" ++ Numeral.digits p.line ++ ":" ++ Numeral.digits p.column

/-- The position as messages show it. -/
def inspect (p : Position) : Text :=
  "Position(origin=" ++ p.origin.inspect ++ ", index=" ++ Numeral.signed p.index ++ ")"

end Position

end RandomText
