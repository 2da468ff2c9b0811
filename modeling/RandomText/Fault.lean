import RandomText.Text.Numeral

/-!
# Faults as users see them

A fault has a message and, as a rule, an index into the text that it is about. It is shown as a
caret under that place with the message below.
-/

namespace RandomText

/-- What a fault was found in. -/
inductive FaultKind where
  /-- The text of a pattern. -/
  | pattern
  /-- The text of an expression, or its evaluation. -/
  | evaluation
  | other
deriving DecidableEq

structure Fault where
  kind : FaultKind
  message : Text
  index : Option Int
deriving DecidableEq

/-- Why there is no place for a caret. -/
inductive CaretError where
  /-- The fault has no index. -/
  | noIndex
  /-- The column is too large in magnitude. -/
  | tooFar
deriving DecidableEq

def CaretError.message : CaretError → Text
  | noIndex => "unsupported operand type(s) for +: 'NoneType' and 'int'"
  | tooFar => "cannot fit 'int' into an index-sized integer"

def FaultKind.name : FaultKind → Text
  | pattern => "SyntaxFault"
  | evaluation => "EvaluationFault"
  | other => "GenpassError"

/-- A line of spaces with a caret after `column` of them, and `message` below it. A negative column
is the first. -/
def caret (column : Int) (message : Text) : Text :=
  List.replicate column.toNat (CodePoint.ofChar ' ') ++ "^\n" ++ message

/-- The magnitude that columns stay below: half of the 64-bit words. -/
def columnLimit : Int := 0x8000000000000000

namespace Fault

/-- The fault with its index, or only its message if it is of no particular kind. -/
def inspect (fault : Fault) : Text :=
  let shown := fault.message.inspect
  let index : Text := match fault.index with
    | none => "None"
    | some i => Numeral.signed i
  match fault.kind with
  | .other => fault.kind.name ++ "(" ++ shown ++ ")"
  | _ => fault.kind.name ++ "(" ++ shown ++ ", " ++ index ++ ")"

/-- The caret under a fault in a text behind a prompt of the given width. -/
def rendered (fault : Fault) (promptWidth : Int) : Except CaretError Text :=
  match fault.index with
  | none => .error .noIndex
  | some i =>
    let column := i + promptWidth
    if column < -columnLimit ∨ columnLimit ≤ column then .error .tooFar
    else .ok (caret column fault.message)

end Fault

end RandomText
