import RandomText.Pattern.Lower
import RandomText.Stored.Error
import RandomText.Text.LowerCase

/-!
# Lowering stored trees

A stored tree is lowered as a pattern tree is, as far as the types of its fields allow. A text has a
lower form as well, its lower case.
-/

namespace RandomText.Stored.Value

/-- The text of a value that is one, for escaping. -/
def quotable : Value → Except Error Text
  | text t => .ok t
  | v => .error (.noAttribute v.typeName "replace")

/-- A draw from the characters of a value. -/
def lowerSample (v : Value) : Except Error Text := do
  return Atom.lowerSample (← v.quotable)

/-- A draw from `[low, high)`, rendered by `function`. -/
def lowerRange (function : Text) (low high : Value) : Except Error Text := do
  let low ← low.shown.mapError .numeral
  let high ← high.shown.mapError .numeral
  return function ++ "(rand_range(" ++ low ++ ", " ++ high ++ "))"

/-- `atom` as often as the repeat count says; once is the bare atom. -/
def lowerRepeated (count : Value) (atom : Text) : Except Error Text :=
  if count.equal (.integer 1) then return atom
  else do
    let count ← count.shown.mapError .numeral
    return "repeat(" ++ count ++ ", " ++ atom ++ ")"

/-- The kind of group that a value of the field `sequential` makes. -/
def groupKindOf (sequential : Value) : GroupKind := if sequential.isTrue then .sequence else .choice

/-- One instance of a leaf. -/
def lowerAtom (kind : NodeKind) (fields : List Value) : Except Error Text :=
  match kind, fields with
  | .literal, [t] => do return (← t.quotable).quoted
  | .any, _ => lowerRange "chr" (.integer Atom.printableStart) (.integer Atom.printableStop)
  | .alpha, [uppercase] => return Atom.lowerSample (Atom.letters uppercase.isTrue)
  | .numeric, _ => lowerRange "str" (.integer 0) (.integer 10)
  | .symbol, _ => return Atom.lowerSample Atom.symbols
  | .basicSymbol, _ => return Atom.lowerSample Atom.basicSymbols
  | .sampleSet, [chars] => chars.lowerSample
  | .range, [start, _, stop] => lowerRange "str" start stop
  | .charRange, [_, _, start, stop] => lowerRange "chr" start stop
  | kind, _ => .error (.noAttribute kind.name "lower_one")

/-- The lower forms of the keys of a map. -/
def lowerKeys : List (Data × Data) → Except Error (List Text)
  | [] => return []
  | (.text t, _) :: rest => do return t.lowerCase :: (← lowerKeys rest)
  | (key, _) :: _ => throw (.noAttribute key.typeName "lower")

mutual

/-- The lower form of a value. -/
def lower : Value → Except Error Text
  | node kind _ count [children, sequential] =>
    match kind with
    | .group | .root => do
      let items ← lowerChildren children
      lowerRepeated count (Node.lowerGroup (groupKindOf sequential) items)
    | kind => do lowerRepeated count (← lowerAtom kind [children, sequential])
  | node kind _ count fields => do lowerRepeated count (← lowerAtom kind fields)
  | text t => return t.lowerCase
  | v => throw (.noAttribute v.typeName "lower")

/-- The lower forms of the elements of a value. -/
def lowerChildren : Value → Except Error (List Text)
  | list items => lowerAll items
  | text t => return t.map fun c => Text.lowerCase [c]
  | raw (.map entries) => lowerKeys entries
  | v => throw (.notIterable v.typeName)

def lowerAll : List Value → Except Error (List Text)
  | [] => return []
  | v :: rest => do
    let first ← lower v
    let others ← lowerAll rest
    return first :: others

end

/-- The lower form of one instance of a node. -/
def lowerOne : Value → Except Error Text
  | node kind _ _ [children, sequential] =>
    match kind with
    | .group | .root => do
      return Node.lowerGroup (groupKindOf sequential) (← lowerChildren children)
    | kind => lowerAtom kind [children, sequential]
  | node kind _ _ fields => lowerAtom kind fields
  | v => throw (.noAttribute v.typeName "lower_one")

end RandomText.Stored.Value
