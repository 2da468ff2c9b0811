import RandomText.Pattern.Reader
import RandomText.Stored.Dump

/-!
# Editing stored trees

A node of a tree is reached by the indices of children on the way to it. Its fields can be set to
anything and its children can be added to and removed; nothing is checked and no derived field is
computed anew.
-/

namespace RandomText.Stored.Value

/-- The name of the field that holds children. -/
def childrenName : Text := "children"

/-- The children of a node as they are stored. -/
def children? : Value → Except Error Value
  | node .group _ _ (children :: _) => .ok children
  | node .root _ _ (children :: _) => .ok children
  | v => .error (.noAttribute v.typeName childrenName)

/-- The index of an element, where a negative one counts from the end. -/
def resolve? (length : Nat) (i : Int) : Option Nat :=
  let n := if i < 0 then i + length else i
  if 0 ≤ n ∧ n < length then some n.toNat else none

/-- The element with an index. -/
def elementAt (i : Int) : Value → Except Error Value
  | list items =>
    match (resolve? items.length i).bind (items[·]?) with
    | some v => .ok v
    | none => .error (.indexOutOfRange "list")
  | text t =>
    match (resolve? t.length i).bind (t[·]?) with
    | some c => .ok (.text [c])
    | none => .error (.indexOutOfRange "str")
  | v => .error (.noEntries v.typeName)

/-- The value at the end of a path. -/
def follow : List Int → Value → Except Error Value
  | [], v => .ok v
  | i :: path, v => do follow path (← (← v.children?).elementAt i)

/-- The same node with other children. -/
def withChildren (v children : Value) : Value :=
  match v with
  | node .group place count (_ :: rest) => node .group place count (children :: rest)
  | node .root place count (_ :: rest) => node .root place count (children :: rest)
  | v => v

/-- The list with the element at `i` replaced. -/
def withElement (v : Value) (i : Int) (element : Value) : Value :=
  match v with
  | list items =>
    match resolve? items.length i with
    | some n => list (items.set n element)
    | none => list items
  | v => v

/-- The tree with the value at the end of a path replaced by `change` of it. -/
def edit (change : Value → Except Error Value) : List Int → Value → Except Error Value
  | [], v => change v
  | i :: path, v => do
    let children ← v.children?
    let child ← edit change path (← children.elementAt i)
    return v.withChildren (children.withElement i child)

/-- The fields with the one of the given name replaced. -/
def setNamed (name : Text) (value : Value) : List Field → List Value → List Value
  | field :: fields, v :: rest =>
    (if field.name = name then value else v) :: setNamed name value fields rest
  | _, rest => rest

/-- A node with a field set; names that its kind does not have are forgotten. -/
def setField (v : Value) (name : Text) (value : Value) : Except Error Value :=
  match v with
  | node kind place count fields =>
    if name = repeatCountName then .ok (node kind place value fields)
    else .ok (node kind place count (setNamed name value kind.fields fields))
  | v => .error (.noAttribute v.typeName name)

/-- The children of a node, if they are a list, for `operation`. -/
def childList (operation : Text) (v : Value) : Except Error (List Value) := do
  match ← v.children? with
  | list items => return items
  | children => throw (.noAttribute children.typeName operation)

/-- A node with one more child at the end. -/
def append (v child : Value) : Except Error Value := do
  let items ← v.childList "append"
  return v.withChildren (list (items ++ [child]))

/-- A node with one more child before the index `i`; a negative one counts from the end, and one
beyond an end means that end. -/
def insert (v : Value) (i : Int) (child : Value) : Except Error Value := do
  let items ← v.childList "insert"
  let n := (if i < 0 then i + items.length else i).toNat
  return v.withChildren (list (items.take n ++ child :: items.drop n))

/-- A node without the child at the index `i`. -/
def remove (v : Value) (i : Int) : Except Error Value := do
  match ← v.children? with
  | list items =>
    match resolve? items.length i with
    | some n => return v.withChildren (list (items.eraseIdx n))
    | none => throw .removalOutOfRange
  | children => throw (.noRemoval children.typeName)

/-- The node that a frame with these children turns into. -/
def close (kind : Pattern.FrameKind) (place : Option Place) (children : List Value) : Value :=
  let make (kind : NodeKind) (sequential : Bool) : Value :=
    node kind place (integer 1) [list children, bool sequential]
  match kind, children with
  | .root, _ => make .root true
  | .bracket .choice, _ => make .group false
  | .range, [child] => child
  | _, _ => make .group true

mutual

/-- Data as a value of a field, unchecked. -/
def ofData : Data → Value
  | .null => null
  | .bool b => bool b
  | .integer n => integer n
  | .float x => float x
  | .text t => text t
  | .list items => list (ofDataAll items)
  | d => raw d

def ofDataAll : List Data → List Value
  | [] => []
  | d :: rest => ofData d :: ofDataAll rest

end

mutual

/-- The places of the nodes of a tree, each before those of its children, in order. -/
def places : Value → List (Option Place)
  | node _ place _ fields => place :: placesAll fields
  | list items => placesAll items
  | _ => []

def placesAll : List Value → List (Option Place)
  | [] => []
  | v :: rest => places v ++ placesAll rest

end

end RandomText.Stored.Value
