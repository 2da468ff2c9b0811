import RandomText.Stored.Check

/-!
# Loading trees

A map with a node type becomes a node; the other values become themselves, and a map without one is
refused. Keys that start with an underscore or name no stored field are ignored.
-/

namespace RandomText.Stored

/-- The key of a node's type. -/
def typeKey : Data := .text "_type"

/-- The key of a node's position. -/
def positionKey : Data := .text "_position"

/-- Whether some text stands anywhere in `t`. -/
def occursIn (part : Text) : Text → Bool
  | [] => part.isEmpty
  | c :: rest => part.isPrefixOf (c :: rest) || occursIn part rest

/-- Whether a document names a node type. -/
def hasNodeType : Data → Except Error Bool
  | .map entries => .ok (Data.lookup typeKey entries).isSome
  | .list items => .ok (items.any (·.equal typeKey))
  | .set elements => .ok (elements.any (·.equal typeKey))
  | .pair key value => .ok (key.equal typeKey || value.equal typeKey)
  | .cycle _ => .ok false
  | .text t => .ok (occursIn "_type" t)
  | .bytes _ => .error .bytesNeeded
  | v => .error (.noMembers v.typeName)

/-- The entry of a value with a given name. -/
def entry (name : Text) : Data → Except Error Data
  | .map entries =>
    match Data.lookup (.text name) entries with
    | some v => .ok v
    | none => .error (.missingKey name.inspect)
  | .text _ => .error .textIndex
  | .list _ => .error .listIndex
  | .cycle .list => .error .listIndex
  | .cycle .map => .error (.missingKey name.inspect)
  | .bytes _ => .error .bytesIndex
  | v => .error (.noEntries v.typeName)

/-- The place that a document gives to a node. -/
def placeOf (d : Data) : Except Error Place := do
  let origin ← entry "origin" d
  let index ← entry "index" d
  return ⟨origin, index⟩

/-- The place of a map, if it has one. -/
def placeOf? (entries : List (Data × Data)) : Except Error (Option Place) :=
  match Data.lookup positionKey entries with
  | some d => do return some (← placeOf d)
  | none => return none

/-- Whether a value can be looked up; collections cannot. -/
def checkHashable : Data → Except Error Unit
  | .list _ => .error (.unhashable "list")
  | .map _ => .error (.unhashable "dict")
  | .set _ => .error (.unhashable "set")
  | .cycle .list => .error (.unhashable "list")
  | .cycle .map => .error (.unhashable "dict")
  | _ => .ok ()

/-- The kind of nodes that a node type names. -/
def kindOf (d : Data) : Except Error NodeKind := do
  checkHashable d
  let known := match d with
    | .text t => NodeKind.ofName? t
    | _ => none
  match known with
  | some kind => return kind
  | none => throw (.unknownNodeType (← d.shown.mapError .numeral))

/-- The name that a key gives to a value, unless it is to be ignored. -/
def nameOf (key : Data) : Except Error (Option Text) :=
  match key with
  | .text t => return if t.head? = some (CodePoint.ofChar '_') then none else some t
  | .bytes _ => throw .bytesPrefixNeeded
  | v => throw (.noAttribute v.typeName "startswith")

/-- Whether documents store a field of this name in nodes of a kind. -/
def NodeKind.stores (kind : NodeKind) (name : Text) : Bool :=
  name = repeatCountName || kind.fields.any fun f => f.isStored && f.name = name

mutual

/-- The value of a document, or of a part of it. -/
def loadValue : Data → Except Error Value
  | .null => return .null
  | .bool b => return .bool b
  | .integer n => return .integer n
  | .text t => return .text t
  | .list items => return .list (← loadItems items)
  | .map entries =>
    match Data.lookup typeKey entries with
    | some type => do
      let kind ← kindOf type
      let place ← placeOf? entries
      makeNode kind place (← loadEntries kind entries)
    | none => throw (.notLoadable "dict")
  | .cycle _ => throw .endless
  | v => throw (.notLoadable v.typeName)

def loadItems : List Data → Except Error (List Value)
  | [] => return []
  | d :: rest => do
    let first ← loadValue d
    let others ← loadItems rest
    return first :: others

/-- The values that the entries of a map give to the fields of a kind, in their order. -/
def loadEntries (kind : NodeKind) : List (Data × Data) → Except Error Given
  | [] => return []
  | (key, d) :: rest => do
    let name? ← nameOf key
    match name? with
    | some name =>
      if kind.stores name then
        let v ← loadValue d
        let others ← loadEntries kind rest
        return (name, v) :: others
      else loadEntries kind rest
    | none => loadEntries kind rest

end

/-- The tree of a document; the null document is the null tree. -/
def load (d : Data) : Except Error Value := do
  match d with
  | .null => return .null
  | d =>
    if ← hasNodeType d then
      match d with
      | .map entries => loadValue (.map entries)
      | d => do
        let _ ← entry "_type" d
        throw .noNodeType
    else throw .noNodeType

end RandomText.Stored
