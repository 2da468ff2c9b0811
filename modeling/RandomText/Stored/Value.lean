import RandomText.Data.Inspect
import RandomText.Pattern.Node

/-!
# Stored trees

A tree that comes from a document has nodes of the known kinds, but the fields of a node hold what
the document gave them: a repeat count may be a truth value, a text may be a number or a node.
Nothing is checked beyond what is needed to make a node.
-/

namespace RandomText.Stored

inductive NodeKind where
  | literal
  | any
  | alpha
  | numeric
  | symbol
  | basicSymbol
  | sampleSet
  | range
  | charRange
  | group
  | root
deriving DecidableEq

/-- How a field gets its value. -/
inductive FieldRole where
  /-- From the document, which must have it. -/
  | required
  /-- From the document, or else a default. -/
  | optional
  /-- From the other fields. -/
  | derived
  /-- From the kind of the node alone. -/
  | fixed
deriving DecidableEq

/-- A field of a kind of nodes. -/
structure Field where
  name : Text
  role : FieldRole
deriving DecidableEq

namespace NodeKind

def all : List NodeKind :=
  [literal, any, alpha, numeric, symbol, basicSymbol, sampleSet, range, charRange, group, root]

/-- The name of a kind in documents. -/
def name : NodeKind → Text
  | literal => "LiteralNode"
  | any => "AnyNode"
  | alpha => "AlphaNode"
  | numeric => "NumericNode"
  | symbol => "SymbolNode"
  | basicSymbol => "BasicSymbolNode"
  | sampleSet => "SampleSetNode"
  | range => "RangeNode"
  | charRange => "AsciiRangeNode"
  | group => "GroupNode"
  | root => "RootNode"

def ofName? (name : Text) : Option NodeKind := all.find? (·.name = name)

/-- The fields of a kind, the repeat count aside. -/
def fields : NodeKind → List Field
  | literal => [⟨"text", .required⟩]
  | alpha => [⟨"uppercase", .optional⟩]
  | sampleSet => [⟨"chars", .required⟩]
  | range => [⟨"start", .required⟩, ⟨"end", .required⟩, ⟨"stop", .derived⟩]
  | charRange =>
    [⟨"first", .required⟩, ⟨"last", .required⟩, ⟨"start", .derived⟩, ⟨"stop", .derived⟩]
  | group => [⟨"children", .optional⟩, ⟨"sequential", .optional⟩]
  | root => [⟨"children", .optional⟩, ⟨"sequential", .fixed⟩]
  | _ => []

end NodeKind

/-- Whether documents give a value to a field. -/
def Field.isStored (field : Field) : Bool := field.role = .required || field.role = .optional

/-- Whether messages show a field. -/
def Field.isShown (field : Field) : Bool := field.role ≠ .derived

/-- An origin and an index as a document gave them. -/
structure Place where
  origin : Data
  index : Data

/-- The position that a place names, if its origin is a text and its index an integer. The text
itself is not known. -/
def Place.position? (place : Place) : Option Position :=
  match place.origin, place.index with
  | .text origin, .integer index => some ⟨origin, index, []⟩
  | _, _ => none

/-- The name of the repeat count in documents. -/
def repeatCountName : Text := "repeat_count"

inductive Value where
  | null
  | bool (b : Bool)
  | integer (n : Int)
  | float (x : Double)
  | text (t : Text)
  | list (items : List Value)
  /-- Data of any other type; it never holds a node. -/
  | raw (data : Data)
  /-- A node with one value for each of the fields of its kind. -/
  | node (kind : NodeKind) (place : Option Place) (repeatCount : Value) (fields : List Value)

instance : Inhabited Value := ⟨.null⟩

namespace Value

/-- The name of the type of a value in messages. -/
def typeName : Value → Text
  | null => "NoneType"
  | bool _ => "bool"
  | integer _ => "int"
  | float _ => "float"
  | text _ => "str"
  | list _ => "list"
  | raw d => d.typeName
  | node kind _ _ _ => kind.name

/-- Whether a value counts as true. -/
def isTrue : Value → Bool
  | null => false
  | bool b => b
  | integer n => n ≠ 0
  | float x => !x.isZero
  | text t => !t.isEmpty
  | list items => !items.isEmpty
  | raw (.map entries) => !entries.isEmpty
  | raw (.bytes octets) => !octets.isEmpty
  | raw (.set elements) => !elements.isEmpty
  | raw _ => true
  | node _ _ _ _ => true

/-- The integer that a value counts as. -/
def toInteger? : Value → Option Int
  | integer n => some n
  | bool b => some (if b then 1 else 0)
  | _ => none

mutual

/-- Equality of values. Numbers are compared across their types; nodes are equal if they have the
same kind and equal fields, wherever they stand. -/
def equal : Value → Value → Bool
  | null, null => true
  | bool a, bool b => a = b
  | bool a, integer n => (if a then 1 else 0) = n
  | integer n, bool a => (if a then 1 else 0) = n
  | bool a, float x => x.eqInt (if a then 1 else 0)
  | float x, bool a => x.eqInt (if a then 1 else 0)
  | integer m, integer n => m = n
  | integer n, float x => x.eqInt n
  | float x, integer n => x.eqInt n
  | float x, float y => x.equal y
  | text s, text t => s = t
  | list xs, list ys => equalAll xs ys
  | raw x, raw y => x.equal y
  | node k _ r xs, node l _ s ys => k = l && equal r s && equalAll xs ys
  | _, _ => false

def equalAll : List Value → List Value → Bool
  | [], [] => true
  | x :: xs, y :: ys => equal x y && equalAll xs ys
  | _, _ => false

end

/-- The entries `name=value` of the fields that messages show. -/
def shownFields : List Field → List Text → List Text
  | field :: fields, t :: rest =>
    if field.isShown then (field.name ++ "=" ++ t) :: shownFields fields rest
    else shownFields fields rest
  | _, _ => []

mutual

/-- A value with texts between quotes. -/
def inspect : Value → Except NumeralError Text
  | null => return "None"
  | bool b => return if b then "True" else "False"
  | integer n => Numeral.write n
  | float x => return x.text
  | text t => return t.inspect
  | list items => do return "[" ++ Text.joined ", " (← inspectAll items) ++ "]"
  | raw d => d.inspect
  | node kind _ repeatCount values => do
    let count ← inspect repeatCount
    let shown := shownFields kind.fields (← inspectAll values)
    return kind.name ++ "(" ++
      Text.joined ", " ((repeatCountName ++ "=" ++ count) :: shown) ++ ")"

def inspectAll : List Value → Except NumeralError (List Text)
  | [] => return []
  | v :: rest => do
    let first ← inspect v
    let others ← inspectAll rest
    return first :: others

end

/-- A value as it is. -/
def shown : Value → Except NumeralError Text
  | text t => return t
  | v => inspect v

end Value

end RandomText.Stored
