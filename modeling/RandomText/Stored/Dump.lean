import RandomText.Stored.Load
import RandomText.Stored.OfNode

/-!
# Dumping trees

A node becomes a map of its type, its place if that is asked for, its repeat count and its stored
fields, in this order. Only the values that loading can give have a document.
-/

namespace RandomText.Stored

/-- A place as a map. -/
def Place.dump (place : Place) : Data :=
  .map [(.text "origin", place.origin), (.text "index", place.index)]

/-- The entry of a place, if there is one and it is asked for. -/
def placeEntry (withPlaces : Bool) : Option Place → List (Data × Data)
  | some place => if withPlaces then [(positionKey, place.dump)] else []
  | none => []

namespace Value

mutual

/-- The document of a value. -/
def dump (withPlaces : Bool) : Value → Except Error Data
  | null => return .null
  | bool b => return .bool b
  | integer n => return .integer n
  | text t => return .text t
  | list items => return .list (← dumpAll withPlaces items)
  | node kind place repeatCount values => do
    let count ← dump withPlaces repeatCount
    let fields ← dumpFields withPlaces kind.fields values
    return .map ([(typeKey, .text kind.name)] ++ placeEntry withPlaces place ++
      [(.text repeatCountName, count)] ++ fields)
  | v => throw (.notStorable v.typeName)

def dumpAll (withPlaces : Bool) : List Value → Except Error (List Data)
  | [] => return []
  | v :: rest => do
    let first ← dump withPlaces v
    let others ← dumpAll withPlaces rest
    return first :: others

/-- The entries of the fields that documents store. -/
def dumpFields (withPlaces : Bool) : List Field → List Value → Except Error (List (Data × Data))
  | field :: fields, v :: rest =>
    if field.isStored then do
      let first ← dump withPlaces v
      let others ← dumpFields withPlaces fields rest
      return (.text field.name, first) :: others
    else dumpFields withPlaces fields rest
  | _, _ => return []

end

/-- The document of a tree, which is a node or null. -/
def dumpTree (withPlaces : Bool) (v : Value) : Except Error Data :=
  match v with
  | null => return .null
  | node _ _ _ _ => v.dump withPlaces
  | _ => throw .notATree

end Value

end RandomText.Stored
