import RandomText.Yaml.Cursor

/-!
# Tokens of a document

The marks of the layout and of flow collections, the properties of nodes, and scalars with their
final text.
-/

namespace RandomText.Yaml

inductive Directive where
  /-- The version that a document asks for. -/
  | version (major minor : Nat)
  /-- What a handle of tags stands for. -/
  | handle (handle replacement : Text)
  | other
deriving DecidableEq

/-- A tag as it is written: the handle, if there is one, and the rest. -/
structure WrittenTag where
  handle : Option Text
  suffix : Text
deriving DecidableEq

inductive Token where
  | streamEnd
  | directive (directive : Directive)
  | documentStart
  | documentEnd
  /-- The start of a collection that is laid out by indentation. -/
  | openBlock (collection : Collection)
  | closeBlock
  /-- The start of a collection between brackets. -/
  | openFlow (collection : Collection)
  | closeFlow (collection : Collection)
  /-- The dash before an item. -/
  | dash
  | comma
  | key
  | value
  | alias (name : Text)
  | anchor (name : Text)
  | tag (tag : WrittenTag)
  /-- The text of a scalar, and whether it stands without quotes or a header. -/
  | scalar (text : Text) (plain : Bool)
deriving DecidableEq

end RandomText.Yaml
