import RandomText.Draw.Source
import RandomText.Stored.Value

/-!
# Failures with stored trees

What can go wrong with a tree whose fields may hold anything: a document that is no tree, a value
that its kind of node refuses, or an operation on a value of a type that does not have it. Types are
given by their names.
-/

namespace RandomText.Stored

/-- The order relations on values. -/
inductive Comparison where
  | less
  | atMost
deriving DecidableEq

def Comparison.sign : Comparison → Text
  | less => "<"
  | atMost => "<="

inductive Error where
  /-- The document has no node type. -/
  | noNodeType
  | unknownNodeType (shown : Text)
  /-- Required fields are missing. -/
  | missingFields (kind : NodeKind) (names : List Text)
  /-- A value that no field can have. -/
  | notLoadable (typeName : Text)
  /-- A value that no document can have. -/
  | notStorable (typeName : Text)
  /-- The map has no such key. -/
  | missingKey (key : Text)
  | repeatCountTooSmall (shown : Text)
  | emptySampleSet
  | rangeReversed (last first : Text)
  | boundsNotCharacters (first last : Text)
  | charRangeReversed (first last : Text)
  /-- Nothing can be a member of a value of this type. -/
  | noMembers (typeName : Text)
  | bytesNeeded
  | bytesPrefixNeeded
  /-- A value of this type has no entries. -/
  | noEntries (typeName : Text)
  | textIndex
  | listIndex
  | bytesIndex
  | unhashable (typeName : Text)
  | noAttribute (typeName name : Text)
  | noOrder (comparison : Comparison) (left right : Text)
  | noLength (typeName : Text)
  | notACharacter (typeName : Text)
  /-- No integer can be added to a value of this type. -/
  | noSum (typeName : Text)
  | noDifference (left right : Text)
  | notIterable (typeName : Text)
  | notACount (typeName : Text)
  /-- The item with this index is no text. -/
  | itemNotText (index : Nat) (typeName : Text)
  | emptyRange (low high : Text)
  | notACode
  | codeTooLarge
  | indexOutOfRange (typeName : Text)
  | removalOutOfRange
  | noRemoval (typeName : Text)
  | numeral (error : NumeralError)
  /-- A value other than a tree. -/
  | notATree
  /-- A value that holds itself. -/
  | endless
deriving DecidableEq

/-- The kinds of failures. -/
inductive ErrorKind where
  | value
  | type
  | missingAttribute
  | key
  | index
  | overflow
  | depth
deriving DecidableEq

namespace Error

def kind : Error → ErrorKind
  | noNodeType | unknownNodeType _ | repeatCountTooSmall _ | emptySampleSet | rangeReversed _ _
  | boundsNotCharacters _ _ | charRangeReversed _ _ | emptyRange _ _ | notACode | numeral _ =>
    .value
  | noAttribute _ _ => .missingAttribute
  | missingKey _ => .key
  | indexOutOfRange _ | removalOutOfRange => .index
  | codeTooLarge => .overflow
  | endless => .depth
  | _ => .type

/-- Names between single quotes. -/
def quotedNames (names : List Text) : Text :=
  Text.joined " and " (names.map fun (n : Text) => "'" ++ n ++ "'")

def missingMessage (kind : NodeKind) (names : List Text) : Text :=
  kind.name ++ ".__init__() missing " ++ Numeral.digits names.length ++ " required positional " ++
    (if names.length = 1 then "argument" else "arguments") ++ ": " ++ quotedNames names

def message : Error → Text
  | noNodeType => "Missing '_type' field in node data"
  | unknownNodeType shown => "Unknown node type: " ++ shown
  | missingFields kind names => missingMessage kind names
  | notLoadable typeName => "Unsupported type for deserialization: <class '" ++ typeName ++ "'>"
  | notStorable typeName => "Unsupported type for serialization: <class '" ++ typeName ++ "'>"
  | missingKey key => key
  | repeatCountTooSmall shown => "repeat_count must be at least 1, got " ++ shown
  | emptySampleSet => "SampleSetNode needs at least one character"
  | rangeReversed last first => "range end " ++ last ++ " is below its start " ++ first
  | boundsNotCharacters first last =>
    "character range bounds must be single characters, got " ++ first ++ " and " ++ last
  | charRangeReversed first last => "character range " ++ first ++ "-" ++ last ++ " is reversed"
  | noMembers typeName => "argument of type '" ++ typeName ++ "' is not iterable"
  | bytesNeeded => "a bytes-like object is required, not 'str'"
  | bytesPrefixNeeded => "startswith first arg must be bytes or a tuple of bytes, not str"
  | noEntries typeName => "'" ++ typeName ++ "' object is not subscriptable"
  | textIndex => "string indices must be integers, not 'str'"
  | listIndex => "list indices must be integers or slices, not str"
  | bytesIndex => "byte indices must be integers or slices, not str"
  | unhashable typeName => "unhashable type: '" ++ typeName ++ "'"
  | noAttribute typeName name =>
    "'" ++ typeName ++ "' object has no attribute '" ++ name ++ "'"
  | noOrder comparison left right =>
    "'" ++ comparison.sign ++ "' not supported between instances of '" ++ left ++ "' and '" ++
      right ++ "'"
  | noLength typeName => "object of type '" ++ typeName ++ "' has no len()"
  | notACharacter typeName => "ord() expected string of length 1, but " ++ typeName ++ " found"
  | noSum typeName =>
    "can only concatenate " ++ typeName ++ " (not \"int\") to " ++ typeName
  | noDifference left right =>
    "unsupported operand type(s) for -: '" ++ left ++ "' and '" ++ right ++ "'"
  | notIterable typeName => "'" ++ typeName ++ "' object is not iterable"
  | notACount typeName => "'" ++ typeName ++ "' object cannot be interpreted as an integer"
  | itemNotText index typeName =>
    "sequence item " ++ Numeral.digits index ++ ": expected str instance, " ++ typeName ++ " found"
  | emptyRange low high => "empty range [" ++ low ++ ", " ++ high ++ ")"
  | notACode => "chr() arg not in range(0x110000)"
  | codeTooLarge => "Python int too large to convert to C int"
  | indexOutOfRange typeName =>
    (if typeName = "str" then ("string" : Text) else typeName) ++ " index out of range"
  | removalOutOfRange => "list assignment index out of range"
  | noRemoval typeName => "'" ++ typeName ++ "' object doesn't support item deletion"
  | numeral error => error.message
  | notATree => "must be called with a dataclass type or instance"
  | endless => "maximum recursion depth exceeded"

end Error

end RandomText.Stored
