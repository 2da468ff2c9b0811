import RandomText.Data.Basic

/-!
# Writing JSON

The text is pure ASCII. Without an indent it stands on one line; with one, every entry stands on a
line of its own.
-/

namespace RandomText.Json

/-- Why a value has no JSON text. -/
inductive WriteError where
  | numeral (error : NumeralError)
  /-- A value, or the key of an entry, of a type without JSON text. -/
  | unsupported (typeName : Text)
  | unsupportedKey (typeName : Text)
deriving DecidableEq

namespace WriteError

def message : WriteError → Text
  | numeral error => error.message
  | unsupported typeName => "Object of type " ++ typeName ++ " is not JSON serializable"
  | unsupportedKey typeName =>
    "keys must be str, int, float, bool or None, not " ++ typeName

end WriteError

/-- One code point inside a string. -/
def escapeUnit (c : CodePoint) : Text :=
  if c = '"' ∨ c = '\\' then ['\\', c]
  else if c = '\n' then "\\n"
  else if c = '\r' then "\\r"
  else if c = '\t' then "\\t"
  else if c.val = 12 then "\\f"
  else if c.val = 8 then "\\b"
  else if 32 ≤ c.val ∧ c.val < 127 then [c]
  else if c.val < 0x10000 then "\\u" ++ Text.hex 4 c.val
  else
    let offset := c.val - 0x10000
    "\\u" ++ Text.hex 4 (0xD800 + offset / 0x400) ++ "\\u" ++ Text.hex 4 (0xDC00 + offset % 0x400)

/-- A text as a JSON string. -/
def string (t : Text) : Text := "\"" ++ t.flatMap escapeUnit ++ "\""

/-- A floating-point number, with names for those that are not finite. -/
def number : Double → Text
  | .nan => "NaN"
  | .infinite negative => if negative then "-Infinity" else "Infinity"
  | x => x.text

/-- The start of a new line at some depth, or nothing without an indent. -/
def lineStart (indent : Option Int) (depth : Nat) : Text :=
  match indent with
  | none => []
  | some width =>
    CodePoint.ofChar '\n' :: List.replicate (width.toNat * depth) (CodePoint.ofChar ' ')

/-- What stands between two entries at some depth. -/
def separator (indent : Option Int) (depth : Nat) : Text :=
  match indent with
  | none => ", "
  | some _ => "," ++ lineStart indent depth

/-- Entries between brackets; the brackets stand at `depth`. -/
def bracketed (indent : Option Int) (depth : Nat) (first last : CodePoint) (entries : List Text) :
    Text :=
  if entries.isEmpty then [first, last]
  else
    [first] ++ lineStart indent (depth + 1) ++ Text.joined (separator indent (depth + 1)) entries ++
      lineStart indent depth ++ [last]

/-- The text of a key. -/
def key : Data → Except WriteError Text
  | .text t => return t
  | .null => return "null"
  | .bool b => return if b then "true" else "false"
  | .integer n => (Numeral.write n).mapError .numeral
  | .float x => return number x
  | v => throw (.unsupportedKey v.typeName)

mutual

def writeAt (indent : Option Int) (depth : Nat) : Data → Except WriteError Text
  | .null => return "null"
  | .bool b => return if b then "true" else "false"
  | .integer n => (Numeral.write n).mapError .numeral
  | .float x => return number x
  | .text t => return string t
  | .list items => do
    return bracketed indent depth '[' ']' (← writeItems indent (depth + 1) items)
  | .map entries => do
    return bracketed indent depth '\x7b' '\x7d' (← writeEntries indent (depth + 1) entries)
  | v => throw (.unsupported v.typeName)

def writeItems (indent : Option Int) (depth : Nat) : List Data → Except WriteError (List Text)
  | [] => return []
  | v :: rest => do
    let first ← writeAt indent depth v
    let others ← writeItems indent depth rest
    return first :: others

def writeEntries (indent : Option Int) (depth : Nat) :
    List (Data × Data) → Except WriteError (List Text)
  | [] => return []
  | (k, v) :: rest => do
    let k ← key k
    let v ← writeAt indent depth v
    let others ← writeEntries indent depth rest
    return (string k ++ ": " ++ v) :: others

end

/-- The JSON text of a value. -/
def write (indent : Option Int) (v : Data) : Except WriteError Text := writeAt indent 0 v

end RandomText.Json
