import RandomText.Data.Basic
import RandomText.Yaml.Cursor
import RandomText.Yaml.Tag

/-!
# Writing YAML

Collections are written in block style, every entry on lines of its own, and a list that is the
value of a key stands at the column of that key. Texts are plain where that reads back as the same
text, else between single quotes where line breaks allow it, else between double quotes.
-/

namespace RandomText.Yaml

/-- Why a value has no document. -/
inductive WriteError where
  | numeral (error : NumeralError)
  /-- A value of a type that is not written. -/
  | unsupported (typeName : Text)
deriving DecidableEq

namespace WriteError

def message : WriteError → Text
  | numeral error => error.message
  | unsupported typeName => "cannot represent an object of type " ++ typeName

end WriteError

namespace Scalar

/-- The breaks that are kept apart in a text that is written. -/
def isTextBreak (c : CodePoint) : Bool :=
  c.val = 10 || c.val = 0x85 || c.val = 0x2028 || c.val = 0x2029

/-- A code point that only an escape can denote. -/
def isSpecial (c : CodePoint) : Bool :=
  !(c.val = 10 || (32 ≤ c.val && c.val ≤ 126) || c.val = 0x85 ||
    (0xA0 ≤ c.val && c.val ≤ 0xD7FF) ||
    (0xE000 ≤ c.val && c.val ≤ 0xFFFD && c.val ≠ 0xFEFF) ||
    (0x10000 ≤ c.val && c.val < 0x10FFFF))

/-- Whether some two neighbours have one property each. -/
def hasNeighbours (p q : CodePoint → Bool) (t : Text) : Bool :=
  (t.zip t.tail).any fun n => p n.1 && q n.2

def isSpace (c : CodePoint) : Bool := c = ' '

/-- Whether a text begins as something other than a plain scalar. -/
def startsAsMark (t : Text) : Bool :=
  match t with
  | [] => false
  | c :: rest =>
    isOneOf "#,[]\x7b\x7d&*!|>'\"%@\x60" c ||
      (isOneOf "?:-" c && isBlankOrEnd (rest.headD finish)) ||
      t.take 3 = "---" || t.take 3 = "..."

/-- Whether a mapping's colon or a comment stands inside a text. -/
def holdsMark (t : Text) : Bool :=
  hasNeighbours (· = CodePoint.ofChar ':') isBlankOrEnd t ||
    t.getLast? = some (CodePoint.ofChar ':') ||
    hasNeighbours isBlankOrEnd (· = CodePoint.ofChar '#') t

/-- Whether a text reads back as itself without quotes. -/
def canBePlain (t : Text) : Bool :=
  tagOf t = .str && !startsAsMark t && !holdsMark t && !t.any isSpecial && !t.any isTextBreak &&
    t.head? ≠ some (CodePoint.ofChar ' ') && t.getLast? ≠ some (CodePoint.ofChar ' ')

/-- Whether a text has no need of escapes. -/
def canBeSingleQuoted (t : Text) : Bool :=
  !t.any isSpecial && !hasNeighbours isTextBreak isSpace t && !hasNeighbours isSpace isTextBreak t

/-- Spaces. -/
def spaces (count : Nat) : Text := List.replicate count (CodePoint.ofChar ' ')

/-- The text between single quotes. A line feed that begins a run of breaks is written twice, and
behind a run the next line is indented. `inBreaks` says whether a break stands before the text. -/
def singleQuotedFrom (indent : Nat) : (inBreaks : Bool) → Text → Text
  | inBreaks, [] => if inBreaks then spaces indent else []
  | inBreaks, c :: rest =>
    if isTextBreak c then
      (if !inBreaks && c = '\n' then [c, c] else [c]) ++ singleQuotedFrom indent true rest
    else
      (if inBreaks then spaces indent else []) ++ (if c = '\'' then [c, c] else [c]) ++
        singleQuotedFrom indent false rest

def singleQuoted (indent : Nat) (t : Text) : Text := "'" ++ singleQuotedFrom indent false t ++ "'"

/-- The letters behind a backslash that denote code points in a text that is written. -/
def letterEscapes : List (Nat × Char) :=
  [(0, '0'), (7, 'a'), (8, 'b'), (9, 't'), (10, 'n'), (11, 'v'), (12, 'f'), (13, 'r'), (0x1B, 'e'),
    (0x22, '"'), (0x5C, '\\'), (0x85, 'N'), (0x2028, 'L'), (0x2029, 'P')]

/-- A code point between double quotes. -/
def escapeUnit (c : CodePoint) : Text :=
  match letterEscapes.find? fun e => e.1 = c.val with
  | some (_, letter) => ['\\', letter]
  | none =>
    if (32 ≤ c.val ∧ c.val ≤ 126) ∨ (0xA0 ≤ c.val ∧ c.val ≤ 0xD7FF) ∨
        (0xE000 ≤ c.val ∧ c.val ≤ 0xFFFD ∧ c.val ≠ 0xFEFF) then [c]
    else if c.val < 0x100 then "\\x" ++ Text.upperHex 2 c.val
    else if c.val < 0x10000 then "\\u" ++ Text.upperHex 4 c.val
    else "\\U" ++ Text.upperHex 8 c.val

def doubleQuoted (t : Text) : Text := "\"" ++ t.flatMap escapeUnit ++ "\""

/-- The written form of a text; the lines behind its breaks are indented. -/
def written (indent : Nat) (t : Text) : Text :=
  if canBePlain t then t
  else if canBeSingleQuoted t then singleQuoted indent t
  else doubleQuoted t

/-- The written form of a key, which stands on one line. -/
def writtenKey (t : Text) : Text :=
  if canBePlain t then t
  else if canBeSingleQuoted t && !t.any isTextBreak then singleQuoted 0 t
  else doubleQuoted t

end Scalar

namespace Writer

/-- The start of a line. -/
def lineStart (indent : Nat) : Text := CodePoint.ofChar '\n' :: Scalar.spaces indent

/-- The written form of a scalar or of an empty collection, if the value is one. -/
def inline? (indent : Nat) : Data → Option (Except WriteError Text)
  | .null => some (.ok "null")
  | .bool b => some (.ok (if b then "true" else "false"))
  | .integer n => some ((Numeral.write n).mapError .numeral)
  | .text t => some (.ok (Scalar.written indent t))
  | .list [] => some (.ok "[]")
  | .map [] => some (.ok "\x7b\x7d")
  | _ => none

def key : Data → Except WriteError Text
  | .text t => .ok (Scalar.writtenKey t)
  | v => .error (.unsupported v.typeName)

mutual

/-- A value whose first line goes on at the column `indent`. -/
def block (indent : Nat) (v : Data) : Except WriteError Text :=
  match v with
  | .list items => if items.isEmpty then .ok "[]" else blockItems indent items
  | .map entries => if entries.isEmpty then .ok "\x7b\x7d" else blockEntries indent entries
  | v => (inline? indent v).getD (.error (.unsupported v.typeName))

/-- The items of a list, each behind a hyphen at the column `indent`. -/
def blockItems (indent : Nat) : List Data → Except WriteError Text
  | [] => .ok []
  | v :: rest => do
    let first ← block (indent + 2) v
    let others ← blockItems indent rest
    return "- " ++ first ++ (if rest.isEmpty then [] else lineStart indent) ++ others

/-- The entries of a map, each at the column `indent`. -/
def blockEntries (indent : Nat) : List (Data × Data) → Except WriteError Text
  | [] => .ok []
  | (k, v) :: rest => do
    let k ← key k
    let v ← behindKey indent v
    let others ← blockEntries indent rest
    return k ++ ":" ++ v ++ (if rest.isEmpty then [] else lineStart indent) ++ others

/-- What stands behind the colon of a key at the column `indent`. -/
def behindKey (indent : Nat) (v : Data) : Except WriteError Text :=
  match v with
  | .list items =>
    if items.isEmpty then .ok " []"
    else do return lineStart indent ++ (← blockItems indent items)
  | .map entries =>
    if entries.isEmpty then .ok " \x7b\x7d"
    else do return lineStart (indent + 2) ++ (← blockEntries (indent + 2) entries)
  | v => do return " " ++ (← (inline? (indent + 2) v).getD (.error (.unsupported v.typeName)))

end

end Writer

/-- The document of a value. A plain scalar alone is followed by the mark of the document's end. -/
def write (v : Data) : Except WriteError Text :=
  match Writer.inline? 2 v with
  | some r => do
    let t ← r
    return t ++ (if isOneOf "'\"[\x7b" (t.headD finish) then "\n" else "\n...\n")
  | none => do return (← Writer.block 0 v) ++ "\n"

end RandomText.Yaml
