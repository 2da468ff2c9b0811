import RandomText.Text.Numeral

/-!
# The types of plain scalars

A plain scalar has the type of the first form that its text has: a truth value, a floating-point
number, an integer, a merge mark, null, a moment or a default mark. Otherwise it is a text.
-/

namespace RandomText.Yaml

/-- The types of scalars and collections. -/
inductive Tag where
  | null
  | bool
  | int
  | float
  | binary
  | timestamp
  | omap
  | pairs
  | set
  | str
  | seq
  | map
  /-- Entries of another mapping. -/
  | merge
  /-- A default value. -/
  | value
  | unknown
deriving DecidableEq

namespace Tag

/-- The start of the names of all types. -/
def namePrefix : Text := "tag:yaml.org,2002:"

/-- The types and their names. -/
def named : List (Text × Tag) :=
  [("null", null), ("bool", bool), ("int", int), ("float", float), ("binary", binary),
    ("timestamp", timestamp), ("omap", omap), ("pairs", pairs), ("set", set), ("str", str),
    ("seq", seq), ("map", map), ("merge", merge), ("value", value)]

/-- The type of a full name. -/
def ofName (name : Text) : Tag :=
  ((named.find? fun e => namePrefix ++ e.1 = name).map (·.2)).getD unknown

end Tag

/-- A form of text: the texts that may stand behind a start that has it. -/
abbrev Form := Text → List Text

namespace Form

/-- One code point with a property. -/
def one (p : CodePoint → Bool) : Form
  | c :: rest => if p c then [rest] else []
  | [] => []

/-- A given code point. -/
def mark (c : CodePoint) : Form := one (· = c)

/-- One of the code points of a text. -/
def among (set : Text) : Form := one set.contains

def digit : Form := one CodePoint.isDigit

/-- One form and then another. -/
def andThen (f g : Form) : Form := fun t => (f t).flatMap g

/-- One of two forms. -/
def orElse (f g : Form) : Form := fun t => f t ++ g t

/-- The form or nothing. -/
def optional (f : Form) : Form := fun t => f t ++ [t]

/-- Code points with a property, as many as there are. -/
def many (p : CodePoint → Bool) : Form := fun t => [t.dropWhile p]

/-- Code points with a property, as many as there are, but at least one. -/
def many1 (p : CodePoint → Bool) : Form := andThen (one p) (many p)

/-- The form once or more often. -/
def repeated (f : Form) : (fuel : Nat) → Form
  | 0 => fun _ => []
  | fuel + 1 => fun t => (f t).flatMap fun rest => rest :: repeated f fuel rest

/-- A form several times. -/
def times (n : Nat) (f : Form) : Form :=
  match n with
  | 0 => fun t => [t]
  | n + 1 => andThen f (times n f)

/-- Whether the whole text has a form. -/
def matches? (f : Form) (t : Text) : Bool := (f t).any (·.isEmpty)

end Form

namespace Scalar

open Form

def isDigitOrUnderscore (c : CodePoint) : Bool := c.isDigit || c = '_'

def sign : Form := optional (among "+-")

/-- Digits and underscores that begin with a digit. -/
def digits : Form := andThen digit (many isDigitOrUnderscore)

/-- Parts of at most two digits below sixty, each behind a colon. -/
def sixtieths : Form := fun t =>
  repeated (andThen (mark ':') (andThen (optional (among "012345")) digit)) t.length t

def exponent : Form :=
  optional (andThen (among "eE") (andThen (among "+-") (many1 CodePoint.isDigit)))

def infinityWords : List Text :=
  [".inf", ".Inf", ".INF", "+.inf", "+.Inf", "+.INF", "-.inf", "-.Inf", "-.INF", ".nan", ".NaN",
    ".NAN"]

/-- A number with a point, an infinity, or no number. -/
def isFloat (t : Text) : Bool :=
  let point := mark '.'
  let plain := andThen sign (andThen digits (andThen point
    (andThen (many isDigitOrUnderscore) exponent)))
  let bare := andThen point (andThen digits exponent)
  let sexagesimal :=
    andThen sign (andThen digits (andThen sixtieths (andThen point (many isDigitOrUnderscore))))
  plain.matches? t || bare.matches? t || sexagesimal.matches? t ||
    infinityWords.contains t

/-- An integer in one of the bases two, eight, ten, sixteen and sixty. -/
def isInt (t : Text) : Bool :=
  let based (mark? : Form) (p : CodePoint → Bool) : Form := andThen sign (andThen mark? (many1 p))
  let zero := mark '0'
  let isOctal (c : CodePoint) : Bool := (48 ≤ c.val && c.val ≤ 55) || c = '_'
  let isBinary (c : CodePoint) : Bool := c = '0' || c = '1' || c = '_'
  let isHex (c : CodePoint) : Bool := c.hexValue?.isSome || c = '_'
  let isPositive (c : CodePoint) : Bool := c.isDigit && c ≠ '0'
  let decimal := andThen (one isPositive) (many isDigitOrUnderscore)
  (based (andThen zero (mark 'b')) isBinary).matches? t || (based zero isOctal).matches? t ||
    (andThen sign (orElse zero decimal)).matches? t ||
    (based (andThen zero (mark 'x')) isHex).matches? t ||
    (andThen sign (andThen decimal sixtieths)).matches? t

/-- One or two digits. -/
def upToTwoDigits : Form := andThen digit (optional digit)

/-- A day in full digits, or a day and a time. -/
def isTimestamp (t : Text) : Bool :=
  let dash := mark '-'
  let colon := mark ':'
  let day := andThen (times 4 digit) (andThen dash (andThen (times 2 digit)
    (andThen dash (times 2 digit))))
  let looseDay := andThen (times 4 digit) (andThen dash (andThen upToTwoDigits
    (andThen dash upToTwoDigits)))
  let between := orElse (among "Tt") (many1 CodePoint.isSpaceOrTab)
  let time := andThen upToTwoDigits (andThen colon (andThen (times 2 digit)
    (andThen colon (times 2 digit))))
  let fraction := optional (andThen (mark '.') (many CodePoint.isDigit))
  let offset := andThen (among "+-") (andThen upToTwoDigits
    (optional (andThen colon (times 2 digit))))
  let zone := optional (andThen (many CodePoint.isSpaceOrTab) (orElse (mark 'Z') offset))
  day.matches? t ||
    (andThen looseDay (andThen between (andThen time (andThen fraction zone)))).matches? t

def truthWords : List Text :=
  ["yes", "Yes", "YES", "no", "No", "NO", "true", "True", "TRUE", "false", "False", "FALSE", "on",
    "On", "ON", "off", "Off", "OFF"]

def nullWords : List Text := ["~", "null", "Null", "NULL", ""]

/-- A text without the line feed at its end, if it has more than that. -/
def withoutLastBreak (t : Text) : Text :=
  if t.tail.getLast? = some (CodePoint.ofChar '\n') then t.dropLast else t

/-- The type of a plain scalar. A line feed at its end does not count. -/
def tagOf (scalar : Text) : Tag :=
  let t := withoutLastBreak scalar
  if truthWords.contains t then .bool
  else if isFloat t then .float
  else if isInt t then .int
  else if t = "<<" then .merge
  else if nullWords.contains t then .null
  else if isTimestamp t then .timestamp
  else if t = "=" then .value
  else if t = "!" ∨ t = "&" ∨ t = "*" then .unknown
  else .str

end Scalar

end RandomText.Yaml
