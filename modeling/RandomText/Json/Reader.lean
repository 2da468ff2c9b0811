import RandomText.Data.Basic
import RandomText.Pattern.Position

/-!
# Reading JSON

Besides JSON proper the names of the three floating-point numbers that are not finite are read, and
surrogates that stand alone. Of entries with equal keys the last one counts.
-/

namespace RandomText.Json

/-- What is wrong with a JSON text. -/
inductive Cause where
  | expectedValue
  | expectedName
  | expectedColon
  | expectedComma
  | unterminatedString
  | controlCharacter
  | badEscape
  | badCode
  | extraData
  | byteOrderMark
deriving DecidableEq

def Cause.message : Cause → Text
  | expectedValue => "Expecting value"
  | expectedName => "Expecting property name enclosed in double quotes"
  | expectedColon => "Expecting ':' delimiter"
  | expectedComma => "Expecting ',' delimiter"
  | unterminatedString => "Unterminated string starting at"
  | controlCharacter => "Invalid control character at"
  | badEscape => "Invalid \\escape"
  | badCode => "Invalid \\uXXXX escape"
  | extraData => "Extra data"
  | byteOrderMark => "Unexpected UTF-8 BOM (decode using utf-8-sig)"

/-- Why a text is no JSON text. -/
inductive ReadError where
  | malformed (cause : Cause) (position : Position)
  /-- An integer that cannot be read. -/
  | numeral (error : NumeralError)
deriving DecidableEq

def ReadError.message : ReadError → Text
  | malformed cause position =>
    cause.message ++ ": line " ++ Numeral.digits position.line ++ " column " ++
      Numeral.digits position.column ++ " (char " ++ Numeral.signed position.index ++ ")"
  | numeral error => error.message

/-- A failure at the start of `rest`, the end of the text that is being read. -/
inductive Failure where
  | malformed (cause : Cause) (rest : Text)
  | numeral (error : NumeralError)
deriving DecidableEq

def isBlank (c : CodePoint) : Bool := c = ' ' || c = '\t' || c = '\n' || c = '\r'

def skip (t : Text) : Text := t.dropWhile isBlank

/-- The number that four hexadecimal digits denote. -/
def code? (a b c d : CodePoint) : Option Nat := do
  let a ← a.hexValue?
  let b ← b.hexValue?
  let c ← c.hexValue?
  let d ← d.hexValue?
  return ((a * 16 + b) * 16 + c) * 16 + d

/-- The code point of a number of at most sixteen bits. -/
def unit (n : Nat) : CodePoint := (CodePoint.ofNat? n).getD default

/-- What the code point behind a backslash stands for. -/
def escape? (c : CodePoint) : Option CodePoint :=
  if c = '"' ∨ c = '\\' ∨ c = '/' then some c
  else if c = 'b' then some (unit 8)
  else if c = 'f' then some (unit 12)
  else if c = 'n' then some '\n'
  else if c = 'r' then some '\r'
  else if c = 't' then some '\t'
  else none

/-- Puts a code point in front of a string that was read. -/
def prepend (c : CodePoint) (r : Except Failure (Text × Text)) : Except Failure (Text × Text) :=
  r.map fun p => (c :: p.1, p.2)

/-- Joins a high surrogate that was written as a code to the low surrogate after it, if that was
written as a code too. -/
def joinSurrogates (high : Nat) : Text → Option CodePoint
  | b :: u :: p :: q :: r :: s :: _ :: _ =>
    if b = '\\' ∧ u = 'u' ∧ 0xD800 ≤ high ∧ high < 0xDC00 then
      match code? p q r s with
      | some low =>
        if 0xDC00 ≤ low ∧ low < 0xE000 then
          CodePoint.ofNat? (0x10000 + (high - 0xD800) * 0x400 + (low - 0xDC00))
        else none
      | none => none
    else none
  | _ => none

/-- The string up to its closing quote, and the text behind it. `start` is the text from the opening
quote on. -/
def stringFrom (start : Text) : (fuel : Nat) → Text → Except Failure (Text × Text)
  | 0, _ => .error (.malformed .unterminatedString start)
  | _ + 1, [] => .error (.malformed .unterminatedString start)
  | fuel + 1, c :: rest =>
    if c = '"' then .ok ([], rest)
    else if c.val ≤ 0x1F then .error (.malformed .controlCharacter (c :: rest))
    else if c = '\\' then
      match rest with
      | [] => .error (.malformed .unterminatedString start)
      | e :: after =>
        if e = 'u' then
          match after with
          | p :: q :: r :: s :: x :: after =>
            match code? p q r s with
            | none => .error (.malformed .badCode rest)
            | some n =>
              match joinSurrogates n (x :: after) with
              | some joined => prepend joined (stringFrom start fuel (after.drop 5))
              | none => prepend (unit n) (stringFrom start fuel (x :: after))
          | _ => .error (.malformed .badCode rest)
        else
          match escape? e with
          | some d => prepend d (stringFrom start fuel after)
          | none => .error (.malformed .badEscape (c :: rest))
    else prepend c (stringFrom start fuel rest)

/-- The string whose opening quote stands in front of `rest`. -/
def stringAfter (quote : CodePoint) (rest : Text) : Except Failure (Text × Text) :=
  stringFrom (quote :: rest) (rest.length + 1) rest

/-- The exponent of a number, the sign included, and the text behind it. -/
def exponent (t : Text) : Option (Int × Text) :=
  match t with
  | e :: rest =>
    if e = 'e' ∨ e = 'E' then
      let (negative, digits) := Numeral.splitSign rest
      let written := digits.takeWhile CodePoint.isDigit
      if written.isEmpty then none
      else
        let n : Int := Numeral.value written
        some (if negative then -n else n, digits.dropWhile CodePoint.isDigit)
    else none
  | [] => none

/-- The fraction of a number, without its point, and the text behind it. -/
def fraction (t : Text) : Option (Text × Text) :=
  match t with
  | point :: rest =>
    let written := rest.takeWhile CodePoint.isDigit
    if point = '.' ∧ !written.isEmpty then some (written, rest.dropWhile CodePoint.isDigit)
    else none
  | [] => none

/-- The number that begins `t`, which has no sign. -/
def unsigned (negative : Bool) (start t : Text) : Except Failure (Data × Text) :=
  let digits := match t with
    | c :: _ => if c = '0' then [c] else t.takeWhile CodePoint.isDigit
    | [] => []
  if digits.isEmpty then .error (.malformed .expectedValue start)
  else
    let rest := t.drop digits.length
    let decimals := fraction rest
    let rest := (decimals.map (·.2)).getD rest
    let power := exponent rest
    if decimals.isNone && power.isNone then
      if Numeral.maxDigits < digits.length then .error (.numeral (.tooLongToRead digits.length))
      else
        let n : Int := Numeral.value digits
        .ok (.integer (if negative then -n else n), rest)
    else
      let places := (decimals.map (·.1)).getD []
      let shift := (power.map (·.1)).getD 0 - places.length
      .ok (.float (.ofDecimal negative (Numeral.value (digits ++ places)) shift),
        (power.map (·.2)).getD rest)

/-- The names of the values that have one. -/
def names : List (Text × Data) :=
  [("null", .null), ("true", .bool true), ("false", .bool false), ("NaN", .float .nan),
    ("Infinity", .float (.infinite false)), ("-Infinity", .float (.infinite true))]

/-- The value with a name that begins `t`. -/
def named? (t : Text) : Option (Data × Text) :=
  (names.find? fun n => n.1.isPrefixOf t).map fun n => (n.2, t.drop n.1.length)

/-- The scalar that begins `t`, strings aside. -/
def scalar (t : Text) : Except Failure (Data × Text) :=
  match named? t with
  | some r => .ok r
  | none =>
    match t with
    | c :: rest => if c = '-' then unsigned true t rest else unsigned false t t
    | [] => .error (.malformed .expectedValue t)

mutual

/-- The value that begins `t`, and the text behind it. -/
def value : (fuel : Nat) → (t : Text) → Except Failure (Data × Text)
  | 0, t => .error (.malformed .expectedValue t)
  | _ + 1, [] => .error (.malformed .expectedValue [])
  | fuel + 1, c :: rest =>
    if c = '"' then (stringAfter c rest).map fun p => (.text p.1, p.2)
    else if c = '[' then
      match skip rest with
      | d :: after => if d = ']' then .ok (.list [], after) else items fuel [] (d :: after)
      | [] => items fuel [] []
    else if c = '\x7b' then
      match skip rest with
      | d :: after => if d = '\x7d' then .ok (.map [], after) else entries fuel [] (d :: after)
      | [] => entries fuel [] []
    else scalar (c :: rest)

/-- The items of a list from the one that begins `t` on, behind those in `latest`. -/
def items : (fuel : Nat) → (latest : List Data) → (t : Text) → Except Failure (Data × Text)
  | 0, _, t => .error (.malformed .expectedValue t)
  | fuel + 1, latest, t => do
    let (v, rest) ← value fuel t
    match skip rest with
    | c :: after =>
      if c = ']' then return (.list (v :: latest).reverse, after)
      else if c = ',' then items fuel (v :: latest) (skip after)
      else throw (.malformed .expectedComma (c :: after))
    | [] => throw (.malformed .expectedComma [])

/-- The entries of a map from the one that begins `t` on, behind those in `latest`. -/
def entries : (fuel : Nat) → (latest : List (Data × Data)) → (t : Text) →
    Except Failure (Data × Text)
  | 0, _, t => .error (.malformed .expectedName t)
  | _ + 1, _, [] => .error (.malformed .expectedName [])
  | fuel + 1, latest, q :: t => do
    if q ≠ '"' then throw (.malformed .expectedName (q :: t))
    let (k, rest) ← stringAfter q t
    match skip rest with
    | [] => throw (.malformed .expectedColon [])
    | colon :: rest =>
      if colon ≠ ':' then throw (.malformed .expectedColon (colon :: rest))
      let (v, rest) ← value fuel (skip rest)
      let latest := (.text k, v) :: latest
      match skip rest with
      | c :: after =>
        if c = '\x7d' then return (.map (Data.mapOf latest.reverse), after)
        else if c = ',' then entries fuel latest (skip after)
        else throw (.malformed .expectedComma (c :: after))
      | [] => throw (.malformed .expectedComma [])

end

/-- The value of a whole text. -/
def document (text : Text) : Except Failure Data := do
  if text.head?.any (·.val = 0xFEFF) then throw (.malformed .byteOrderMark text)
  let start := skip text
  let (v, rest) ← value (2 * start.length + 2) start
  match skip rest with
  | [] => return v
  | rest => throw (.malformed .extraData rest)

/-- The value that a JSON text denotes. -/
def read (text : Text) : Except ReadError Data :=
  (document text).mapError fun
    | .numeral e => .numeral e
    | .malformed cause rest => .malformed cause ⟨[], text.length - rest.length, text⟩

end RandomText.Json
