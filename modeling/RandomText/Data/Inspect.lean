import RandomText.Data.Basic

/-!
# Data inside messages

A message shows a value as it is (`shown`) or in a form that tells a text from other values
(`inspect`).
-/

namespace RandomText

/-- `n` with zeros in front, up to `width` digits. -/
def Numeral.padded (width n : Nat) : Text :=
  let digits := Numeral.digits n
  List.replicate (width - digits.length) (CodePoint.ofChar '0') ++ digits

/-- `year-month-day`. -/
def Date.text (d : Date) : Text :=
  Numeral.padded 4 d.year ++ "-" ++ Numeral.padded 2 d.month ++ "-" ++ Numeral.padded 2 d.day

namespace Moment

/-- An offset from universal time. -/
def offsetText (minutes : Int) : Text :=
  let sign : Text := if minutes < 0 then "-" else "+"
  sign ++ Numeral.padded 2 (minutes.natAbs / 60) ++ ":" ++ Numeral.padded 2 (minutes.natAbs % 60)

/-- The day, the time, and the offset if there is one. -/
def text (m : Moment) : Text :=
  let fraction : Text :=
    if m.microsecond = 0 then [] else "." ++ Numeral.padded 6 m.microsecond
  let zone : Text := match m.offset with
    | none => []
    | some minutes => offsetText minutes
  m.date.text ++ " " ++ Numeral.padded 2 m.hour ++ ":" ++ Numeral.padded 2 m.minute ++ ":" ++
    Numeral.padded 2 m.second ++ fraction ++ zone

end Moment

namespace Data

/-- One octet inside quotes. -/
def inspectOctet (n : Nat) : Text :=
  if n = 39 then "\\'"
  else if n = 92 then "\\\\"
  else if n = 9 then "\\t"
  else if n = 10 then "\\n"
  else if n = 13 then "\\r"
  else if 32 ≤ n ∧ n < 127 then (CodePoint.ofNat? n).toList
  else "\\x" ++ Text.hex 2 n

/-- Octets between quotes; single ones unless there is a single quote and no double one. -/
def inspectBytes (octets : List Nat) : Text :=
  if octets.contains 39 && !octets.contains 34 then
    let unit (n : Nat) : Text := if n = 39 then "'" else inspectOctet n
    "b\"" ++ octets.flatMap unit ++ "\""
  else "b'" ++ octets.flatMap inspectOctet ++ "'"

mutual

/-- A value with texts between quotes. -/
def inspect : Data → Except NumeralError Text
  | null => return "None"
  | bool b => return if b then "True" else "False"
  | integer n => Numeral.write n
  | float x => return x.text
  | text t => return t.inspect
  | list items => do return "[" ++ Text.joined ", " (← inspectAll items) ++ "]"
  | map entries => do return "\x7b" ++ Text.joined ", " (← inspectEntries entries) ++ "\x7d"
  | bytes octets => return inspectBytes octets
  | date d => return d.text
  | moment m => return m.text
  | set [] => return "set()"
  | set (x :: xs) => do return "\x7b" ++ Text.joined ", " (← inspectAll (x :: xs)) ++ "\x7d"
  | pair k v => do return "(" ++ (← inspect k) ++ ", " ++ (← inspect v) ++ ")"
  | cycle .list => return "[...]"
  | cycle .map => return "\x7b...\x7d"

def inspectAll : List Data → Except NumeralError (List Text)
  | [] => return []
  | v :: rest => do
    let first ← inspect v
    let others ← inspectAll rest
    return first :: others

def inspectEntries : List (Data × Data) → Except NumeralError (List Text)
  | [] => return []
  | (k, v) :: rest => do
    let k ← inspect k
    let v ← inspect v
    let others ← inspectEntries rest
    return (k ++ ": " ++ v) :: others

end

/-- A value as it is. -/
def shown : Data → Except NumeralError Text
  | text t => return t
  | v => inspect v

end Data

end RandomText
