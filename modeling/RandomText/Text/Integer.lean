import RandomText.Text.Numeral

/-!
# Integers in any base

Reading an integer with a sign, a mark of its base, underscores between digits and blanks around it.
The decimal digits of all scripts count, after Unicode 14.
-/

namespace RandomText

namespace CodePoint

/-- The zeros of the scripts that have decimal digits; the other nine follow each of them. -/
def zeros : List Nat := [
  0x30, 0x660, 0x6F0, 0x7C0, 0x966, 0x9E6, 0xA66, 0xAE6, 0xB66, 0xBE6, 0xC66, 0xCE6, 0xD66, 0xDE6,
  0xE50, 0xED0, 0xF20, 0x1040, 0x1090, 0x17E0, 0x1810, 0x1946, 0x19D0, 0x1A80, 0x1A90, 0x1B50,
  0x1BB0, 0x1C40, 0x1C50, 0xA620, 0xA8D0, 0xA900, 0xA9D0, 0xA9F0, 0xAA50, 0xABF0, 0xFF10, 0x104A0,
  0x10D30, 0x11066, 0x110F0, 0x11136, 0x111D0, 0x112F0, 0x11450, 0x114D0, 0x11650, 0x116C0, 0x11730,
  0x118E0, 0x11950, 0x11C50, 0x11D50, 0x11DA0, 0x16A60, 0x16AC0, 0x16B50, 0x1D7CE, 0x1D7D8, 0x1D7E2,
  0x1D7EC, 0x1D7F6, 0x1E140, 0x1E2F0, 0x1E950, 0x1FBF0]

/-- The value of a decimal digit of any script. -/
def decimalValue? (c : CodePoint) : Option Nat :=
  (zeros.find? fun first => first ≤ c.val && c.val < first + 10).map (c.val - ·)

/-- The ASCII digit for a decimal digit of any script. -/
def asciiDigit (c : CodePoint) : CodePoint :=
  match c.decimalValue? with
  | some n => ofHexValue n
  | none => c

/-- A blank that may stand around a number: the information separators may not. -/
def isNumberBlank (c : CodePoint) : Bool := c.isBlank && !c.isSeparator

end CodePoint

namespace Numeral

/-- A text without the blanks around a number, with ASCII digits. -/
def plainNumber (t : Text) : Text :=
  let rest := t.dropWhile CodePoint.isNumberBlank
  ((rest.reverse.dropWhile CodePoint.isNumberBlank).reverse).map CodePoint.asciiDigit

/-- Why a text denotes no integer. -/
inductive IntegerError where
  | malformed
  /-- A decimal integer with too many digits. -/
  | tooLong (digits : Nat)
deriving DecidableEq

/-- The value of a digit in bases up to sixteen. -/
def digitValue? (base : Nat) (c : CodePoint) : Option Nat :=
  c.hexValue?.bind fun n => if n < base then some n else none

/-- The letter that may stand behind a zero in front of the digits of a base, in both cases. -/
def baseLetters (base : Nat) : Text :=
  if base = 2 then "bB" else if base = 8 then "oO" else if base = 16 then "xX" else []

/-- Digits without the mark of their base; an underscore may follow the mark. -/
def withoutBaseMark (base : Nat) (t : Text) : Text :=
  match t with
  | first :: letter :: rest =>
    if first = '0' ∧ (baseLetters base).contains letter then
      if rest.head? = some (CodePoint.ofChar '_') then rest.tail else rest
    else t
  | _ => t

/-- Whether underscores stand only between digits. -/
def isGrouped (run : Text) : Bool := !(run.pieces '_').any (·.isEmpty)

/-- The integer that a text denotes in a base up to sixteen. -/
def integer (base : Nat) (t : Text) : Except IntegerError Int :=
  let (negative, rest) := splitSign (plainNumber t)
  let rest := withoutBaseMark base rest
  let inRun (c : CodePoint) : Bool := (digitValue? base c).isSome || c = '_'
  let run := rest.takeWhile inRun
  let digits := run.filter fun c => c ≠ CodePoint.ofChar '_'
  if !isGrouped run then .error .malformed
  else if base = 10 ∧ maxDigits < digits.length then .error (.tooLong digits.length)
  else if run.length < rest.length then .error .malformed
  else
    let n : Int := digits.foldl (fun n c => base * n + (digitValue? base c).getD 0) 0
    .ok (if negative then -n else n)

end Numeral

end RandomText
