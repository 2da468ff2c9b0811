import RandomText.Text.Blank
import RandomText.Text.Inspect

/-!
# Decimal numerals

Writing and reading integers in decimal. Both refuse numerals of more than 4300 digits, leading
zeros included and the sign aside.
-/

namespace RandomText

/-- Why a numeral could not be written or read. -/
inductive NumeralError where
  /-- The integer to be written has too many digits. -/
  | tooLongToWrite
  /-- The text to be read has too many digits. -/
  | tooLongToRead (digits : Nat)
  /-- An information separator stands beside the digits. -/
  | notANumeral (text : Text)
deriving DecidableEq

namespace Numeral

/-- The most digits that a numeral may have. -/
def maxDigits : Nat := 4300

/-- The decimal digits of a natural number, without leading zeros. -/
def digits (n : Nat) : Text := (Nat.toDigits 10 n).map CodePoint.ofChar

/-- The decimal text of an integer, of any length. -/
def signed (n : Int) : Text :=
  if n < 0 then CodePoint.ofChar '-' :: digits n.natAbs else digits n.natAbs

/-- Writes an integer of at most `maxDigits` digits. -/
def write (n : Int) : Except NumeralError Text :=
  let text := digits n.natAbs
  if maxDigits < text.length then .error .tooLongToWrite
  else .ok (if n < 0 then CodePoint.ofChar '-' :: text else text)

/-- The number that a text of decimal digits denotes. -/
def value (digits : Text) : Nat := digits.foldl (fun n c => 10 * n + (c.val - 48)) 0

/-- Whether a text begins with a minus sign, and what is behind its sign, if it has one. -/
def splitSign (t : Text) : Bool × Text :=
  match t with
  | c :: rest => if c = '-' then (true, rest) else if c = '+' then (false, rest) else (false, t)
  | [] => (false, [])

/-- The digits of a text that consists of blanks, digits and blanks. -/
def decimal? (t : Text) : Option Text :=
  let rest := t.dropWhile CodePoint.isBlank
  let digits := rest.takeWhile CodePoint.isDigit
  if !digits.isEmpty && (rest.dropWhile CodePoint.isDigit).all CodePoint.isBlank then some digits
  else none

/-- A text of blanks, digits and blanks. -/
def isDecimal (t : Text) : Bool := (decimal? t).isSome

/-- The number that a decimal text denotes. The information separators are blanks of a decimal
text that its reading refuses: before the digits at once, after them once the digits are
counted. -/
def read (t : Text) : Except NumeralError Nat :=
  let leading := t.takeWhile CodePoint.isBlank
  let digits := (t.dropWhile CodePoint.isBlank).takeWhile CodePoint.isDigit
  if leading.any CodePoint.isSeparator then .error (.notANumeral t)
  else if maxDigits < digits.length then .error (.tooLongToRead digits.length)
  else if t.any CodePoint.isSeparator then .error (.notANumeral t)
  else .ok (value digits)

end Numeral

namespace NumeralError

/-- The advice that ends both messages about the number of digits. -/
def limitAdvice : Text := "; use sys.set_int_max_str_digits() to increase the limit"

def message : NumeralError → Text
  | tooLongToWrite =>
    "Exceeds the limit (4300 digits) for integer string conversion" ++ limitAdvice
  | tooLongToRead digits =>
    "Exceeds the limit (4300 digits) for integer string conversion: value has " ++
      Numeral.digits digits ++ " digits" ++ limitAdvice
  | notANumeral text => "invalid literal for int() with base 10: " ++ text.inspect.take 200

end NumeralError

end RandomText
