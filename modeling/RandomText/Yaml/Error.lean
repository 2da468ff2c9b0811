import RandomText.Data.Inspect

/-!
# Why a text is no YAML document

Most errors say only at which level the text is at fault. The others are about scalars whose text
denotes no value.
-/

namespace RandomText.Yaml

inductive Error where
  /-- A code point that may not stand in a document. -/
  | character
  /-- No token can be read. -/
  | token
  /-- The tokens are no document. -/
  | grammar
  /-- An alias or an anchor is wrong, or there is more than one document. -/
  | composition
  /-- A node denotes no value. -/
  | construction
  /-- No code point has the number of an escape. -/
  | notACode
  | codeTooLarge
  /-- A decimal number with too many digits. -/
  | numeral (error : NumeralError)
  /-- A text that is no integer in some base. -/
  | notAnInteger (base : Nat) (text : Text)
  | notAFloat (text : Text)
  /-- A place in base sixty that is no finite number. -/
  | baseTooLarge
  | notATruthValue (text : Text)
  | notAMoment
  /-- A moment whose text is the default value of a mapping. -/
  | momentInMapping
  | emptyNumber
  | yearOutOfRange (year : Nat)
  | monthOutOfRange
  | dayOutOfRange
  | hourOutOfRange
  | minuteOutOfRange
  | secondOutOfRange
  /-- An offset of a day or more, in minutes. -/
  | offsetOutOfRange (minutes : Int)
  /-- A mapping that is its own default value. -/
  | endless
deriving DecidableEq

namespace Error

/-- The days and the seconds of an offset in minutes. -/
def offsetParts (minutes : Int) : Text :=
  let days := Int.fdiv minutes 1440
  let seconds := (minutes - days * 1440) * 60
  let rest : Text := if seconds = 0 then [] else ", seconds=" ++ Numeral.signed seconds
  "datetime.timedelta(days=" ++ Numeral.signed days ++ rest ++ ")"

/-- The wording of an error about a scalar; the others have none. -/
def message : Error → Text
  | notACode => "chr() arg not in range(0x110000)"
  | codeTooLarge => "Python int too large to convert to C int"
  | numeral error => error.message
  | notAnInteger base text =>
    "invalid literal for int() with base " ++ Numeral.digits base ++ ": " ++ text.inspect.take 200
  | notAFloat text => "could not convert string to float: " ++ text.inspect
  | baseTooLarge => "int too large to convert to float"
  | notATruthValue text => text.inspect
  | notAMoment => "'NoneType' object has no attribute 'groupdict'"
  | momentInMapping => "expected string or bytes-like object, got 'list'"
  | emptyNumber => "string index out of range"
  | yearOutOfRange year => "year " ++ Numeral.digits year ++ " is out of range"
  | monthOutOfRange => "month must be in 1..12"
  | dayOutOfRange => "day is out of range for month"
  | hourOutOfRange => "hour must be in 0..23"
  | minuteOutOfRange => "minute must be in 0..59"
  | secondOutOfRange => "second must be in 0..59"
  | offsetOutOfRange minutes =>
    "offset must be a timedelta strictly between -timedelta(hours=24) and timedelta(hours=24), " ++
      "not " ++ offsetParts minutes ++ "."
  | _ => []

end Error

end RandomText.Yaml
