import RandomText.Text.Integer
import RandomText.Text.LowerCase
import RandomText.Yaml.Error
import RandomText.Yaml.Tag

/-!
# Numbers, moments and octets as scalars

What the text of a scalar denotes once its type is known.
-/

namespace RandomText.Yaml

namespace Scalar

def withoutUnderscores (t : Text) : Text := t.filter (· ≠ CodePoint.ofChar '_')

/-- The integer that a text denotes in a base. -/
def integer (base : Nat) (t : Text) : Except Error Int :=
  (Numeral.integer base t).mapError fun e => match e with
    | .malformed => .notAnInteger base t
    | .tooLong digits => .numeral (.tooLongToRead digits)

/-- The number of parts in base sixty, the greatest first. -/
def sexagesimal (parts : List Int) : Int := parts.foldl (fun n part => 60 * n + part) 0

/-- A sign and what is behind it. -/
def signed (t : Text) : Except Error (Bool × Text) :=
  if t.isEmpty then .error .emptyNumber else .ok (Numeral.splitSign t)

/-- The magnitude that the text of an integer denotes. -/
def magnitude (t : Text) : Except Error Int :=
  match t with
  | [] => .error .emptyNumber
  | z :: rest =>
    if z = '0' then
      match rest with
      | [] => .ok 0
      | c :: digits =>
        if c = 'b' then integer 2 digits
        else if c = 'x' then integer 16 digits
        else integer 8 t
    else if t.contains (CodePoint.ofChar ':') then do
      return sexagesimal (← (t.pieces ':').mapM (integer 10))
    else integer 10 t

/-- The integer that the text of a scalar denotes. -/
def toInteger (t : Text) : Except Error Int := do
  let (negative, digits) ← signed (withoutUnderscores t)
  let n ← magnitude digits
  return if negative then -n else n

/-- The digits of a fraction behind its point, and what follows. -/
def decimals (t : Text) : Text × Text :=
  match t with
  | c :: rest =>
    if c = '.' then (rest.takeWhile CodePoint.isDigit, rest.dropWhile CodePoint.isDigit)
    else ([], t)
  | [] => ([], [])

/-- The exponent of a number, which is all that is left of its text. -/
def power? (t : Text) : Option Int :=
  match t with
  | [] => some 0
  | e :: rest =>
    let (negative, digits) := Numeral.splitSign rest
    if (e = 'e' ∨ e = 'E') ∧ !digits.isEmpty ∧ digits.all CodePoint.isDigit then
      let n : Int := Numeral.value digits
      some (if negative then -n else n)
    else none

/-- The number that a text denotes: a sign, and digits or the name of a number that is not finite,
with blanks around them. -/
def float (t : Text) : Except Error Double :=
  let (negative, digits) := Numeral.splitSign (Numeral.plainNumber t)
  if digits = "inf" ∨ digits = "infinity" then .ok (.infinite negative)
  else if digits = "nan" then .ok .nan
  else
    let whole := digits.takeWhile CodePoint.isDigit
    let (fraction, rest) := decimals (digits.dropWhile CodePoint.isDigit)
    match power? rest with
    | some n =>
      if whole.isEmpty ∧ fraction.isEmpty then .error (.notAFloat t)
      else .ok (.ofDecimal negative (Numeral.value (whole ++ fraction)) (n - fraction.length))
    | none => .error (.notAFloat t)

/-- The sum of `base`, `60 * base` and so on, each times the part in its place. Every step is
rounded, and every place must be within the range of finite numbers, even where the part is zero. -/
def sexagesimalFloat : (parts : List Double) → (base : Nat) → Double → Except Error Double
  | [], _, sum => .ok sum
  | part :: rest, base, sum =>
    match Double.ofNat? base with
    | some place => sexagesimalFloat rest (60 * base) (sum.add (part.mul place))
    | none => .error .baseTooLarge

/-- The number that the text of a scalar denotes. -/
def toFloat (t : Text) : Except Error Double := do
  let (negative, digits) ← signed (withoutUnderscores t).lowerCase
  let x ← (
    if digits = ".inf" then .ok (.infinite false)
    else if digits = ".nan" then .ok .nan
    else if digits.contains (CodePoint.ofChar ':') then do
      let parts ← (digits.pieces ':').mapM float
      sexagesimalFloat parts.reverse 1 (.zero false)
    else float digits)
  return if negative then x.neg else x

/-! ## Moments -/

/-- At least `least` and at most `most` digits, and what is behind them. -/
def someDigits (least most : Nat) (t : Text) : Option (Nat × Text) :=
  let digits := (t.take most).takeWhile CodePoint.isDigit
  if digits.length < least then none else some (Numeral.value digits, t.drop digits.length)

/-- What is behind a mark. -/
def behind (mark : CodePoint) (t : Text) : Option Text :=
  match t with
  | c :: rest => if c = mark then some rest else none
  | [] => none

/-- A day and what is behind it. -/
def day? (t : Text) : Option (Date × Text) := do
  let (year, t) ← someDigits 4 4 t
  let (month, t) ← someDigits 1 2 (← behind '-' t)
  let (day, t) ← someDigits 1 2 (← behind '-' t)
  return (⟨year, month, day⟩, t)

/-- The start of a time: a letter or blanks. -/
def timeStart? (t : Text) : Option Text :=
  match t with
  | c :: rest =>
    if c = 'T' ∨ c = 't' then some rest
    else if c.isSpaceOrTab then some (rest.dropWhile CodePoint.isSpaceOrTab)
    else none
  | [] => none

/-- The microseconds of a fraction of a second, of which further digits are dropped. -/
def microseconds (digits : Text) : Nat :=
  Numeral.value ((digits ++ List.replicate 6 (CodePoint.ofChar '0')).take 6)

/-- The offset from universal time in minutes, which is all that is left of a text. -/
def offset? (t : Text) : Option (Option Int) :=
  match t with
  | [] => some none
  | _ =>
    match t.dropWhile CodePoint.isSpaceOrTab with
    | [] => none
    | c :: rest =>
      if c = 'Z' then if rest.isEmpty then some (some 0) else none
      else if c = '+' ∨ c = '-' then do
        let (hours, t) ← someDigits 1 2 rest
        let minutes ← (
          if t.isEmpty then some 0
          else do
            let (minutes, t) ← someDigits 2 2 (← behind ':' t)
            if t.isEmpty then some minutes else none)
        let total : Int := hours * 60 + minutes
        return some (if c = '-' then -total else total)
      else none

/-- The time of a moment on a given day. -/
def moment? (date : Date) (t : Text) : Option Moment := do
  let (hour, t) ← someDigits 1 2 (← timeStart? t)
  let (minute, t) ← someDigits 2 2 (← behind ':' t)
  let (second, t) ← someDigits 2 2 (← behind ':' t)
  let (fraction, t) := decimals t
  let offset ← offset? t
  return ⟨date, hour, minute, second, microseconds fraction, offset⟩

/-- The number of days of a month. -/
def daysIn (year month : Nat) : Nat :=
  if month = 2 then
    if year % 4 = 0 ∧ (year % 100 ≠ 0 ∨ year % 400 = 0) then 29 else 28
  else if month = 4 ∨ month = 6 ∨ month = 9 ∨ month = 11 then 30
  else 31

/-- Refuses days that no calendar has. -/
def checkDate (d : Date) : Except Error Unit := do
  if d.year < 1 then throw (.yearOutOfRange d.year)
  if d.month < 1 ∨ 12 < d.month then throw .monthOutOfRange
  if d.day < 1 ∨ daysIn d.year d.month < d.day then throw .dayOutOfRange

/-- Refuses times that no clock shows. -/
def checkMoment (m : Moment) : Except Error Unit := do
  match m.offset with
  | some minutes => if minutes ≤ -1440 ∨ 1440 ≤ minutes then throw (.offsetOutOfRange minutes)
  | none => pure ()
  checkDate m.date
  if 23 < m.hour then throw .hourOutOfRange
  if 59 < m.minute then throw .minuteOutOfRange
  if 59 < m.second then throw .secondOutOfRange

/-- The day or moment that the text of a scalar denotes. A line feed at its end does not count. -/
def toMoment (t : Text) : Except Error Data :=
  match day? (withoutLastBreak t) with
  | none => .error .notAMoment
  | some (date, []) => do
    checkDate date
    return .date date
  | some (date, rest) =>
    match moment? date rest with
    | none => .error .notAMoment
    | some m => do
      checkMoment m
      return .moment m

/-! ## Octets -/

/-- The value of a digit in base sixty-four. -/
def base64Value? (c : CodePoint) : Option Nat :=
  if 65 ≤ c.val ∧ c.val ≤ 90 then some (c.val - 65)
  else if 97 ≤ c.val ∧ c.val ≤ 122 then some (c.val - 71)
  else if c.isDigit then some (c.val + 4)
  else if c = '+' then some 62
  else if c = '/' then some 63
  else none

/-- The octets of digits in base sixty-four. `place` counts the digits of the current group of four,
`left` holds the bits of the last digit that are not used up, and `pads` counts the padding since
then. Other code points are ignored, and so is everything behind a full padding. -/
def base64From (place left pads : Nat) : Text → Option (List Nat)
  | [] => if place = 0 then some [] else none
  | c :: rest =>
    if c = '=' then
      if 2 ≤ place then
        if 4 ≤ place + (pads + 1) then some [] else base64From place left (pads + 1) rest
      else base64From place left pads rest
    else
      match base64Value? c with
      | none => base64From place left pads rest
      | some n =>
        if place = 0 then base64From 1 n 0 rest
        else if place = 1 then (base64From 2 (n % 16) 0 rest).map ((left * 4 + n / 16) :: ·)
        else if place = 2 then (base64From 3 (n % 4) 0 rest).map ((left * 16 + n / 4) :: ·)
        else (base64From 0 0 0 rest).map ((left * 64 + n) :: ·)

/-- The octets that the text of a scalar denotes. -/
def toOctets (t : Text) : Except Error (List Nat) :=
  if t.any fun c => 128 ≤ c.val then .error .construction
  else
    match base64From 0 0 0 t with
    | some octets => .ok octets
    | none => .error .construction

end Scalar

end RandomText.Yaml
