import RandomText.Text.Numeral

/-!
# Floating-point numbers

Binary floating point with 53 bits of precision and exponents down to `-1074`. A number is kept as
its mantissa and exponent, so that reading, writing and comparing are exact arithmetic.
-/

namespace RandomText

/-- A floating-point number; the finite ones are `± mantissa * 2 ^ exponent`. -/
inductive Double where
  | nan
  | infinite (negative : Bool)
  | finite (negative : Bool) (mantissa : Nat) (exponent : Int)
deriving DecidableEq

namespace Double

/-- The least exponent. -/
def minExponent : Int := -1074

/-- The exponent from which on a mantissa of 53 bits is too large. -/
def overflowExponent : Int := 972

def zero (negative : Bool) : Double := finite negative 0 minExponent

/-- `numerator / denominator` rounded to an integer, a half to the even neighbour. -/
def roundedQuotient (numerator denominator : Nat) : Nat :=
  let q := numerator / denominator
  let twice := 2 * (numerator % denominator)
  if twice < denominator then q
  else if denominator < twice then q + 1
  else q + q % 2

/-- `n * 2 ^ e` over `d` as a numerator and a denominator. -/
def scaled (n d : Nat) (e : Int) : Nat × Nat :=
  if 0 ≤ e then (n * Nat.pow 2 e.toNat, d) else (n, d * Nat.pow 2 (-e).toNat)

/-- The number nearest to `numerator / denominator`. -/
def ofQuotient (negative : Bool) (numerator denominator : Nat) : Double :=
  if numerator = 0 then zero negative
  else
    let magnitude : Int := numerator.log2 - denominator.log2
    let (n, d) := scaled numerator denominator (-(magnitude - 52))
    let estimate := if n < d * Nat.pow 2 52 then magnitude - 53 else magnitude - 52
    let exponent := max minExponent estimate
    let (n, d) := scaled numerator denominator (-exponent)
    let mantissa := roundedQuotient n d
    let (mantissa, exponent) :=
      if mantissa = Nat.pow 2 53 then (Nat.pow 2 52, exponent + 1) else (mantissa, exponent)
    if overflowExponent ≤ exponent then infinite negative
    else finite negative mantissa exponent

/-- The number nearest to `digits * 10 ^ exponent`. -/
def ofDecimal (negative : Bool) (digits : Nat) (exponent : Int) : Double :=
  let size : Int := (Numeral.digits digits).length + exponent
  if digits = 0 ∨ size < -330 then zero negative
  else if 310 < size then infinite negative
  else if 0 ≤ exponent then ofQuotient negative (digits * Nat.pow 10 exponent.toNat) 1
  else ofQuotient negative digits (Nat.pow 10 (-exponent).toNat)

/-- The magnitude of a finite number as a numerator and a denominator. -/
def magnitude (mantissa : Nat) (exponent : Int) : Nat × Nat := scaled mantissa 1 exponent

/-- Whether two numbers are equal; `nan` equals nothing, and the two zeros are equal. -/
def equal : Double → Double → Bool
  | infinite a, infinite b => a = b
  | finite a m e, finite b n f => (m = 0 && n = 0) || (a = b && m = n && e = f)
  | _, _ => false

/-- A finite number as a fraction. -/
def toFraction? : Double → Option (Int × Nat)
  | finite negative mantissa exponent =>
    let (n, d) := magnitude mantissa exponent
    some (if negative then -(n : Int) else n, d)
  | _ => none

/-- Whether `x < n`. -/
def ltInt (x : Double) (n : Int) : Bool :=
  match x with
  | nan => false
  | infinite negative => negative
  | finite _ _ _ => match x.toFraction? with
    | some (a, d) => a < n * d
    | none => false

/-- Whether `n < x`. -/
def intLt (n : Int) (x : Double) : Bool :=
  match x with
  | nan => false
  | infinite negative => !negative
  | finite _ _ _ => match x.toFraction? with
    | some (a, d) => n * d < a
    | none => false

/-- Whether `x = n`. -/
def eqInt (x : Double) (n : Int) : Bool :=
  match x.toFraction? with
  | some (a, d) => a = n * d
  | none => false

/-- Whether `x < y`. -/
def lt (x y : Double) : Bool :=
  match x, y with
  | nan, _ => false
  | _, nan => false
  | infinite a, infinite b => a && !b
  | infinite a, _ => a
  | _, infinite b => !b
  | _, _ => match x.toFraction?, y.toFraction? with
    | some (a, d), some (b, e) => a * e < b * d
    | _, _ => false

def isZero : Double → Bool
  | finite _ 0 _ => true
  | _ => false

/-- The sum, rounded. -/
def add (x y : Double) : Double :=
  match x, y with
  | nan, _ => nan
  | _, nan => nan
  | infinite a, infinite b => if a = b then infinite a else nan
  | infinite a, _ => infinite a
  | _, infinite b => infinite b
  | finite p m e, finite q n f =>
    let least := min e f
    let value (negative : Bool) (m : Nat) (e : Int) : Int :=
      let v : Int := (m * Nat.pow 2 (e - least).toNat : Nat)
      if negative then -v else v
    let sum := value p m e + value q n f
    if sum = 0 then zero (p && q)
    else
      let (n, d) := scaled sum.natAbs 1 least
      ofQuotient (sum < 0) n d

/-- The product, rounded. -/
def mul (x y : Double) : Double :=
  match x, y with
  | nan, _ => nan
  | _, nan => nan
  | infinite a, infinite b => infinite (a != b)
  | infinite a, finite b m _ => if m = 0 then nan else infinite (a != b)
  | finite a m _, infinite b => if m = 0 then nan else infinite (a != b)
  | finite a m e, finite b n f =>
    let (numerator, denominator) := scaled (m * n) 1 (e + f)
    ofQuotient (a != b) numerator denominator

/-- The number nearest to an integer, unless the integer is too large. -/
def ofNat? (n : Nat) : Option Double :=
  match ofQuotient false n 1 with
  | infinite _ => none
  | x => some x

def neg : Double → Double
  | nan => nan
  | infinite a => infinite !a
  | finite a m e => finite (!a) m e

/-- The greatest `k` with `10 ^ k ≤ n / d`, searched downwards from an upper bound. -/
def decimalMagnitude (n d : Nat) : (fuel : Nat) → Int → Int
  | 0, k => k
  | fuel + 1, k =>
    let (a, b) := if 0 ≤ k then (n, d * Nat.pow 10 k.toNat) else (n * Nat.pow 10 (-k).toNat, d)
    if b ≤ a then k else decimalMagnitude n d fuel (k - 1)

/-- The decimal of `count` digits that reads back as `x`, if there is one: of the two around `n / d`
the nearer, or else the other. -/
def decimalOf? (x : Double) (n d : Nat) (magnitude : Int) (count : Nat) : Option (Nat × Int) :=
  let exponent := magnitude - ((count : Int) - 1)
  let (a, b) :=
    if 0 ≤ exponent then (n, d * Nat.pow 10 exponent.toNat)
    else (n * Nat.pow 10 (-exponent).toNat, d)
  let nearest := roundedQuotient a b
  let other := if nearest * b ≤ a then nearest + 1 else nearest - 1
  if ofDecimal false nearest exponent = x then some (nearest, exponent)
  else if ofDecimal false other exponent = x then some (other, exponent)
  else none

/-- The fewest digits that read back as `x = n / d`, and their exponent. -/
def shortest (x : Double) (n d : Nat) (magnitude : Int) : (fuel count : Nat) → Nat × Int
  | 0, _ => (0, 0)
  | fuel + 1, count =>
    (decimalOf? x n d magnitude count).getD (shortest x n d magnitude fuel (count + 1))

/-- Digits without their trailing zeros, at least one. -/
def stripZeros (digits : Text) : Text :=
  let kept := (digits.reverse.dropWhile (· = CodePoint.ofChar '0')).reverse
  if kept.isEmpty then "0" else kept

/-- Digits with the point after `point` of them: positional up to sixteen digits before the point
and four zeros after it, otherwise with an exponent of two digits at least. -/
def layout (digits : Text) (point : Int) : Text :=
  let zeros (n : Int) : Text := List.replicate n.toNat (CodePoint.ofChar '0')
  let length : Int := digits.length
  if -4 < point ∧ point ≤ 16 then
    if point ≤ 0 then "0." ++ zeros (-point) ++ digits
    else if length ≤ point then digits ++ zeros (point - length) ++ ".0"
    else digits.take point.toNat ++ "." ++ digits.drop point.toNat
  else
    let exponent := point - 1
    let written := Numeral.digits exponent.natAbs
    let fraction : Text := if digits.length ≤ 1 then [] else "." ++ digits.drop 1
    digits.take 1 ++ fraction ++ (if exponent < 0 then "e-" else "e+") ++
      zeros (2 - written.length) ++ written

/-- The fewest digits that read back. -/
def text : Double → Text
  | nan => "nan"
  | infinite negative => if negative then "-inf" else "inf"
  | finite negative mantissa exponent =>
    let sign : Text := if negative then "-" else ""
    if mantissa = 0 then sign ++ "0.0"
    else
      let (n, d) := magnitude mantissa exponent
      let power := decimalMagnitude n d 700 310
      let (digits, shift) := shortest (finite false mantissa exponent) n d power 17 1
      let written := Numeral.digits digits
      sign ++ layout (stripZeros written) (written.length + shift)

end Double

end RandomText
