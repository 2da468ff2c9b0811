/-!
# Text as code points

A text is a list of Unicode code points, surrogates included, because a drawn character may be
any code point and lengths, indices and columns count code points.
-/

namespace RandomText

/-- A number below `0x110000`, the surrogates `0xD800` to `0xDFFF` included. -/
structure CodePoint where
  val : Nat
  isLt : val < 0x110000
deriving DecidableEq

namespace CodePoint

theorem toNat_lt (c : Char) : c.toNat < 0x110000 := by
  have := c.valid
  simp only [Char.toNat, UInt32.isValidChar, Nat.isValidChar] at *
  omega

def ofChar (c : Char) : CodePoint := ⟨c.toNat, toNat_lt c⟩

instance : Coe Char CodePoint := ⟨ofChar⟩

instance : Inhabited CodePoint := ⟨ofChar ' '⟩

/-- The code point of a number, if there is one. -/
def ofNat? (n : Nat) : Option CodePoint :=
  if h : n < 0x110000 then some ⟨n, h⟩ else none

@[simp]
theorem ofNat?_val (c : CodePoint) : ofNat? c.val = some c := by
  simp [ofNat?, c.isLt]

theorem ext_val {c d : CodePoint} (h : c.val = d.val) : c = d := by
  cases c; cases d; simp_all

theorem eq_ofChar_iff {c : CodePoint} {d : Char} : c = ofChar d ↔ c.val = d.toNat :=
  ⟨fun h => by rw [h]; rfl, fun h => ext_val h⟩

/-- Surrogates are code points that stand for no character of their own. -/
def isSurrogate (c : CodePoint) : Bool := 0xD800 ≤ c.val && c.val < 0xE000

/-- An ASCII decimal digit. -/
def isDigit (c : CodePoint) : Bool := 48 ≤ c.val && c.val ≤ 57

/-- An ASCII letter. -/
def isLetter (c : CodePoint) : Bool :=
  (65 ≤ c.val && c.val ≤ 90) || (97 ≤ c.val && c.val ≤ 122)

/-- The value of a hexadecimal digit. -/
def hexValue? (c : CodePoint) : Option Nat :=
  if 48 ≤ c.val ∧ c.val ≤ 57 then some (c.val - 48)
  else if 97 ≤ c.val ∧ c.val ≤ 102 then some (c.val - 87)
  else if 65 ≤ c.val ∧ c.val ≤ 70 then some (c.val - 55)
  else none

/-- The hexadecimal digit of a number below sixteen, in lower case. -/
def ofHexValue (n : Nat) : CodePoint := ofChar (Nat.digitChar (n % 16))

/-- The hexadecimal digit of a number below sixteen, in upper case. -/
def ofUpperHexValue (n : Nat) : CodePoint := ofChar (Nat.digitChar (n % 16)).toUpper

/-- The character, with U+FFFD in place of a surrogate. -/
def toChar (c : CodePoint) : Char :=
  if c.isSurrogate then '\uFFFD' else Char.ofNat c.val

end CodePoint

/-- A sequence of code points. -/
abbrev Text := List CodePoint

namespace Text

def ofString (s : String) : Text := s.toList.map CodePoint.ofChar

instance : Coe String Text := ⟨ofString⟩

/-- The text as a string, with U+FFFD in place of each surrogate. -/
def toString (t : Text) : String := String.ofList (t.map CodePoint.toChar)

/-- The pieces one after the other with `separator` between neighbours. -/
def joined (separator : Text) : List Text → Text
  | [] => []
  | [t] => t
  | t :: rest => t ++ separator ++ joined separator rest

/-- The last `count` hexadecimal digits of `n`, in lower case. -/
def hex : (count : Nat) → (n : Nat) → Text
  | 0, _ => []
  | count + 1, n => hex count (n / 16) ++ [CodePoint.ofHexValue n]

/-- The last `count` hexadecimal digits of `n`, in upper case. -/
def upperHex : (count : Nat) → (n : Nat) → Text
  | 0, _ => []
  | count + 1, n => upperHex count (n / 16) ++ [CodePoint.ofUpperHexValue n]

/-- The text with every `old` replaced by `new`. -/
def replaced (old : CodePoint) (new : Text) (t : Text) : Text :=
  t.flatMap fun c => if c = old then new else [c]

/-- The first part of `p` up to the first `c`, and the rest after it, if there is one. -/
def split? (c : CodePoint) : Text → Option (Text × Text)
  | [] => none
  | d :: rest =>
    if d = c then some ([], rest) else (split? c rest).map fun p => (d :: p.1, p.2)

/-- The pieces between one occurrence of `c` and the next. -/
def pieces (c : CodePoint) : Text → List Text
  | [] => [[]]
  | d :: rest =>
    if d = c then [] :: pieces c rest
    else match pieces c rest with
      | [] => [[d]]
      | piece :: others => (d :: piece) :: others

end Text

end RandomText
