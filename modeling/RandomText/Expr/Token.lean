import RandomText.Text.Numeral

/-!
# Tokens of expression text

Strings, integers, names, brackets and commas. Tabs, line feeds, carriage returns and spaces may
stand before every token.
-/

namespace RandomText.Expr

/-- The brackets of a list and those of a call's arguments. -/
inductive Bracket where
  | square
  | round
deriving DecidableEq

inductive Token where
  | string (value : Text)
  | integer (digits : Text)
  | name (text : Text)
  | opening (bracket : Bracket)
  | closing (bracket : Bracket)
  | comma
deriving DecidableEq

/-- A token and the index where it begins. -/
structure Lexeme where
  index : Nat
  token : Token
deriving DecidableEq

/-- The tokens of a text up to its end or up to a place where no token begins; `stop` is the index
of that end or place. -/
structure Lexed where
  lexemes : List Lexeme
  stop : Nat
  complete : Bool
deriving DecidableEq

namespace Token

def isBlank (c : CodePoint) : Bool := c = '\t' || c = '\n' || c = '\r' || c = ' '

def isNameStart (c : CodePoint) : Bool := c.isLetter || c = '_'

def isNamePart (c : CodePoint) : Bool := isNameStart c || c.isDigit

/-- What stands before the quote that closes a string, its backslashes included. -/
def stringBody : Text → Option Text
  | [] => none
  | c :: rest =>
    if c = '"' then some []
    else if c = '\\' then
      match rest with
      | [] => none
      | d :: rest => (stringBody rest).map fun body => c :: d :: body
    else (stringBody rest).map (c :: ·)

/-- Every backslash stands for the code point after it. -/
def unescape : Text → Text
  | [] => []
  | c :: rest =>
    if c = '\\' then
      match rest with
      | [] => [c]
      | d :: rest => d :: unescape rest
    else c :: unescape rest

/-- The mark that one code point spells. -/
def mark? (c : CodePoint) : Option Token :=
  if c = '[' then some (.opening .square)
  else if c = ']' then some (.closing .square)
  else if c = '(' then some (.opening .round)
  else if c = ')' then some (.closing .round)
  else if c = ',' then some .comma
  else none

/-- The token that begins with `c`, and how many code points of `rest` belong to it. -/
def first? (c : CodePoint) (rest : Text) : Option (Token × Nat) :=
  if c = '"' then (stringBody rest).map fun body => (.string (unescape body), body.length + 1)
  else if c.isDigit then
    let digits := rest.takeWhile CodePoint.isDigit
    some (.integer (c :: digits), digits.length)
  else if isNameStart c then
    let part := rest.takeWhile isNamePart
    some (.name (c :: part), part.length)
  else (mark? c).map (·, 0)

/-- The tokens of a text that begins at `index`. -/
def lex (index : Nat) : Text → Lexed
  | [] => ⟨[], index, true⟩
  | c :: rest =>
    if isBlank c then lex (index + 1) rest
    else
      match first? c rest with
      | none => ⟨[], index, false⟩
      | some (token, width) =>
        let others := lex (index + 1 + width) (rest.drop width)
        { others with lexemes := ⟨index, token⟩ :: others.lexemes }
termination_by text => text.length
decreasing_by all_goals simp only [List.length_drop, List.length_cons]; omega

end Token

end RandomText.Expr
