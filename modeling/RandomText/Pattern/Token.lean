import RandomText.Pattern.Fault

/-!
# Tokens of a pattern

What a stretch of pattern text spells does not depend on the groups around it, so the text is cut
into tokens first. Cutting stops at the first stretch that spells nothing; the tokens before it
stand.
-/

namespace RandomText.Pattern

/-- The two kinds of brackets. -/
inductive Bracket where
  | sequence
  | choice
deriving DecidableEq

inductive Token where
  | atom (atom : Atom)
  /-- The segments of a range and where each begins. -/
  | range (segments : List (Nat × Atom))
  /-- How often the element before is repeated. -/
  | repetition (count : Nat) (pos : 0 < count)
  | opening (bracket : Bracket)
  | closing (bracket : Bracket)
  /-- A character without meaning. -/
  | other (c : CodePoint)
deriving DecidableEq

/-- A token with the index where it begins and the index after it. -/
structure Lexeme where
  index : Nat
  token : Token
  stop : Nat
deriving DecidableEq

/-- A stretch of text that spells no token: where it begins, why, how far it was read, and, within
a range, the segments before the failure. -/
structure Misspelling where
  index : Nat
  error : ReadError
  stop : Nat
  segments : Option (List (Nat × Atom))
deriving DecidableEq

namespace Token

/-- Text up to a stop: without its backslashes, the stop, and the count of code points before the
stop. -/
structure Enclosed where
  text : Text
  stop : CodePoint
  width : Nat
deriving DecidableEq

/-- The text up to the first of the `stops` that no backslash precedes; a backslash takes the code
point after it as it is. -/
def upTo (stops : List CodePoint) : Text → Option Enclosed
  | [] => none
  | c :: rest =>
    if c ∈ stops then some ⟨[], c, 0⟩
    else if c = '\\' then
      match rest with
      | [] => none
      | d :: rest => (upTo stops rest).map fun e => ⟨d :: e.text, e.stop, e.width + 2⟩
    else (upTo stops rest).map fun e => ⟨c :: e.text, e.stop, e.width + 1⟩

/-- The two sides of a segment's dash. In a segment of three code points the middle one, if it is a
dash, divides; otherwise the first one does. -/
def divide? (segment : Text) : Option (Text × Text) :=
  match segment with
  | [a, b, c] =>
    if b = '-' then some ([a], [c]) else Text.split? '-' segment
  | _ => Text.split? '-' segment

/-- The range from one number to another. -/
def numberRange (index : Nat) (first last : Text) : Except ReadError Atom := do
  let low ← (Numeral.read first).mapError .numeral
  let high ← (Numeral.read last).mapError .numeral
  if h : high < low then throw (.fault ⟨.rangeReversed low high, index⟩)
  else return .range low high (by omega)

/-- The range from one character to another. -/
def charRange (index : Nat) (segment first last : Text) : Except ReadError Atom :=
  match first, last with
  | [a], [b] =>
    if h : b.val < a.val then throw (.fault ⟨.charRangeReversed a b, index⟩)
    else return .charRange a b (by omega)
  | _, _ => throw (.fault ⟨.charRangeBounds segment, index⟩)

/-- What a segment that begins at `index` stands for. -/
def segment (index : Nat) (text : Text) : Except ReadError Atom :=
  match divide? text with
  | none => throw (.fault ⟨.segmentWithoutDash text, index⟩)
  | some (first, last) =>
    if Numeral.isDecimal first then
      if Numeral.isDecimal last then numberRange index first last
      else throw (.fault ⟨.rangeEndNotANumber last, index⟩)
    else charRange index text first last

/-- The code points that end a segment: one goes on to the next, the other ends the range. -/
def segmentStops : List CodePoint := [':', ';']

/-- The segments of a range, of which the first begins at `index`, and either the index after the
range or an error and the index up to which the text was read. -/
def segments (index : Nat) : Text → List (Nat × Atom) × Except (ReadError × Nat) Nat
  | [] => ([], .error (.fault ⟨.unclosed segmentStops, index⟩, index))
  | c :: rest =>
    match upTo segmentStops (c :: rest) with
    | none =>
      let stop := index + (rest.length + 1)
      ([], .error (.fault ⟨.unclosed segmentStops, stop⟩, stop))
    | some e =>
      let next := index + e.width + 1
      match segment index e.text with
      | .error error => ([], .error (error, next))
      | .ok leaf =>
        if e.stop = ';' then ([(index, leaf)], .ok next)
        else
          let others := segments next (rest.drop e.width)
          ((index, leaf) :: others.1, others.2)
termination_by text => text.length
decreasing_by simp only [List.length_drop, List.length_cons]; omega

/-- The count of a repetition at `index`. -/
def repetitionOf (index : Nat) (text : Text) : Except ReadError Token :=
  if Numeral.isDecimal text then do
    let count ← (Numeral.read text).mapError .numeral
    if h : count < 1 then throw (.fault ⟨.repeatZero, index⟩)
    else return .repetition count (by omega)
  else throw (.fault ⟨.repeatNotANumber, index⟩)

/-- The set of characters of a sample set at `index`. -/
def sampleSetOf (index : Nat) (chars : Text) : Except ReadError Token :=
  if h : chars = [] then throw (.fault ⟨.emptySampleSet, index⟩)
  else return .atom (.sampleSet chars h)

/-- The token that begins with an opening mark at `index` and goes up to `stop`, made of the text
between them. -/
def enclosed (index : Nat) (stop : CodePoint) (make : Text → Except ReadError Token)
    (rest : Text) : Except Misspelling Lexeme :=
  match upTo [stop] rest with
  | none =>
    let last := index + 1 + rest.length
    .error ⟨index, .fault ⟨.unclosed [stop], last⟩, last, none⟩
  | some e =>
    let next := index + 1 + e.width + 1
    match make e.text with
    | .error error => .error ⟨index, error, next, none⟩
    | .ok token => .ok ⟨index, token, next⟩

/-- The range that begins with a colon at `index`. -/
def rangeOf (index : Nat) (rest : Text) : Except Misspelling Lexeme :=
  match segments (index + 1) rest with
  | (leaves, .error (error, stop)) => .error ⟨index, error, stop, some leaves⟩
  | (leaves, .ok stop) => .ok ⟨index, .range leaves, stop⟩

/-- The token of one code point, if it has a meaning of its own. -/
def single? (c : CodePoint) : Option Token :=
  if c = '.' then some (.atom .any)
  else if c = 'a' then some (.atom (.alpha false))
  else if c = 'A' then some (.atom (.alpha true))
  else if c = '#' then some (.atom .numeric)
  else if c = '@' then some (.atom .symbol)
  else if c = '$' then some (.atom .basicSymbol)
  else if c = '(' then some (.opening .sequence)
  else if c = '\x7b' then some (.opening .choice)
  else if c = ')' then some (.closing .sequence)
  else if c = '\x7d' then some (.closing .choice)
  else none

/-- The token that begins with `c` at `index`. -/
def first (index : Nat) (c : CodePoint) (rest : Text) : Except Misspelling Lexeme :=
  if c = '"' then enclosed index '"' (fun text => return .atom (.literal text)) rest
  else if c = '[' then enclosed index ']' (sampleSetOf index) rest
  else if c = '<' then enclosed index '>' (repetitionOf index) rest
  else if c = ':' then rangeOf index rest
  else .ok ⟨index, (single? c).getD (.other c), index + 1⟩

/-- The tokens of a text that begins at `index`, and the misspelling at which cutting stopped. -/
def scan (index : Nat) : Text → List Lexeme × Option Misspelling
  | [] => ([], none)
  | c :: rest =>
    match first index c rest with
    | .error misspelling => ([], some misspelling)
    | .ok lexeme =>
      let others := scan lexeme.stop (rest.drop (lexeme.stop - (index + 1)))
      (lexeme :: others.1, others.2)
termination_by text => text.length
decreasing_by simp only [List.length_drop, List.length_cons]; omega

end Token

end RandomText.Pattern
