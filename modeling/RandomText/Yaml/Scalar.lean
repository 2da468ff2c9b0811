import RandomText.Yaml.Token

/-!
# Scalars in a document

Plain scalars end where the layout begins again; quoted ones end at their quote; block scalars end
where the indentation ends. Line breaks inside of plain and quoted scalars are folded.
-/

namespace RandomText.Yaml

namespace Cursor

/-! ## Plain scalars -/

/-- How many code points of a text belong to the line of a plain scalar that begins it. -/
def plainLength (inFlow : Bool) : Text → Nat
  | [] => 0
  | c :: rest =>
    let next := rest.headD finish
    if isBlankOrEnd c then 0
    else if c = ':' ∧ (isBlankOrEnd next ∨ (inFlow ∧ isOneOf ",[]\x7b\x7d" next)) then 0
    else if inFlow ∧ isOneOf ",?[]\x7b\x7d" c then 0
    else plainLength inFlow rest + 1

/-- The breaks and the spaces from here on; `none` if a mark between documents stands behind a
break. -/
def plainBreaks : (fuel : Nat) → Cursor → Option (Text × Cursor)
  | 0, c => some ([], c)
  | fuel + 1, c =>
    if c.peek = ' ' then plainBreaks fuel c.advance
    else
      match c.lineBreak? with
      | none => some ([], c)
      | some (b, c) =>
        if c.hasDocumentMark then none
        else (plainBreaks fuel c).map fun r => (b :: r.1, r.2)

/-- What stands between two words of a plain scalar, the cursor behind it, and whether a line break
was passed. It is empty where the scalar ends. -/
def plainGap (c : Cursor) : Text × Cursor × Bool :=
  let (spaces, c) := c.takeWhile fun d => d = ' '
  match c.lineBreak? with
  | none => (spaces, c, false)
  | some (b, c) =>
    if c.hasDocumentMark then ([], c, true)
    else
      match plainBreaks (c.rest.length + 1) c with
      | none => ([], c, true)
      | some (breaks, c) => (folded b breaks, c, true)

/-- The rest of a plain scalar behind a gap, the cursor behind it, and whether a key may follow. -/
def plainFrom (inFlow : Bool) (indent : Int) :
    (fuel : Nat) → (gap : Text) → (broken : Bool) → Cursor → Text × Cursor × Bool
  | 0, _, broken, c => ([], c, broken)
  | fuel + 1, gap, broken, c =>
    let length := if c.peek = '#' then 0 else plainLength inFlow c.rest
    if length = 0 then ([], c, broken)
    else
      let word := c.rest.take length
      let (next, c, broken) := (c.advanceBy length).plainGap
      if next.isEmpty ∨ c.peek = '#' ∨ (!inFlow ∧ c.column < indent) then (gap ++ word, c, broken)
      else
        let (others, c, broken) := plainFrom inFlow indent fuel next broken c
        (gap ++ word ++ others, c, broken)

/-- The plain scalar here. Its continuation lines are indented by more than `indent`. -/
def plainScalar (inFlow : Bool) (indent : Int) (c : Cursor) : Text × Cursor × Bool :=
  plainFrom inFlow (indent + 1) (c.rest.length + 1) [] false c

/-! ## Quoted scalars -/

/-- What a letter behind a backslash stands for. -/
def escapes : List (Char × Nat) :=
  [('0', 0), ('a', 7), ('b', 8), ('t', 9), ('\t', 9), ('n', 10), ('v', 11), ('f', 12), ('r', 13),
    ('e', 0x1B), (' ', 0x20), ('"', 0x22), ('\\', 0x5C), ('/', 0x2F), ('N', 0x85), ('_', 0xA0),
    ('L', 0x2028), ('P', 0x2029)]

/-- The code point that a letter behind a backslash stands for. -/
def escape? (c : CodePoint) : Option CodePoint :=
  (escapes.find? fun e => CodePoint.ofChar e.1 = c).bind fun e => CodePoint.ofNat? e.2

/-- How many hexadecimal digits follow a letter behind a backslash. -/
def escapeWidth? (c : CodePoint) : Option Nat :=
  if c = 'x' then some 2
  else if c = 'u' then some 4
  else if c = 'U' then some 8
  else none

/-- The number that hexadecimal digits denote. -/
def hexNumber? (digits : Text) : Option Nat :=
  digits.foldl (fun n? c => do return (← n?) * 16 + (← c.hexValue?)) (some 0)

/-- The code point of `width` hexadecimal digits. -/
def codeEscape (width : Nat) (c : Cursor) : Except Error (CodePoint × Cursor) :=
  let digits := c.rest.take width
  match hexNumber? digits with
  | none => .error .token
  | some n =>
    if digits.length < width then .error .token
    else if 2147483647 < n then .error .codeTooLarge
    else
      match CodePoint.ofNat? n with
      | some d => .ok (d, c.advanceBy width)
      | none => .error .notACode

/-- The breaks of a quoted scalar, with blanks around them skipped. -/
def quotedBreaks : (fuel : Nat) → Cursor → Except Error (Text × Cursor)
  | 0, c => .ok ([], c)
  | fuel + 1, c =>
    if c.hasDocumentMark then .error .token
    else
      let c := c.skipWhile fun d => d = ' ' || d = '\t'
      match c.lineBreak? with
      | none => .ok ([], c)
      | some (b, c) => (quotedBreaks fuel c).map fun r => (b :: r.1, r.2)

/-- A code point that stands for itself in every quoted scalar. -/
def isQuotedWord (d : CodePoint) : Bool :=
  !isBlankOrEnd d && d ≠ '\'' && d ≠ '"' && d ≠ '\\'

/-- The quoted text up to the next blank or the closing quote, and the cursor there. -/
def quotedWords (double : Bool) : (fuel : Nat) → Cursor → Except Error (Text × Cursor)
  | 0, c => .ok ([], c)
  | fuel + 1, c => do
    let (word, c) := c.takeWhile isQuotedWord
    let also (found : Text) (c : Cursor) : Except Error (Text × Cursor) := do
      let (others, c) ← quotedWords double fuel c
      return (word ++ found ++ others, c)
    let d := c.peek
    if !double ∧ d = '\'' ∧ c.peekAt 1 = '\'' then also "'" (c.advanceBy 2)
    else if (double ∧ d = '\'') ∨ (!double ∧ (d = '"' ∨ d = '\\')) then also [d] c.advance
    else if double ∧ d = '\\' then
      let c := c.advance
      match escape? c.peek with
      | some e => also [e] c.advance
      | none =>
        match escapeWidth? c.peek with
        | some width => do
          let (e, c) ← c.advance.codeEscape width
          also [e] c
        | none =>
          match c.lineBreak? with
          | some (_, c) => do
            let (breaks, c) ← quotedBreaks (c.rest.length + 1) c
            also breaks c
          | none => throw .token
    else return (word, c)

/-- What the blanks of a quoted scalar stand for. -/
def quotedBlanks (c : Cursor) : Except Error (Text × Cursor) := do
  let (blanks, c) := c.takeWhile fun d => d = ' ' || d = '\t'
  match c.lineBreak? with
  | some (b, c) => do
    let (breaks, c) ← quotedBreaks (c.rest.length + 1) c
    return (folded b breaks, c)
  | none => if isEnd c.peek then throw .token else return (blanks, c)

/-- The rest of a quoted scalar, up to its closing quote. -/
def quotedFrom (double : Bool) : (fuel : Nat) → Cursor → Except Error (Text × Cursor)
  | 0, _ => .error .token
  | fuel + 1, c => do
    let (words, c) ← quotedWords double (fuel + 1) c
    if c.peek = (if double then CodePoint.ofChar '"' else CodePoint.ofChar '\'') then
      return (words, c.advance)
    else
      let (blanks, c) ← c.quotedBlanks
      let (others, c) ← quotedFrom double fuel c
      return (words ++ blanks ++ others, c)

/-- The quoted scalar here. -/
def quotedScalar (double : Bool) (c : Cursor) : Except Error (Text × Cursor) :=
  quotedFrom double (c.rest.length + 1) c.advance

/-! ## Block scalars -/

/-- What becomes of the line breaks at the end of a block scalar. -/
inductive Chomping where
  | strip
  | clip
  | keep
deriving DecidableEq

def chomping? (c : CodePoint) : Option Chomping :=
  if c = '+' then some .keep else if c = '-' then some .strip else none

/-- The indentation that a digit asks for; zero is refused. -/
def indentation (c : Cursor) : Except Error (Option Nat × Cursor) :=
  let d := c.peek
  if d.isDigit then
    if d = '0' then .error .token else .ok (some (d.val - 48), c.advance)
  else .ok (none, c)

/-- The rest of a line that may hold a comment only, with its break. -/
def restOfLine (c : Cursor) : Except Error Cursor :=
  let c := c.skipSpaces.skipComment
  match c.lineBreak? with
  | some (_, c) => .ok c
  | none => if isEnd c.peek then .ok c else .error .token

/-- The header of a block scalar behind its mark. -/
def blockHeader (c : Cursor) : Except Error (Chomping × Option Nat × Cursor) := do
  let (chomping, increment, c) ← match chomping? c.peek with
    | some chomping => do
      let (increment, c) ← c.advance.indentation
      pure (chomping, increment, c)
    | none => do
      let (increment, c) ← c.indentation
      match increment, chomping? c.peek with
      | some _, some chomping => pure (chomping, increment, c.advance)
      | _, _ => pure (Chomping.clip, increment, c)
  if !isSpaceOrEnd c.peek then throw .token
  return (chomping, increment, ← c.restOfLine)

/-- The empty lines at the start of a block scalar, the greatest column of their spaces and of the
spaces behind them, and the cursor behind these. -/
def leadingLines : (fuel : Nat) → (deepest : Nat) → Cursor → Text × Nat × Cursor
  | 0, deepest, c => ([], deepest, c)
  | fuel + 1, deepest, c =>
    if c.peek = ' ' then
      let c := c.advance
      leadingLines fuel (max deepest c.column) c
    else
      match c.lineBreak? with
      | none => ([], deepest, c)
      | some (b, c) =>
        let (breaks, deepest, c) := leadingLines fuel deepest c
        (b :: breaks, deepest, c)

/-- The cursor behind at most so many spaces as lead to the column `indent`. -/
def skipIndent (indent : Nat) (c : Cursor) : Cursor :=
  c.advanceBy ((c.rest.take (indent - c.column)).takeWhile fun (d : CodePoint) => d = ' ').length

/-- The empty lines here, and the cursor in the line behind them. -/
def emptyLines (indent : Nat) : (fuel : Nat) → Cursor → Text × Cursor
  | 0, c => ([], c)
  | fuel + 1, c =>
    let c := c.skipIndent indent
    match c.lineBreak? with
    | none => ([], c)
    | some (b, c) =>
      let (breaks, c) := emptyLines indent fuel c
      (b :: breaks, c)

/-- The lines of a block scalar behind the empty lines `breaks`: their text, the break of the last
one, and the empty lines behind it. -/
def blockLines (fold : Bool) (indent : Nat) :
    (fuel : Nat) → (breaks : Text) → Cursor → Text × Text × Text × Cursor
  | 0, breaks, c => ([], [], breaks, c)
  | fuel + 1, breaks, c =>
    let indented := c.peek = ' ' ∨ c.peek = '\t'
    let (line, c) := c.takeWhile fun d => !isBreakOrEnd d
    let (last, c) : Text × Cursor := match c.lineBreak? with
      | some (b, c) => ([b], c)
      | none => ([], c)
    let (next, c) := emptyLines indent (fuel + 1) c
    if c.column = indent ∧ !isEnd c.peek then
      let joint : Text :=
        if fold ∧ last = "\n" ∧ ¬indented ∧ c.peek ≠ ' ' ∧ c.peek ≠ '\t' then
          if next.isEmpty then " " else []
        else last
      let (others, last, tail, c) := blockLines fold indent fuel next c
      (breaks ++ line ++ joint ++ others, last, tail, c)
    else (breaks ++ line, last, next, c)

/-- The block scalar here, inside a collection at column `indent`. -/
def blockScalar (fold : Bool) (indent : Int) (c : Cursor) : Except Error (Text × Cursor) := do
  let (chomping, increment, c) ← c.advance.blockHeader
  let least := max 1 (indent + 1).toNat
  let (breaks, indent, c) : Text × Nat × Cursor := match increment with
    | none =>
      let (breaks, deepest, c) := leadingLines (c.rest.length + 1) 0 c
      (breaks, max least deepest, c)
    | some n =>
      let indent := least + n - 1
      let (breaks, c) := emptyLines indent (c.rest.length + 1) c
      (breaks, indent, c)
  let (text, last, tail, c) : Text × Text × Text × Cursor :=
    if c.column = indent ∧ !isEnd c.peek then blockLines fold indent (c.rest.length + 1) breaks c
    else ([], [], breaks, c)
  match chomping with
  | .strip => return (text, c)
  | .clip => return (text ++ last, c)
  | .keep => return (text ++ last ++ tail, c)

end Cursor

end RandomText.Yaml
