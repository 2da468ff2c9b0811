import RandomText.Yaml.Scalar

/-!
# The layout of a document

Tokens are delivered one after the other. A token that may turn out to be a key is held back until
the colon behind it is seen or can no longer come; then the marks of its mapping and of the key are
put in front of it. A key ends within its line and within 1024 code points.
-/

namespace RandomText.Yaml

/-- A place where a key may have begun: the number of its first token, where it stands, and whether
it must be a key. -/
structure KeyStart where
  number : Nat
  required : Bool
  index : Nat
  line : Nat
  column : Nat

/-- What is known of the layout at a place: the open indentations, whether a key may begin here,
where keys may have begun by their flow level, and the tokens that are not delivered yet. -/
structure Layout where
  cursor : Cursor
  flowLevel : Nat
  indent : Int
  outerIndents : List Int
  keyAllowed : Bool
  keyStarts : List (Nat × KeyStart)
  pending : List Token
  delivered : Nat
  done : Bool

namespace Layout

def start (text : Text) : Layout := ⟨.start text, 0, -1, [], true, [], [], 0, false⟩

def inFlow (s : Layout) : Bool := s.flowLevel ≠ 0

/-- Adds a token at the end of those that are pending. -/
def push (token : Token) (s : Layout) : Layout := { s with pending := s.pending ++ [token] }

/-- Moves the cursor. -/
def moveTo (c : Cursor) (s : Layout) : Layout := { s with cursor := c }

/-- Adds a token of `width` code points. -/
def pushMark (token : Token) (width : Nat) (s : Layout) : Layout :=
  (s.push token).moveTo (s.cursor.advanceBy width)

/-! ## Where keys may have begun -/

/-- Whether a key that began at `key` can no longer end. -/
def isExpired (s : Layout) (key : KeyStart) : Bool :=
  key.line ≠ s.cursor.line || key.index + 1024 < s.cursor.index

/-- Forgets the keys that can no longer end; one of them must not be required. -/
def dropExpired (s : Layout) : Except Error Layout :=
  if s.keyStarts.any fun k => s.isExpired k.2 && k.2.required then .error .token
  else .ok { s with keyStarts := s.keyStarts.filter fun k => !s.isExpired k.2 }

def keyStart? (s : Layout) : Option KeyStart :=
  (s.keyStarts.find? fun k => k.1 = s.flowLevel).map (·.2)

/-- Forgets the key that may have begun at this level without a check. -/
def forgetKey (s : Layout) : Layout :=
  { s with keyStarts := s.keyStarts.filter fun k => k.1 ≠ s.flowLevel }

/-- Forgets the key that may have begun at this level, which must not be required. -/
def dropKey (s : Layout) : Except Error Layout :=
  match s.keyStart? with
  | some key => if key.required then .error .token else .ok s.forgetKey
  | none => .ok s

/-- Notes that a key may begin here. -/
def noteKeyStart (s : Layout) : Except Error Layout :=
  if s.keyAllowed then do
    let s ← s.dropKey
    let key : KeyStart := ⟨s.delivered + s.pending.length,
      !s.inFlow && s.indent = s.cursor.column, s.cursor.index, s.cursor.line, s.cursor.column⟩
    return { s with keyStarts := (s.flowLevel, key) :: s.keyStarts }
  else return s

/-! ## Indentation -/

/-- Closes the block collections that are indented by more than `column`. -/
def closeBlocks (column : Int) : List Int → Layout → Layout
  | [], s => s
  | outer :: rest, s =>
    if column < s.indent then
      closeBlocks column rest ({ s with indent := outer, outerIndents := rest }.push .closeBlock)
    else s

/-- Closes the block collections that are indented by more than `column`, unless in a flow
collection. -/
def dedent (column : Int) (s : Layout) : Layout :=
  if s.inFlow then s else closeBlocks column s.outerIndents s

/-- Whether a column is deeper than the indentation. -/
def isDeeper (s : Layout) (column : Nat) : Bool := s.indent < column

/-- Opens a block collection at a column. -/
def openBlock (column : Nat) (s : Layout) : Layout :=
  { s with indent := column, outerIndents := s.indent :: s.outerIndents }

/-- Opens a block collection at the cursor, if it is deeper than the indentation. -/
def openBlockHere (collection : Collection) (s : Layout) : Layout :=
  if s.isDeeper s.cursor.column then (s.openBlock s.cursor.column).push (.openBlock collection)
  else s

/-! ## Single tokens -/

/-- Skips spaces, comments and line breaks. Behind a break outside of flow collections a key may
begin. -/
def skipToToken : (fuel : Nat) → Layout → Layout
  | 0, s => s
  | fuel + 1, s =>
    let c := s.cursor.skipSpaces.skipComment
    match c.lineBreak? with
    | none => s.moveTo c
    | some (_, c) =>
      skipToToken fuel { s with cursor := c, keyAllowed := s.keyAllowed || !s.inFlow }

/-- Skips a byte order mark at the very beginning. -/
def skipByteOrderMark (s : Layout) : Layout :=
  if s.cursor.index = 0 ∧ s.cursor.peek.val = 0xFEFF then s.moveTo s.cursor.advance else s

def endStream (s : Layout) : Except Error Layout := do
  let s ← (s.dedent (-1)).dropKey
  return { s.push .streamEnd with keyAllowed := false, keyStarts := [], done := true }

/-- What a directive or a mark between documents leaves behind. -/
def leaveDocument (s : Layout) : Except Error Layout := do
  let s ← (s.dedent (-1)).dropKey
  return { s with keyAllowed := false }

def documentMark (token : Token) (s : Layout) : Except Error Layout := do
  return (← s.leaveDocument).pushMark token 3

def enterFlow (collection : Collection) (s : Layout) : Except Error Layout := do
  let s ← s.noteKeyStart
  return { s.pushMark (.openFlow collection) 1 with
    flowLevel := s.flowLevel + 1, keyAllowed := true }

def leaveFlow (collection : Collection) (s : Layout) : Except Error Layout := do
  let s ← s.dropKey
  return { s.pushMark (.closeFlow collection) 1 with
    flowLevel := s.flowLevel - 1, keyAllowed := false }

def separate (s : Layout) : Except Error Layout := do
  let s ← s.dropKey
  return { s.pushMark .comma 1 with keyAllowed := true }

def startItem (s : Layout) : Except Error Layout := do
  if !s.inFlow ∧ !s.keyAllowed then throw .token
  let s := if s.inFlow then s else s.openBlockHere .list
  let s ← s.dropKey
  return { s.pushMark .dash 1 with keyAllowed := true }

def startKey (s : Layout) : Except Error Layout := do
  if !s.inFlow ∧ !s.keyAllowed then throw .token
  let s := if s.inFlow then s else s.openBlockHere .map
  let s ← s.dropKey
  return { s.pushMark .key 1 with keyAllowed := !s.inFlow }

/-- Puts tokens in front of the one with a given number. -/
def insertBefore (number : Nat) (tokens : List Token) (s : Layout) : Layout :=
  let n := number - s.delivered
  { s with pending := s.pending.take n ++ tokens ++ s.pending.drop n }

/-- A colon behind a key. -/
def valueOf (key : KeyStart) (s : Layout) : Layout :=
  let s := s.forgetKey
  let s :=
    if !s.inFlow ∧ s.isDeeper key.column then
      (s.openBlock key.column).insertBefore key.number [.openBlock .map, .key]
    else s.insertBefore key.number [.key]
  { s.pushMark .value 1 with keyAllowed := false }

/-- A colon that is not behind a key on its line. -/
def valueAlone (s : Layout) : Except Error Layout := do
  if !s.inFlow ∧ !s.keyAllowed then throw .token
  let s := if s.inFlow then s else s.openBlockHere .map
  let s ← s.dropKey
  return { s.pushMark .value 1 with keyAllowed := !s.inFlow }

def startValue (s : Layout) : Except Error Layout :=
  match s.keyStart? with
  | some key => .ok (s.valueOf key)
  | none => s.valueAlone

/-- A token that may begin a key, and behind which none may begin. -/
def pushKeyStart (token : Cursor → Except Error (Token × Cursor)) (s : Layout) :
    Except Error Layout := do
  let s ← s.noteKeyStart
  let (t, c) ← token s.cursor
  return { s.push t with cursor := c, keyAllowed := false }

def pushPlain (s : Layout) : Except Error Layout := do
  let s ← s.noteKeyStart
  let (text, c, broken) := s.cursor.plainScalar s.inFlow s.indent
  return { s.push (.scalar text true) with cursor := c, keyAllowed := broken }

def pushBlockScalar (fold : Bool) (s : Layout) : Except Error Layout := do
  let s ← s.dropKey
  let (text, c) ← s.cursor.blockScalar fold s.indent
  return { s.push (.scalar text false) with cursor := c, keyAllowed := true }

end Layout

namespace Cursor

/-! ## Names and tags -/

/-- The name of an anchor or alias behind its mark. -/
def anchorName (c : Cursor) : Except Error (Text × Cursor) :=
  let (name, c) := c.advance.takeWhile isWordPart
  if name.isEmpty then .error .token
  else if isBlankOrEnd c.peek || isOneOf "?:,]\x7d%@\x60" c.peek then .ok (name, c)
  else .error .token

/-- The octets that percent signs with two hexadecimal digits each denote. -/
def uriOctets : (fuel : Nat) → Cursor → Except Error (List Nat × Cursor)
  | 0, c => .ok ([], c)
  | fuel + 1, c =>
    if c.peek = '%' then
      let digits := c.advance.rest.take 2
      match hexNumber? digits with
      | some n =>
        if digits.length = 2 then
          (uriOctets fuel (c.advanceBy 3)).map fun r => (n :: r.1, r.2)
        else .error .token
      | none => .error .token
    else .ok ([], c)

/-- The code point of one sequence of octets and how many there are, with the least code that so
many octets may denote. -/
def octetSequence? : List Nat → Option (Nat × Nat × Nat)
  | [] => none
  | a :: rest =>
    let more (count : Nat) (high least : Nat) : Option (Nat × Nat × Nat) :=
      let tail := rest.take count
      if tail.length = count ∧ tail.all (fun b => 0x80 ≤ b && b < 0xC0) then
        some (tail.foldl (fun n b => n * 64 + (b - 0x80)) high, count + 1, least)
      else none
    if a < 0x80 then some (a, 1, 0)
    else if 0xC0 ≤ a ∧ a < 0xE0 then more 1 (a - 0xC0) 0x80
    else if 0xE0 ≤ a ∧ a < 0xF0 then more 2 (a - 0xE0) 0x800
    else if 0xF0 ≤ a ∧ a < 0xF8 then more 3 (a - 0xF0) 0x10000
    else none

/-- The text that octets encode. -/
def decodeOctets : (fuel : Nat) → List Nat → Option Text
  | _, [] => some []
  | 0, _ => none
  | fuel + 1, octets => do
    let (n, count, least) ← octetSequence? octets
    let c ← CodePoint.ofNat? n
    if n < least ∨ c.isSurrogate then none
    else return c :: (← decodeOctets fuel (octets.drop count))

/-- A code point of a tag that stands for itself. -/
def isUriPart (c : CodePoint) : Bool := isWordPart c || isOneOf ";/?:@&=+$,.!~*'()[]" c

/-- The text of a tag behind its handle. -/
def uriFrom : (fuel : Nat) → Cursor → Except Error (Text × Cursor)
  | 0, c => .ok ([], c)
  | fuel + 1, c => do
    let (part, c) := c.takeWhile isUriPart
    if c.peek = '%' then
      let (octets, c) ← uriOctets (c.rest.length + 1) c
      match decodeOctets octets.length octets with
      | none => throw .token
      | some decoded =>
        let (others, c) ← uriFrom fuel c
        return (part ++ decoded ++ others, c)
    else return (part, c)

/-- The text of a tag, which is not empty. -/
def uri (c : Cursor) : Except Error (Text × Cursor) :=
  if isUriPart c.peek || c.peek = '%' then uriFrom (c.rest.length + 1) c else .error .token

/-- The handle of a tag: one mark, or a word between two marks. -/
def tagHandle (c : Cursor) : Except Error (Text × Cursor) :=
  if c.peek ≠ '!' then .error .token
  else if c.peekAt 1 = ' ' then .ok ("!", c.advance)
  else
    let (word, after) := c.advance.takeWhile isWordPart
    if after.peek = '!' then .ok ("!" ++ word ++ "!", after.advance) else .error .token

/-- The tag here. -/
def tag (c : Cursor) : Except Error (Token × Cursor) := do
  let next := c.peekAt 1
  let (written, c) : WrittenTag × Cursor ← (
    if next = '<' then do
      let (suffix, c) ← (c.advanceBy 2).uri
      if c.peek ≠ '>' then throw .token
      return (⟨none, suffix⟩, c.advance)
    else if isBlankOrEnd next then return (⟨none, "!"⟩, c.advance)
    else do
      let word := c.advance.rest.takeWhile fun d => !isSpaceOrEnd d
      let named := word.contains (CodePoint.ofChar '!')
      let (handle, c) ← if named then c.tagHandle else pure (("!" : Text), c.advance)
      let (suffix, c) ← c.uri
      return (⟨some handle, suffix⟩, c))
  if !isSpaceOrEnd c.peek then throw .token
  return (.tag written, c)

/-! ## Directives -/

/-- A number of a version. -/
def versionNumber (c : Cursor) : Except Error (Nat × Cursor) :=
  let (digits, c) := c.takeWhile CodePoint.isDigit
  if digits.isEmpty then .error .token
  else if Numeral.maxDigits < digits.length then .error (.numeral (.tooLongToRead digits.length))
  else .ok (Numeral.value digits, c)

/-- The version of a directive. -/
def version (c : Cursor) : Except Error (Directive × Cursor) := do
  let (major, c) ← c.skipSpaces.versionNumber
  if c.peek ≠ '.' then throw .token
  let (minor, c) ← c.advance.versionNumber
  if !isSpaceOrEnd c.peek then throw .token
  return (.version major minor, c)

/-- The handle of a directive and what it stands for. -/
def handleDirective (c : Cursor) : Except Error (Directive × Cursor) := do
  let (handle, c) ← c.skipSpaces.tagHandle
  if c.peek ≠ ' ' then throw .token
  let (replacement, c) ← c.skipSpaces.uri
  if !isSpaceOrEnd c.peek then throw .token
  return (.handle handle replacement, c)

/-- The directive here, with its line. -/
def directive (c : Cursor) : Except Error (Token × Cursor) := do
  let (name, c) := c.advance.takeWhile isWordPart
  if name.isEmpty ∨ !isSpaceOrEnd c.peek then throw .token
  let (d, c) ←
    if name = "YAML" then c.version
    else if name = "TAG" then c.handleDirective
    else pure (Directive.other, c.skipWhile fun d => !isBreakOrEnd d)
  return (.directive d, ← c.restOfLine)

/-! ## What begins here -/

/-- Whether a plain scalar may begin here. -/
def startsPlain (inFlow : Bool) (c : Cursor) : Bool :=
  let d := c.peek
  !(isBlankOrEnd d || isOneOf "-?:,[]\x7b\x7d#&*!|>'\"%@\x60" d) ||
    (!isBlankOrEnd (c.peekAt 1) && (d = '-' || (!inFlow && (d = '?' || d = ':'))))

end Cursor

namespace Layout

/-- Takes the token at the cursor. -/
def takeHere (s : Layout) : Except Error Layout :=
  let c := s.cursor
  let d := c.peek
  let endsWord := isBlankOrEnd (c.peekAt 1)
  if isEnd d then s.endStream
  else if d = '%' ∧ c.column = 0 then do
    let s ← s.leaveDocument
    let (token, c) ← s.cursor.directive
    return (s.push token).moveTo c
  else if c.column = 0 ∧ c.hasMarks '-' then s.documentMark .documentStart
  else if c.column = 0 ∧ c.hasMarks '.' then s.documentMark .documentEnd
  else if d = '[' then s.enterFlow .list
  else if d = '\x7b' then s.enterFlow .map
  else if d = ']' then s.leaveFlow .list
  else if d = '\x7d' then s.leaveFlow .map
  else if d = ',' then s.separate
  else if d = '-' ∧ endsWord then s.startItem
  else if d = '?' ∧ (s.inFlow ∨ endsWord) then s.startKey
  else if d = ':' ∧ (s.inFlow ∨ endsWord) then s.startValue
  else if d = '*' then
    s.pushKeyStart fun c => do
      let (name, c) ← c.anchorName
      return (.alias name, c)
  else if d = '&' then
    s.pushKeyStart fun c => do
      let (name, c) ← c.anchorName
      return (.anchor name, c)
  else if d = '!' then s.pushKeyStart Cursor.tag
  else if d = '|' ∧ !s.inFlow then s.pushBlockScalar false
  else if d = '>' ∧ !s.inFlow then s.pushBlockScalar true
  else if d = '\'' ∨ d = '"' then
    s.pushKeyStart fun c => do
      let (text, c) ← c.quotedScalar (d = '"')
      return (.scalar text false, c)
  else if c.startsPlain s.inFlow then s.pushPlain
  else .error .token

/-- Takes the next token, and the marks of the layout before it. -/
def next (s : Layout) : Except Error Layout := do
  let s := s.skipByteOrderMark
  let s ← (s.skipToToken (s.cursor.rest.length + 1)).dropExpired
  (s.dedent s.cursor.column).takeHere

/-- Whether another token is needed before the first pending one can be delivered. -/
def needsMore (s : Layout) : Except Error (Bool × Layout) :=
  if s.done then .ok (false, s)
  else if s.pending.isEmpty then .ok (true, s)
  else do
    let s ← s.dropExpired
    return (s.keyStarts.any fun k => k.2.number = s.delivered, s)

/-- The tokens that can be delivered, and the error that ends them. -/
def deliver : (fuel : Nat) → Layout → List Token × Option Error
  | 0, _ => ([], some .token)
  | fuel + 1, s =>
    match s.needsMore with
    | .error e => ([], some e)
    | .ok (true, s) =>
      match s.next with
      | .error e => ([], some e)
      | .ok s => deliver fuel s
    | .ok (false, s) =>
      match s.pending with
      | [] => ([], none)
      | token :: rest =>
        let others := deliver fuel { s with pending := rest, delivered := s.delivered + 1 }
        (token :: others.1, others.2)

end Layout

/-- The tokens of a text, and the error at which they end, if they do not end with the text. -/
def Token.ofText (text : Text) : List Token × Option Error :=
  Layout.deliver (8 * text.length + 32) (.start text)

end RandomText.Yaml
