import RandomText.Pattern.Token

/-!
# Reading pattern text

Tokens are read from left to right onto a stack of frames, one for each bracket that is open. A
closing bracket that does not fit the top frame has no meaning, as other characters without meaning
do: they are ignored or, in strict reading, refused unless they are blank. What stood on the stack
when a reading failed remains part of its outcome.
-/

namespace RandomText.Pattern

/-- How pattern text is read. -/
structure Settings where
  /-- The name of the text in positions. -/
  origin : Text := "<pattern>"
  /-- Whether characters without meaning are refused. -/
  strict : Bool := false
  /-- The most brackets that may be open at once. -/
  maxDepth : Int := 32

inductive FrameKind where
  | root
  | bracket (bracket : Bracket)
  | range
deriving DecidableEq

/-- The code point that closes a bracket. -/
def Bracket.closer : Bracket → CodePoint
  | sequence => ')'
  | choice => '\x7d'

namespace FrameKind

def name : FrameKind → Text
  | root => "root"
  | bracket .sequence => "sequence"
  | bracket .choice => "choice"
  | range => "range"

/-- The code point that closes a frame; the root and a range are closed by the reader itself. -/
def closer? : FrameKind → Option CodePoint
  | bracket b => some b.closer
  | _ => none

/-- The node that a frame turns into. A range of one segment is that segment. -/
def close (kind : FrameKind) (position : Option Position) (children : List Node) : Node :=
  match kind, children with
  | root, _ => .group (.once position) .root children
  | bracket .sequence, _ => .group (.once position) .sequence children
  | bracket .choice, _ => .group (.once position) .choice children
  | range, [child] => child
  | range, _ => .group (.once position) .sequence children

end FrameKind

/-- A bracket, range or root that is being read. -/
structure Frame where
  kind : FrameKind
  /-- The index of the opening mark. -/
  start : Nat
  /-- The nodes read so far, latest first. -/
  latest : List Node
  /-- The index of the latest child that a repetition was applied to. -/
  lastRepeated : Option Nat

namespace Frame

def opened (kind : FrameKind) (start : Nat) : Frame := ⟨kind, start, [], none⟩

def children (frame : Frame) : List Node := frame.latest.reverse

def push (node : Node) (frame : Frame) : Frame := { frame with latest := node :: frame.latest }

end Frame

/-- What a reading notes on its way. -/
inductive Event where
  | opened (kind : FrameKind) (index : Nat)
  | closed (kind : FrameKind) (start : Nat)
  | ignored (c : CodePoint) (index : Nat)
deriving DecidableEq

/-- The frames that are open, the innermost first, and what was noted so far, latest first. -/
structure Progress where
  top : Frame
  below : List Frame
  noted : List Event

namespace Progress

/-- Nothing read yet. -/
def start : Progress := ⟨.opened .root 0, [], []⟩

/-- All open frames, the innermost first. -/
def frames (p : Progress) : List Frame := p.top :: p.below

/-- The events in the order in which they happened. -/
def events (p : Progress) : List Event := p.noted.reverse

def note (event : Event) (p : Progress) : Progress := { p with noted := event :: p.noted }

/-- How many brackets are open. -/
def depth (p : Progress) : Nat := (p.frames.filter fun f => f.kind.closer?.isSome).length

def push (node : Node) (p : Progress) : Progress := { p with top := p.top.push node }

/-- A new innermost frame. -/
def enter (kind : FrameKind) (index : Nat) (p : Progress) : Progress :=
  { p with top := .opened kind index, below := p.top :: p.below }

end Progress

/-- An error together with what was read before it. -/
structure Halt where
  error : ReadError
  progress : Progress

/-- The position of an index of `input`. -/
def Settings.at (settings : Settings) (input : Text) (index : Nat) : Option Position :=
  some ⟨settings.origin, index, input⟩

namespace Progress

/-- The fault `cause` at `index`. -/
def refuse (cause : Cause) (index : Nat) (p : Progress) : Except Halt Progress :=
  .error ⟨.fault ⟨cause, index⟩, p⟩

/-- A character without meaning. -/
def ignore (settings : Settings) (c : CodePoint) (index : Nat) (p : Progress) :
    Except Halt Progress :=
  if settings.strict && !c.isBlank then p.refuse (.unexpected c) index
  else .ok (p.note (.ignored c index))

/-- An opening bracket. -/
def openBracket (settings : Settings) (bracket : Bracket) (index : Nat) (p : Progress) :
    Except Halt Progress :=
  if settings.maxDepth ≤ p.depth then p.refuse .nestedTooDeeply index
  else .ok ((p.enter (.bracket bracket) index).note (.opened (.bracket bracket) index))

/-- A closing bracket, which has no meaning unless it fits the innermost frame. -/
def closeBracket (settings : Settings) (input : Text) (bracket : Bracket) (index : Nat)
    (p : Progress) : Except Halt Progress :=
  match p.below with
  | [] => p.ignore settings bracket.closer index
  | parent :: below =>
    if p.top.kind = .bracket bracket then
      let outer : Progress := { p with top := parent, below := below }
      if bracket = .choice ∧ p.top.latest = [] then outer.refuse .emptyChoice index
      else
        let node := p.top.kind.close (settings.at input p.top.start) p.top.children
        .ok ((outer.note (.closed p.top.kind p.top.start)).push node)
    else p.ignore settings bracket.closer index

/-- A repetition, applied to the latest child of the innermost frame. -/
def applyRepetition (count : Nat) (one_le : 1 ≤ count) (index : Nat) (p : Progress) :
    Except Halt Progress :=
  match p.top.latest with
  | [] => p.refuse .nothingToRepeat index
  | node :: earlier =>
    if p.top.lastRepeated = some earlier.length then p.refuse .repeatedTwice index
    else
      let node := node.withRepeatCount count one_le
      .ok { p with
        top := { p.top with latest := node :: earlier, lastRepeated := some earlier.length } }

/-- The leaves of the segments of a range. -/
def segmentNodes (settings : Settings) (input : Text) (segments : List (Nat × Atom)) : List Node :=
  segments.map fun s => .leaf (.once (settings.at input s.1)) s.2

/-- A range, which opens and closes a frame of its own. -/
def addRange (settings : Settings) (input : Text) (segments : List (Nat × Atom)) (index : Nat)
    (p : Progress) : Progress :=
  let node := FrameKind.range.close (settings.at input index) (segmentNodes settings input segments)
  ((p.note (.opened .range index)).note (.closed .range index)).push node

def step (settings : Settings) (input : Text) (lexeme : Lexeme) (p : Progress) :
    Except Halt Progress :=
  match lexeme.token with
  | .atom atom => .ok (p.push (.leaf (.once (settings.at input lexeme.index)) atom))
  | .range segments => .ok (p.addRange settings input segments lexeme.index)
  | .repetition count pos => p.applyRepetition count pos lexeme.index
  | .opening bracket => p.openBracket settings bracket lexeme.index
  | .closing bracket => p.closeBracket settings input bracket lexeme.index
  | .other c => p.ignore settings c lexeme.index

/-- What a misspelling leaves behind: within a range, its frame with the segments before the
failure. -/
def misspelt (settings : Settings) (input : Text) (m : Misspelling) (p : Progress) : Progress :=
  match m.segments with
  | none => p
  | some segments =>
    let inner := (p.enter .range m.index).note (.opened .range m.index)
    { inner with
      top := { inner.top with latest := (segmentNodes settings input segments).reverse } }

/-- The tree of a text that was read to its end. -/
def finish (settings : Settings) (input : Text) (p : Progress) : Except Halt Node :=
  match p.top.kind.closer? with
  | some closer => .error ⟨.fault ⟨.unclosed [closer], input.length⟩, p⟩
  | none => .ok (p.top.kind.close (settings.at input 0) p.top.children)

end Progress

/-- How far a text was read, what was read, and the tree or the error. -/
structure Reading where
  current : Nat
  progress : Progress
  result : Except ReadError Node

/-- Reads the tokens from `p` on; `current` is the index after the token before them. -/
def readFrom (settings : Settings) (input : Text) (misspelling : Option Misspelling)
    (current : Nat) (p : Progress) : List Lexeme → Reading
  | [] =>
    match misspelling with
    | some m => ⟨m.stop, p.misspelt settings input m, .error m.error⟩
    | none =>
      match p.finish settings input with
      | .ok node => ⟨current, p, .ok node⟩
      | .error halt => ⟨current, halt.progress, .error halt.error⟩
  | lexeme :: rest =>
    match p.step settings input lexeme with
    | .ok p => readFrom settings input misspelling lexeme.stop p rest
    | .error halt => ⟨lexeme.stop, halt.progress, .error halt.error⟩

/-- Reads a pattern text, with all that can be known about the reading. -/
def reading (settings : Settings) (input : Text) : Reading :=
  let scanned := Token.scan 0 input
  readFrom settings input scanned.2 0 .start scanned.1

/-- The tree of a pattern text. -/
def read (settings : Settings) (input : Text) : Except ReadError Node :=
  (reading settings input).result

end RandomText.Pattern
