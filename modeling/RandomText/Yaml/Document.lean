import RandomText.Yaml.Graph
import RandomText.Yaml.Layout

/-!
# Reading a document

Tokens are read to the nodes of a document. An alias is the node of its anchor, which may be a
collection that is still being read.
-/

namespace RandomText.Yaml

/-- What is known while tokens are read: the tokens to come, the error at which they end, what the
handles of tags stand for, the nodes so far, and those that anchors name. -/
structure Reading where
  tokens : List Token
  ending : Error
  handles : List (Text × Text)
  graph : Graph
  anchors : List (Text × Nat)

/-- Reading tokens. -/
abbrev Reader := StateT Reading (Except Error)

namespace Reader

/-- The next token, which is not taken. -/
def peek : Reader Token := fun s =>
  match s.tokens with
  | token :: _ => .ok (token, s)
  | [] => .error s.ending

/-- Takes the next token. -/
def take : Reader Unit := fun s =>
  match s.tokens with
  | _ :: rest => .ok ((), { s with tokens := rest })
  | [] => .error s.ending

/-- Whether the next token is the given one. -/
def atToken (token : Token) : Reader Bool := return (← peek) = token

/-- Takes the next token if it is the given one. -/
def accept (token : Token) : Reader Bool := do
  if ← atToken token then
    take
    return true
  else return false

/-- Takes the next token, which must be the given one. -/
def expect (token : Token) : Reader Unit := do
  if !(← accept token) then throw .grammar

/-- Sets the node of an anchor. -/
def setAnchor (anchor : Option Text) (number : Nat) : Reader Unit :=
  match anchor with
  | none => return ()
  | some name => modify fun s => { s with anchors := (name, number) :: s.anchors }

/-- Refuses an anchor that is already known. -/
def checkAnchor (anchor : Option Text) : Reader Unit := do
  match anchor with
  | none => return ()
  | some name => if (← get).anchors.any (·.1 = name) then throw .composition

/-- The node of an alias. -/
def aliased (name : Text) : Reader Nat := do
  match (← get).anchors.find? (·.1 = name) with
  | some (_, number) => return number
  | none => throw .composition

/-- An anchor, if one comes. -/
def anchor? : Reader (Option Text) := do
  match ← peek with
  | .anchor name => do
    take
    return some name
  | _ => return none

/-- A tag, if one comes. -/
def tag? : Reader (Option WrittenTag) := do
  match ← peek with
  | .tag tag => do
    take
    return some tag
  | _ => return none

/-- The anchor and the tag of a node, in either order. -/
def properties : Reader (Option Text × Option WrittenTag) := do
  match ← anchor? with
  | some name => return (some name, ← tag?)
  | none =>
    match ← tag? with
    | some tag => return (← anchor?, some tag)
    | none => return (none, none)

/-- The full name of a tag. -/
def fullName (tag : Option WrittenTag) : Reader (Option Text) := do
  match tag with
  | none => return none
  | some ⟨none, suffix⟩ => return some suffix
  | some ⟨some handle, suffix⟩ =>
    match (← get).handles.find? (·.1 = handle) with
    | some (_, replacement) => return some (replacement ++ suffix)
    | none => throw .grammar

/-- The tag that asks for the type that a node would have without one. -/
def isNonspecific (name : Option Text) : Bool := name.isNone || name = some "!"

/-- The type of a scalar. Texts in quotes are texts unless their tag asks for more. -/
def scalarTag (name : Option Text) (plain : Bool) (text : Text) : Tag :=
  match name with
  | none => if plain then Scalar.tagOf text else .str
  | some name => if name = "!" then Scalar.tagOf text else .ofName name

/-- The type of a collection. -/
def collectionTag (name : Option Text) (default : Tag) : Tag :=
  match name with
  | none => default
  | some name => if name = "!" then default else .ofName name

/-- Adds a node that an anchor may name. -/
def addNode (anchor : Option Text) (node : Node) : Reader Nat := do
  checkAnchor anchor
  let number := (← get).graph.size
  modify fun s => { s with graph := s.graph.add node }
  setAnchor anchor number
  return number

/-- The node of missing content. -/
def empty : Reader Nat := addNode none ⟨.null, .scalar []⟩

/-- Reads a collection, whose node is known inside of it. -/
def collection (anchor : Option Text) (tag : Tag) (content : Reader Content) : Reader Nat := do
  let number ← addNode anchor ⟨tag, .sequence []⟩
  let content ← content
  modify fun s => { s with graph := s.graph.setContent number content }
  return number

/-- Where a node stands: in a flow collection, in a block collection, or in the entry of a block
mapping, where the items of a sequence need no further indentation. -/
inductive Place where
  | flow
  | block
  | mappingEntry
deriving DecidableEq

mutual

/-- A node. -/
def node : (fuel : Nat) → Place → Reader Nat
  | 0, _ => throw .grammar
  | fuel + 1, place => do
    match ← peek with
    | .alias name => do
      take
      aliased name
    | _ => do
      let (anchor, tag) ← properties
      let name ← fullName tag
      let token ← peek
      if place = .mappingEntry ∧ token = .dash then
        collection anchor (collectionTag name .seq) do return .sequence (← flushItems fuel)
      else
        match token with
        | .scalar text plain => do
          take
          addNode anchor ⟨scalarTag name plain text, .scalar text⟩
        | .openFlow .list =>
          collection anchor (collectionTag name .seq) do
            take
            return .sequence (← flowItems fuel true)
        | .openFlow .map =>
          collection anchor (collectionTag name .map) do
            take
            return .mapping (← flowEntries fuel true)
        | token =>
          if place ≠ .flow ∧ token = .openBlock .list then
            collection anchor (collectionTag name .seq) do
              take
              return .sequence (← blockItems fuel)
          else if place ≠ .flow ∧ token = .openBlock .map then
            collection anchor (collectionTag name .map) do
              take
              return .mapping (← blockEntries fuel)
          else if anchor.isSome ∨ tag.isSome then
            addNode anchor ⟨scalarTag name (isNonspecific name) [], .scalar []⟩
          else throw .grammar

/-- A node, unless one of the tokens that end it comes. -/
def nodeUnless : (fuel : Nat) → Place → List Token → Reader Nat
  | 0, _, _ => throw .grammar
  | fuel + 1, place, stops => do
    if stops.contains (← peek) then empty else node fuel place

/-- The items of a block sequence, and its end. -/
def blockItems : (fuel : Nat) → Reader (List Nat)
  | 0 => throw .grammar
  | fuel + 1 => do
    if ← accept .dash then
      let item ← nodeUnless fuel .block [.dash, .closeBlock]
      return item :: (← blockItems fuel)
    else
      expect .closeBlock
      return []

/-- The items of a sequence that is not indented further than the mapping around it. -/
def flushItems : (fuel : Nat) → Reader (List Nat)
  | 0 => throw .grammar
  | fuel + 1 => do
    if ← accept .dash then
      let item ← nodeUnless fuel .block [.dash, .key, .value, .closeBlock]
      return item :: (← flushItems fuel)
    else return []

/-- The value behind a key, if there is one. -/
def valueUnless : (fuel : Nat) → Place → List Token → Reader Nat
  | 0, _, _ => throw .grammar
  | fuel + 1, place, stops => do
    if ← accept .value then nodeUnless fuel place stops else empty

/-- The entries of a block mapping, and its end. -/
def blockEntries : (fuel : Nat) → Reader (List Entry)
  | 0 => throw .grammar
  | fuel + 1 => do
    if ← accept .key then
      let stops : List Token := [.key, .value, .closeBlock]
      let key ← nodeUnless fuel .mappingEntry stops
      let value ← valueUnless fuel .mappingEntry stops
      return (key, value) :: (← blockEntries fuel)
    else
      expect .closeBlock
      return []

/-- The items of a flow sequence, and its end. A key makes an item a mapping of one entry. -/
def flowItems : (fuel : Nat) → (first : Bool) → Reader (List Nat)
  | 0, _ => throw .grammar
  | fuel + 1, first => do
    if ← accept (.closeFlow .list) then return []
    else
      if !first then expect .comma
      if ← accept .key then
        let key ← nodeUnless fuel .flow [.value, .comma, .closeFlow .list]
        let value ← valueUnless fuel .flow [.comma, .closeFlow .list]
        let item ← addNode none ⟨.map, .mapping [(key, value)]⟩
        return item :: (← flowItems fuel false)
      else if ← accept (.closeFlow .list) then return []
      else
        let item ← node fuel .flow
        return item :: (← flowItems fuel false)

/-- The entries of a flow mapping, and its end. A node alone is a key without a value. -/
def flowEntries : (fuel : Nat) → (first : Bool) → Reader (List Entry)
  | 0, _ => throw .grammar
  | fuel + 1, first => do
    if ← accept (.closeFlow .map) then return []
    else
      if !first then expect .comma
      if ← accept .key then
        let key ← nodeUnless fuel .flow [.value, .comma, .closeFlow .map]
        let value ← valueUnless fuel .flow [.comma, .closeFlow .map]
        return (key, value) :: (← flowEntries fuel false)
      else if ← accept (.closeFlow .map) then return []
      else
        let key ← node fuel .flow
        let value ← empty
        return (key, value) :: (← flowEntries fuel false)

end

/-! ## Documents -/

/-- The handles that every document has. -/
def standardHandles : List (Text × Text) := [("!", "!"), ("!!", Tag.namePrefix)]

/-- Directives: whether a version was given, and the handles so far. -/
def directives : (fuel : Nat) → (versioned : Bool) → (handles : List (Text × Text)) →
    Reader (List (Text × Text))
  | 0, _, _ => throw .grammar
  | fuel + 1, versioned, handles => do
    match ← peek with
    | .directive d => do
      take
      match d with
      | .version major _ =>
        if versioned ∨ major ≠ 1 then throw .grammar else directives fuel true handles
      | .handle handle replacement =>
        if handles.any (·.1 = handle) then throw .grammar
        else directives fuel versioned (handles ++ [(handle, replacement)])
      | .other => directives fuel versioned handles
    | _ => return handles

/-- Skips marks of the end of a document. -/
def skipDocumentEnds : (fuel : Nat) → Reader Unit
  | 0 => throw .grammar
  | fuel + 1 => do if ← accept .documentEnd then skipDocumentEnds fuel else return ()

/-- The mark that starts a document, with the directives before it; `false` at the end of the
stream. -/
def documentStart (fuel : Nat) : Reader Bool := do
  skipDocumentEnds fuel
  if ← atToken .streamEnd then return false
  else
    let handles ← directives fuel false []
    expect .documentStart
    modify fun s => { s with handles := handles ++ standardHandles }
    return true

/-- Whether a token ends a document that has no content. -/
def endsDocument : Token → Bool
  | .directive _ => true
  | .documentStart => true
  | .documentEnd => true
  | .streamEnd => true
  | _ => false

/-- The content of a document behind its mark. -/
def documentContent (fuel : Nat) : Reader Nat := do
  if endsDocument (← peek) then empty else node fuel .block

/-- The only document of a stream, if it has one. -/
def stream (fuel : Nat) : Reader (Option Nat) := do
  let first ← peek
  let root? ← (
    if endsDocument first ∧ first ≠ .documentEnd then do
      if ← documentStart fuel then return some (← documentContent fuel) else return none
    else return some (← node fuel .block))
  match root? with
  | none => return none
  | some root => do
    let _ ← accept .documentEnd
    if ← documentStart fuel then throw .composition else return some root

end Reader

/-- The nodes of a document and the number of the one that holds the others. -/
structure Document where
  graph : Graph
  root : Nat

/-- The only document of a text, if it has one. -/
def Document.ofText? (text : Text) : Except Error (Option Document) := do
  let (tokens, ending) := Token.ofText text
  let reading : Reading := ⟨tokens, ending.getD .token, Reader.standardHandles, .empty, []⟩
  let (root?, reading) ← (Reader.stream (4 * tokens.length + 16)).run reading
  return root?.map fun root => ⟨reading.graph, root⟩

end RandomText.Yaml
