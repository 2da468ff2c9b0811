import RandomText.Yaml.Document
import RandomText.Yaml.Merge
import RandomText.Yaml.Number

/-!
# The value of a document

Nodes get their values by their types, every node one value however many places hold it. Scalars get
theirs when they are first met. Collections are filled in the order in which they are met, each from
its start to its end, so of several errors the first in this order counts.
-/

namespace RandomText.Yaml

namespace Graph

/-- The text of a scalar; a mapping with a default value has the text of that. -/
def scalarText (g : Graph) : (fuel : Nat) → (number : Nat) → Except Error Text
  | 0, _ => .error .endless
  | fuel + 1, number =>
    match g.content number with
    | .scalar text => .ok text
    | .mapping entries =>
      match entries.find? fun e => g.tag e.1 = .value with
      | some (_, value) => scalarText g fuel value
      | none => .error .construction
    | .sequence _ => .error .construction

/-- The truth value of a word. -/
def truthValue (text : Text) : Except Error Bool :=
  let word := text.lowerCase
  if word = "yes" ∨ word = "true" ∨ word = "on" then .ok true
  else if word = "no" ∨ word = "false" ∨ word = "off" then .ok false
  else .error (.notATruthValue word)

/-- The day or moment of a scalar that stands for itself. -/
def moment (g : Graph) (number : Nat) (text : Text) : Except Error Data :=
  match g.content number with
  | .scalar _ => Scalar.toMoment text
  | _ => .error .momentInMapping

/-- The value of a node of a scalar type. -/
def scalarValue (g : Graph) (number : Nat) : Except Error Data := do
  let text := g.scalarText (g.size + 1) number
  match g.tag number with
  | .null => do
    let _ ← text
    return .null
  | .bool => return .bool (← truthValue (← text))
  | .int => return .integer (← Scalar.toInteger (← text))
  | .float => return .float (← Scalar.toFloat (← text))
  | .binary => return .bytes (← Scalar.toOctets (← text))
  | .timestamp => g.moment number (← text)
  | .str => return .text (← text)
  | _ => throw .construction

end Graph

/-- Whether values of a type hold other values. -/
def Tag.isCollection : Tag → Bool
  | .seq | .map | .omap | .pairs | .set => true
  | _ => false

/-- What is known of the value of a node: all of it, or the numbers of the nodes that it holds. -/
inductive Cell where
  | leaf (data : Data)
  | list (items : List Nat)
  | pairs (entries : List Entry)
  | map (entries : List (Data × Nat))

/-- The cell of a collection that is not filled yet. -/
def Cell.start : Tag → Cell
  | .map => .map []
  | _ => .list []

/-! ## Filling collections -/

/-- A document on its way to its value: the cells of nodes that were met, and the collections that
are to be filled, latest first. -/
structure Filling where
  graph : Graph
  cells : Array (Option Cell)
  waiting : List Nat

/-- Filling collections. -/
abbrev Fill := StateT Filling (Except Error)

namespace Fill

def setCell (number : Nat) (cell : Cell) : Fill Unit :=
  modify fun s => { s with cells := s.cells.setIfInBounds number (some cell) }

/-- The cell of a node that was met. -/
def cell? (number : Nat) : Fill (Option Cell) := return (← get).cells.getD number none

/-- Meets a node. The first time a scalar gets its value and a collection starts to wait. -/
def meet (number : Nat) : Fill Unit := do
  match ← cell? number with
  | some _ => pure ()
  | none =>
    let tag := (← get).graph.tag number
    if tag.isCollection then
      setCell number (.start tag)
      modify fun s => { s with waiting := number :: s.waiting }
    else
      match (← get).graph.scalarValue number with
      | .ok data => setCell number (.leaf data)
      | .error e => throw e

/-- The value of a key, which must not be a collection. -/
def key (number : Nat) : Fill Data := do
  meet number
  match ← cell? number with
  | some (.leaf data) =>
    if (← get).graph.tag number = .set then throw .construction else return data
  | _ => throw .construction

/-- Merges what a mapping asks for. -/
def merge (fuel number : Nat) : Fill Unit := do
  let s ← get
  match (Graph.mergeFrom fuel number 0 []).run s.graph with
  | .ok (_, graph) => set { s with graph }
  | .error e => throw e

/-- The entries of a mapping, with those that are merged into it; of equal keys the first one is
kept, with the last value. -/
def entries (fuel number : Nat) : Fill (List (Data × Nat)) := do
  match (← get).graph.content number with
  | .mapping _ =>
    merge fuel number
    ((← get).graph.entries number).foldlM (fun known e => do
      let key ← key e.1
      meet e.2
      return Data.insert key e.2 known) []
  | _ => throw .construction

/-- The only entry of a mapping. -/
def onlyEntry (number : Nat) : Fill Entry := do
  match (← get).graph.content number with
  | .mapping [e] =>
    meet e.1
    meet e.2
    return e
  | _ => throw .construction

/-- The items of a sequence. -/
def items (number : Nat) : Fill (List Nat) := do
  match (← get).graph.content number with
  | .sequence items => return items
  | _ => throw .construction

/-- Fills a collection; `fuel` is for merging. -/
def fill (fuel number : Nat) : Fill Unit := do
  match (← get).graph.tag number with
  | .seq => do
    let items ← items number
    items.forM meet
    setCell number (.list items)
  | .omap | .pairs => do setCell number (.pairs (← (← items number).mapM onlyEntry))
  | .map => do setCell number (.map (← entries fuel number))
  | .set => do setCell number (.leaf (.set ((← entries fuel number).map (·.1))))
  | _ => pure ()

/-- Fills the collections that are waiting, and those that they hold, round by round. -/
def fillAll (fuel : Nat) : (rounds : Nat) → Fill Unit
  | 0 => pure ()
  | rounds + 1 => do
    let s ← get
    if s.waiting.isEmpty then pure ()
    else
      set { s with waiting := [] }
      s.waiting.reverse.forM (fill fuel)
      fillAll fuel rounds

end Fill

/-! ## Unfolding -/

/-- The data of a cell down to some depth, and whether that is all of it. -/
structure Unfolding where
  data : Data
  complete : Bool

namespace Cell

/-- The data of a cell without what it holds. -/
def outside : Cell → Unfolding
  | leaf data => ⟨data, true⟩
  | list _ => ⟨.cycle .list, false⟩
  | pairs _ => ⟨.cycle .list, false⟩
  | map _ => ⟨.cycle .map, false⟩

/-- The data of a cell with what it holds, as far as that is known. -/
def inside (known : Nat → Unfolding) : Cell → Unfolding
  | leaf data => ⟨data, true⟩
  | list items =>
    let held := items.map known
    ⟨.list (held.map (·.data)), held.all (·.complete)⟩
  | pairs entries =>
    let held := entries.map fun e => (known e.1, known e.2)
    ⟨.list (held.map fun e => .pair e.1.data e.2.data),
      held.all fun e => e.1.complete && e.2.complete⟩
  | map entries =>
    let held := entries.map fun e => (e.1, known e.2)
    ⟨.map (held.map fun e => (e.1, e.2.data)), held.all (·.2.complete)⟩

/-- Whether a cell holds others. -/
def isCollection : Cell → Bool
  | leaf _ => false
  | _ => true

/-- The data of a cell, unfolded one level further in each round until it is complete or the rounds
are over. -/
def unfolded (cells : Array Cell) (root : Nat) : (rounds : Nat) → Array Unfolding → Data
  | 0, known => (known.getD root ⟨.null, true⟩).data
  | rounds + 1, known =>
    let current := known.getD root ⟨.null, true⟩
    if current.complete then current.data
    else
      let look (number : Nat) : Unfolding := known.getD number ⟨.null, true⟩
      unfolded cells root rounds (cells.map (inside look))

end Cell

/-- The data of a document. Where collections hold themselves it is unfolded to a depth at which
some collection was met inside itself. -/
def Document.toData (d : Document) : Except Error Data := do
  let start : Filling := ⟨d.graph, Array.replicate d.graph.size none, []⟩
  let filling : Fill Unit := do
    Fill.meet d.root
    Fill.fillAll (d.graph.mergeCount + 1) (d.graph.size + 1)
  let (_, filled) ← filling.run start
  let cells := filled.cells.map fun cell => cell.getD (.leaf .null)
  let depth := (cells.filter Cell.isCollection).size + 4
  return Cell.unfolded cells d.root depth (cells.map Cell.outside)

/-- The value of the only document of a text; an empty text has the value null. -/
def read (text : Text) : Except Error Data := do
  if text.any fun c =>
      !(c.val = 9 || c.val = 10 || c.val = 13 || (32 ≤ c.val && c.val ≤ 126) || c.val = 0x85 ||
        (0xA0 ≤ c.val && c.val ≤ 0xD7FF) || (0xE000 ≤ c.val && c.val ≤ 0xFFFD) ||
        0x10000 ≤ c.val) then
    throw .character
  match ← Document.ofText? text with
  | none => return .null
  | some document => document.toData

end RandomText.Yaml
