import RandomText.Yaml.Tag

/-!
# The nodes of a document

The nodes of a document are numbered and name each other by their numbers, so that a node can stand
in several places and inside itself.
-/

namespace RandomText.Yaml

/-- The numbers of a key and of its value. -/
abbrev Entry := Nat × Nat

inductive Content where
  | scalar (text : Text)
  | sequence (items : List Nat)
  | mapping (entries : List Entry)

/-- A node: its type and what it holds. -/
structure Node where
  tag : Tag
  content : Content

/-- Nodes by their numbers. -/
structure Graph where
  nodes : Array Node

namespace Graph

def empty : Graph := ⟨#[]⟩

def size (g : Graph) : Nat := g.nodes.size

/-- The node with a number; a number without one leads to an empty text. -/
def node (g : Graph) (number : Nat) : Node := g.nodes.getD number ⟨.str, .scalar []⟩

def tag (g : Graph) (number : Nat) : Tag := (g.node number).tag

def content (g : Graph) (number : Nat) : Content := (g.node number).content

/-- The entries of a mapping; other nodes have none. -/
def entries (g : Graph) (number : Nat) : List Entry :=
  match g.content number with
  | .mapping entries => entries
  | _ => []

/-- Adds a node, which gets the next number. -/
def add (node : Node) (g : Graph) : Graph := ⟨g.nodes.push node⟩

def setContent (number : Nat) (content : Content) (g : Graph) : Graph :=
  ⟨g.nodes.modify number fun node => { node with content }⟩

def setTag (number : Nat) (tag : Tag) (g : Graph) : Graph :=
  ⟨g.nodes.modify number fun node => { node with tag }⟩

end Graph

end RandomText.Yaml
