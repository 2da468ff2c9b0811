import RandomText.Yaml.Error
import RandomText.Yaml.Graph

/-!
# Merging mappings

An entry whose key is a merge mark is replaced by the entries of the mappings that its value names;
they stand in front of the mapping's own. Mappings are merged where they stand, so every place that
holds the node sees the outcome, also a place inside of it.
-/

namespace RandomText.Yaml.Graph

def isMerge (g : Graph) (entry : Entry) : Bool := g.tag entry.1 = .merge

/-- How many entries of a document merge others. Merging only makes them fewer. -/
def mergeCount (g : Graph) : Nat :=
  g.nodes.foldl (fun n node =>
    match node.content with
    | .mapping entries => n + (entries.filter g.isMerge).length
    | _ => n) 0

/-- Default marks as keys are texts. -/
def withPlainKeys (entries : List Entry) (g : Graph) : Graph :=
  entries.foldl (fun g e => if g.tag e.1 = .value then g.setTag e.1 .str else g) g

/-- Changes to the nodes of a document. -/
abbrev Change := StateT Graph (Except Error)

/-- Merges what a mapping asks for from the entry with the given index on; `merged` was found for
the entries before. Each merge mark is taken out before its value is looked at, so `fuel` only needs
to exceed the number of marks. -/
def mergeFrom : (fuel : Nat) → (number index : Nat) → (merged : List Entry) → Change Unit
  | 0, _, _, _ => throw .construction
  | fuel + 1, number, index, merged => do
    let g ← get
    let entries := g.entries number
    let passed := (entries.drop index).takeWhile fun e => !g.isMerge e
    modify (withPlainKeys passed)
    let index := index + passed.length
    match entries.drop index with
    | [] => if !merged.isEmpty then modify (setContent number (.mapping (merged ++ entries)))
    | (_, value) :: rest =>
      modify (setContent number (.mapping (entries.take index ++ rest)))
      let entriesOf (other : Nat) : Change (List Entry) := do
        match (← get).content other with
        | .mapping _ =>
          mergeFrom fuel other 0 []
          return (← get).entries other
        | _ => throw .construction
      let found ← match (← get).content value with
        | .sequence items => do
          let parts ← items.mapM entriesOf
          pure parts.reverse.flatten
        | _ => entriesOf value
      mergeFrom fuel number index (merged ++ found)

end RandomText.Yaml.Graph
