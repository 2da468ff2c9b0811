import RandomText.Proofs.Pattern.Preorder

/-!
# Places of nodes

Every node of an accepted pattern, and not only those directly on the stack, carries the position of an
index of the pattern text (`placed_of_read`).
-/

namespace RandomText

namespace Node

mutual

/-- Every node of the tree has a position with the property `P`. -/
def EveryPosition (P : Option Position → Prop) : Node → Prop
  | leaf tag _ => P tag.position
  | group tag _ children => P tag.position ∧ EveryPositionAll P children

def EveryPositionAll (P : Option Position → Prop) : List Node → Prop
  | [] => True
  | node :: rest => EveryPosition P node ∧ EveryPositionAll P rest

end

variable {P : Option Position → Prop}

mutual

theorem everyPosition_of_preorder (node : Node) (h : ∀ inner ∈ node.preorder, P inner.position) :
    node.EveryPosition P := by
  match node with
  | leaf tag atom => exact h _ List.mem_cons_self
  | group tag kind children =>
    obtain ⟨hnode, hchildren⟩ := List.forall_mem_cons.mp h
    exact ⟨hnode, everyPositionAll_of_preorderAll children hchildren⟩

theorem everyPositionAll_of_preorderAll (nodes : List Node)
    (h : ∀ inner ∈ preorderAll nodes, P inner.position) : EveryPositionAll P nodes := by
  match nodes with
  | [] => trivial
  | node :: rest =>
    obtain ⟨hnode, hrest⟩ := List.forall_mem_append.mp h
    exact ⟨everyPosition_of_preorder node hnode, everyPositionAll_of_preorderAll rest hrest⟩

end

mutual

theorem EveryPosition.mono {Q : Option Position → Prop} (hPQ : ∀ position, P position → Q position)
    {node : Node} (h : node.EveryPosition P) : node.EveryPosition Q := by
  match node with
  | leaf tag _ => exact hPQ tag.position h
  | group tag _ children => exact ⟨hPQ tag.position h.1, EveryPositionAll.mono hPQ h.2⟩

theorem EveryPositionAll.mono {Q : Option Position → Prop} (hPQ : ∀ position, P position → Q position)
    {nodes : List Node} (h : EveryPositionAll P nodes) : EveryPositionAll Q nodes := by
  match nodes with
  | [] => trivial
  | _ :: _ => exact ⟨EveryPosition.mono hPQ h.1, EveryPositionAll.mono hPQ h.2⟩

end

end Node

namespace Pattern

/-- The position of an index of the input, or of its end. -/
def Settings.Placed (settings : Settings) (input : Text) (position : Option Position) : Prop :=
  ∃ index ≤ input.length, position = settings.at input index

/-- **Every node has its place**: the origin, an index of the pattern text and this text. -/
theorem placed_of_read {settings : Settings} {input : Text} {root : Node}
    (h : read settings input = .ok root) : root.EveryPosition (settings.Placed input) := by
  obtain ⟨p, -, hreached, -, -, -, -, rfl⟩ := reached_of_read h
  refine ⟨⟨0, Nat.zero_le _, rfl⟩, Node.everyPositionAll_of_preorderAll _ fun node hnode => ?_⟩
  obtain ⟨index, hlt, hposition, -⟩ := hreached.traced.identified p.top List.mem_cons_self node
    (Node.mem_preorderAll_reverse.mp hnode)
  exact ⟨index, Nat.le_of_lt hlt, hposition⟩

end Pattern

end RandomText
