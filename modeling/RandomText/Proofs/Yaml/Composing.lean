import RandomText.Proofs.Yaml.Scanning
import RandomText.Yaml.Document

/-!
# Composing written documents

The tokens of a value are read to nodes that hold the value. Nodes are numbered in the order in which they
begin, so what a node holds has greater numbers, and later nodes change nothing about it.
-/

namespace RandomText.Yaml

namespace Graph

/-! ### Graphs that hold a value -/

mutual

/-- A node holds a value, and what it holds has greater numbers. -/
def Holds (g : Graph) : Data → Nat → Prop
  | .bool b, i => i < g.size ∧ g.node i = ⟨.bool, .scalar (if b then "true" else "false")⟩
  | .integer n, i => i < g.size ∧ g.node i = ⟨.int, .scalar (Numeral.digits n.natAbs)⟩
  | .text t, i => i < g.size ∧ g.node i = ⟨.str, .scalar t⟩
  | .list items, i => i < g.size ∧ ∃ numbers, g.node i = ⟨.seq, .sequence numbers⟩ ∧
    HoldsItems g i items numbers
  | .map entries, i => i < g.size ∧ ∃ numbers, g.node i = ⟨.map, .mapping numbers⟩ ∧
    HoldsEntries g i entries numbers
  | _, _ => False

def HoldsItems (g : Graph) (i : Nat) : List Data → List Nat → Prop
  | [], [] => True
  | v :: rest, k :: numbers => i < k ∧ Holds g v k ∧ HoldsItems g i rest numbers
  | _, _ => False

def HoldsEntries (g : Graph) (i : Nat) : List (Data × Data) → List Entry → Prop
  | [], [] => True
  | (k, v) :: rest, e :: numbers =>
    (∃ name, k = .text name ∧ i < e.1 ∧ e.1 < g.size ∧ g.node e.1 = ⟨.str, .scalar name⟩) ∧
      i < e.2 ∧ Holds g v e.2 ∧ HoldsEntries g i rest numbers
  | _, _ => False

end

/-- A graph has the nodes of another one from a number on. -/
structure Extends (first : Nat) (g g' : Graph) : Prop where
  size_le : g.size ≤ g'.size
  node_eq : ∀ k, first ≤ k → k < g.size → g'.node k = g.node k

section extends'

variable {g g' g'' : Graph} {first : Nat}

theorem Extends.refl (first : Nat) (g : Graph) : Extends first g g := ⟨Nat.le_refl _, fun _ _ _ => rfl⟩

theorem Extends.trans (h : Extends first g g') (h' : Extends first g' g'') : Extends first g g'' := by
  refine ⟨Nat.le_trans h.size_le h'.size_le, ?_⟩
  intro k hk hlt
  rw [h'.node_eq k hk (Nat.lt_of_lt_of_le hlt h.size_le), h.node_eq k hk hlt]

theorem size_add (node : Node) (g : Graph) : (g.add node).size = g.size + 1 := by
  simp [add, size]

theorem node_add_self (node : Node) (g : Graph) : (g.add node).node g.size = node := by
  simp [add, Graph.node, size]

theorem extends_add (first : Nat) (node : Node) (g : Graph) : Extends first g (g.add node) := by
  refine ⟨by rw [size_add]; omega, ?_⟩
  intro k _ hlt
  have hne : k ≠ g.nodes.size := Nat.ne_of_lt hlt
  simp [add, Graph.node, Array.getD_eq_getD_getElem?, Array.getElem?_push, hne]

theorem size_setContent (i : Nat) (content : Content) (g : Graph) :
    (g.setContent i content).size = g.size := by
  simp [setContent, size]

theorem node_setContent_self {i : Nat} (content : Content) (hi : i < g.size) :
    (g.setContent i content).node i = ⟨(g.node i).tag, content⟩ := by
  have hi' : i < g.nodes.size := hi
  simp [setContent, Graph.node, Array.getD_eq_getD_getElem?, Array.getElem_modify, hi']

theorem node_setContent_of_ne {i k : Nat} (content : Content) (g : Graph) (hne : i ≠ k) :
    (g.setContent i content).node k = g.node k := by
  simp [setContent, Graph.node, Array.getD_eq_getD_getElem?, Array.getElem?_modify, hne]

theorem extends_setContent (i : Nat) (content : Content) (g : Graph) :
    Extends (i + 1) g (g.setContent i content) := by
  refine ⟨by rw [size_setContent], ?_⟩
  intro k hk _
  exact node_setContent_of_ne content g (by omega)

theorem extends_collection {node : Node} (h : Extends 0 (g.add node) g') (content : Content) :
    Extends 0 g (g'.setContent g.size content) := by
  have hadd := (extends_add 0 node g).trans h
  refine ⟨by rw [size_setContent]; exact hadd.size_le, ?_⟩
  intro k hk hlt
  rw [node_setContent_of_ne content g' (by omega), hadd.node_eq k hk hlt]

theorem node_collection {tag : Tag} {content : Content} (h : Extends 0 (g.add ⟨tag, content⟩) g')
    (content' : Content) : g.size < (g'.setContent g.size content').size ∧
      (g'.setContent g.size content').node g.size = ⟨tag, content'⟩ := by
  have hlt : g.size < (g.add ⟨tag, content⟩).size := by rw [size_add]; omega
  have hlt' : g.size < g'.size := Nat.lt_of_lt_of_le hlt h.size_le
  rw [size_setContent, node_setContent_self content' hlt', h.node_eq _ (Nat.zero_le _) hlt, node_add_self]
  exact ⟨hlt', rfl⟩

mutual

theorem Holds.extend {v : Data} {i : Nat} (h : Holds g v i) (hg : Extends first g g') (hi : first ≤ i) :
    Holds g' v i := by
  match v, h with
  | .bool b, ⟨hlt, hnode⟩ => exact ⟨Nat.lt_of_lt_of_le hlt hg.size_le, (hg.node_eq i hi hlt).trans hnode⟩
  | .integer n, ⟨hlt, hnode⟩ => exact ⟨Nat.lt_of_lt_of_le hlt hg.size_le, (hg.node_eq i hi hlt).trans hnode⟩
  | .text t, ⟨hlt, hnode⟩ => exact ⟨Nat.lt_of_lt_of_le hlt hg.size_le, (hg.node_eq i hi hlt).trans hnode⟩
  | .list items, ⟨hlt, numbers, hnode, hitems⟩ =>
    exact ⟨Nat.lt_of_lt_of_le hlt hg.size_le, numbers, (hg.node_eq i hi hlt).trans hnode,
      HoldsItems.extend hitems hg (by omega)⟩
  | .map entries, ⟨hlt, numbers, hnode, hentries⟩ =>
    exact ⟨Nat.lt_of_lt_of_le hlt hg.size_le, numbers, (hg.node_eq i hi hlt).trans hnode,
      HoldsEntries.extend hentries hg (by omega)⟩

theorem HoldsItems.extend {items : List Data} {numbers : List Nat} {i : Nat}
    (h : HoldsItems g i items numbers) (hg : Extends first g g') (hi : first ≤ i + 1) :
    HoldsItems g' i items numbers := by
  match items, numbers, h with
  | [], [], _ => trivial
  | v :: rest, k :: numbers, ⟨hlt, hv, hrest⟩ =>
    exact ⟨hlt, hv.extend hg (by omega), HoldsItems.extend hrest hg hi⟩

theorem HoldsEntries.extend {entries : List (Data × Data)} {numbers : List Entry} {i : Nat}
    (h : HoldsEntries g i entries numbers) (hg : Extends first g g') (hi : first ≤ i + 1) :
    HoldsEntries g' i entries numbers := by
  match entries, numbers, h with
  | [], [], _ => trivial
  | (k, v) :: rest, e :: numbers, ⟨⟨name, hk, hlt, hsize, hnode⟩, hltValue, hv, hrest⟩ =>
    exact ⟨⟨name, hk, hlt, Nat.lt_of_lt_of_le hsize hg.size_le,
      (hg.node_eq e.1 (by omega) hsize).trans hnode⟩, hltValue, hv.extend hg (by omega),
      HoldsEntries.extend hrest hg hi⟩

end

end extends'

end Graph

namespace Reader

open RandomText.Yaml.Graph (Extends Holds HoldsItems HoldsEntries)

/-! ### Reading tokens -/

section steps

variable {s s' : Reading} {token : Token} {rest : List Token} {fuel : Nat} {place : Place}

theorem peek_eq (h : s.tokens = token :: rest) : peek s = .ok (token, s) := by
  rw [peek, h]

theorem accept_self (h : s.tokens = token :: rest) :
    accept token s = .ok (true, { s with tokens := rest }) := by
  obtain ⟨tokens, ending, handles, graph, anchors⟩ := s
  obtain rfl : tokens = _ := h
  have hat : atToken token ⟨token :: rest, ending, handles, graph, anchors⟩ =
      .ok (decide (token = token), ⟨token :: rest, ending, handles, graph, anchors⟩) := rfl
  rw [decide_eq_true rfl] at hat
  rw [accept, StateT.bind_ok hat]
  rfl

theorem accept_other (h : s.tokens = token :: rest) {other : Token} (hne : token ≠ other) :
    accept other s = .ok (false, s) := by
  have hat : atToken other s = .ok (decide (token = other), s) := by
    rw [atToken, StateT.bind_ok (peek_eq h)]
    rfl
  rw [decide_eq_false hne] at hat
  rw [accept, StateT.bind_ok hat]
  rfl

theorem node_scalar {text : Text} {plain : Bool} (h : s.tokens = .scalar text plain :: rest) (fuel : Nat)
    (place : Place) : node (fuel + 1) place s = .ok (s.graph.size, { s with
      tokens := rest
      graph := s.graph.add ⟨if plain then Scalar.tagOf text else .str, .scalar text⟩ }) := by
  obtain ⟨tokens, ending, handles, graph, anchors⟩ := s
  obtain rfl : tokens = _ := h
  cases place <;> rfl

theorem node_emptyList (h : s.tokens = .openFlow .list :: .closeFlow .list :: rest) (fuel : Nat)
    (place : Place) : node (fuel + 2) place s = .ok (s.graph.size, { s with
      tokens := rest
      graph := (s.graph.add ⟨.seq, .sequence []⟩).setContent s.graph.size (.sequence []) }) := by
  obtain ⟨tokens, ending, handles, graph, anchors⟩ := s
  obtain rfl : tokens = _ := h
  cases place <;> rfl

theorem collection_eq {tag : Tag} {read : Reader Content} {content : Content}
    (h : read { s with graph := s.graph.add ⟨tag, .sequence []⟩ } = .ok (content, s')) :
    collection none tag read s =
      .ok (s.graph.size, { s' with graph := s'.graph.setContent s.graph.size content }) := by
  have hadd : addNode none ⟨tag, .sequence []⟩ s =
      .ok (s.graph.size, { s with graph := s.graph.add ⟨tag, .sequence []⟩ }) := rfl
  rw [collection, StateT.bind_ok hadd, StateT.bind_ok h]
  rfl

theorem node_map {numbers : List Entry} (h : s.tokens = .openBlock .map :: rest) (hplace : place ≠ .flow)
    (hentries : blockEntries fuel { s with tokens := rest, graph := s.graph.add ⟨.map, .sequence []⟩ } =
      .ok (numbers, s')) : node (fuel + 1) place s =
        .ok (s.graph.size, { s' with graph := s'.graph.setContent s.graph.size (.mapping numbers) }) := by
  obtain ⟨tokens, ending, handles, graph, anchors⟩ := s
  obtain rfl : tokens = _ := h
  let read : Reader Content := do
    take
    return .mapping (← blockEntries fuel)
  have hnode : node (fuel + 1) place ⟨.openBlock .map :: rest, ending, handles, graph, anchors⟩ =
      collection none .map read ⟨.openBlock .map :: rest, ending, handles, graph, anchors⟩ := by
    cases place
    · exact absurd rfl hplace
    · rfl
    · rfl
  have hread : read ⟨.openBlock .map :: rest, ending, handles, graph.add ⟨.map, .sequence []⟩, anchors⟩ =
      .ok (.mapping numbers, s') := by
    have htake : take ⟨.openBlock .map :: rest, ending, handles, graph.add ⟨.map, .sequence []⟩, anchors⟩ =
      .ok ((), ⟨rest, ending, handles, graph.add ⟨.map, .sequence []⟩, anchors⟩) := rfl
    exact (StateT.bind_ok htake).trans (StateT.bind_ok hentries)
  rw [hnode, collection_eq hread]

theorem node_list {numbers : List Nat} (h : s.tokens = .dash :: rest)
    (hitems : flushItems fuel { s with graph := s.graph.add ⟨.seq, .sequence []⟩ } = .ok (numbers, s')) :
    node (fuel + 1) .mappingEntry s =
      .ok (s.graph.size, { s' with graph := s'.graph.setContent s.graph.size (.sequence numbers) }) := by
  obtain ⟨tokens, ending, handles, graph, anchors⟩ := s
  obtain rfl : tokens = _ := h
  let read : Reader Content := do return .sequence (← flushItems fuel)
  have hnode : node (fuel + 1) .mappingEntry ⟨.dash :: rest, ending, handles, graph, anchors⟩ =
      collection none .seq read ⟨.dash :: rest, ending, handles, graph, anchors⟩ := rfl
  have hread : read ⟨.dash :: rest, ending, handles, graph.add ⟨.seq, .sequence []⟩, anchors⟩ =
      .ok (.sequence numbers, s') := StateT.bind_ok hitems
  rw [hnode, collection_eq hread]

theorem nodeUnless_eq {stops : List Token} (h : s.tokens = token :: rest) (hstop : token ∉ stops) :
    nodeUnless (fuel + 1) place stops s = node fuel place s := by
  rw [nodeUnless, StateT.bind_ok (peek_eq h), if_neg (by simpa using hstop)]

theorem valueUnless_eq {stops : List Token} (h : s.tokens = .value :: token :: rest) (hstop : token ∉ stops) :
    valueUnless (fuel + 2) place stops s = node fuel place { s with tokens := token :: rest } := by
  rw [valueUnless, StateT.bind_ok (accept_self h)]
  exact nodeUnless_eq rfl hstop

end steps

/-! ### Reading values -/

theorem exists_head (v : Data) (h : Storable v) : ∃ token rest, valueTokens v = token :: rest ∧
    token ∉ [Token.key, Token.value, Token.closeBlock] := by
  match v, h with
  | .bool _, _ => exact ⟨_, _, rfl, by simp⟩
  | .integer _, _ => exact ⟨_, _, rfl, by simp⟩
  | .text _, _ => exact ⟨_, _, rfl, by simp⟩
  | .list [], _ => exact ⟨_, _, rfl, by simp⟩
  | .list (_ :: _), _ => exact ⟨_, _, rfl, by simp⟩
  | .map _, _ => exact ⟨_, _, rfl, by simp⟩

theorem blockEntries_cons {s s' : Reading} {k : Text} {v : Data} {rest : List Token} {fuel number : Nat}
    {g : Graph} {numbers : List Entry}
    (h : s.tokens = .key :: .scalar k true :: .value :: (valueTokens v ++ rest))
    (hk : Scalar.tagOf k = .str) (hv : Storable v)
    (hread : node fuel .mappingEntry { s with
      tokens := valueTokens v ++ rest
      graph := s.graph.add ⟨.str, .scalar k⟩ } = .ok (number, { s with tokens := rest, graph := g }))
    (hothers : blockEntries (fuel + 2) { s with tokens := rest, graph := g } = .ok (numbers, s')) :
    blockEntries (fuel + 3) s = .ok ((s.graph.size, number) :: numbers, s') := by
  obtain ⟨token, ts, hhead, hstops⟩ := exists_head v hv
  have hkey : nodeUnless (fuel + 2) .mappingEntry [.key, .value, .closeBlock] { s with
      tokens := .scalar k true :: .value :: (valueTokens v ++ rest) } =
        .ok (s.graph.size, { s with
          tokens := .value :: (valueTokens v ++ rest)
          graph := s.graph.add ⟨.str, .scalar k⟩ }) := by
    rw [nodeUnless_eq (rfl : _ = Token.scalar k true :: _) (by simp), node_scalar rfl, if_pos rfl, hk]
  have hvalue : valueUnless (fuel + 2) .mappingEntry [.key, .value, .closeBlock] { s with
      tokens := .value :: (valueTokens v ++ rest)
      graph := s.graph.add ⟨.str, .scalar k⟩ } = .ok (number, { s with tokens := rest, graph := g }) := by
    rw [hhead, List.cons_append, valueUnless_eq rfl hstops, ← List.cons_append, ← hhead]
    exact hread
  rw [blockEntries, StateT.bind_ok (accept_self h)]
  exact (StateT.bind_ok hkey).trans ((StateT.bind_ok hvalue).trans (StateT.bind_ok hothers))

theorem exists_behind {entries : List (Data × Data)} (h : StorableEntries entries) (rest : List Token) :
    ∃ next behind, entriesTokens entries ++ .closeBlock :: rest = next :: behind ∧ next ≠ .dash := by
  match entries, h with
  | [], _ => exact ⟨_, _, rfl, by decide⟩
  | (.text k, v) :: entries, _ => exact ⟨_, _, rfl, by decide⟩

/-- The tokens are read to a node of the graph that holds the value, and the tokens behind them are left. -/
structure ReadsTo (result : Except Error (Nat × Reading)) (s : Reading) (v : Data) (rest : List Token)
    (number : Nat) (g : Graph) : Prop where
  result_eq : result = .ok (number, { s with tokens := rest, graph := g })
  size_le : s.graph.size ≤ number
  extends_graph : Extends 0 s.graph g
  holds : Holds g v number

theorem readsTo_scalar {s : Reading} {v : Data} {text : Text} {plain : Bool} {tag : Tag} {rest : List Token}
    (h : s.tokens = .scalar text plain :: rest) (htag : (if plain then Scalar.tagOf text else .str) = tag)
    (hholds : ∀ g i, i < Graph.size g → g.node i = ⟨tag, .scalar text⟩ → Holds g v i) (fuel : Nat)
    (place : Place) : ∃ number g, ReadsTo (node (fuel + 1) place s) s v rest number g := by
  refine ⟨_, _, node_scalar h fuel place, Nat.le_refl _, Graph.extends_add 0 _ _, hholds _ _ ?_ ?_⟩
  · rw [Graph.size_add]
    omega
  · rw [Graph.node_add_self, htag]

mutual

/-- **A value behind a key is read** to a node that holds it. -/
theorem exists_reads (v : Data) (h : Storable v) (fuel : Nat) (hfuel : 4 * (valueTokens v).length ≤ fuel)
    {next : Token} (hnext : next ≠ .dash) {rest : List Token} {s : Reading}
    (hs : s.tokens = valueTokens v ++ next :: rest) :
    ∃ number g, ReadsTo (node fuel .mappingEntry s) s v (next :: rest) number g := by
  match v, h with
  | .bool b, _ =>
    obtain ⟨fuel, rfl⟩ : ∃ k, fuel = k + 1 := ⟨fuel - 1, by simp [valueTokens] at hfuel; omega⟩
    have htag : (if true then Scalar.tagOf (if b then "true" else "false") else .str) = Tag.bool := by
      cases b <;> decide
    exact readsTo_scalar (v := .bool b) hs htag (fun g i hi hnode => ⟨hi, hnode⟩) fuel _
  | .integer n, _ =>
    obtain ⟨fuel, rfl⟩ : ∃ k, fuel = k + 1 := ⟨fuel - 1, by simp [valueTokens] at hfuel; omega⟩
    have htag := Scalar.tagOf_digits n.natAbs
    exact readsTo_scalar (v := .integer n) hs htag (fun g i hi hnode => ⟨hi, hnode⟩) fuel _
  | .text t, _ =>
    obtain ⟨fuel, rfl⟩ : ∃ k, fuel = k + 1 := ⟨fuel - 1, by simp [valueTokens] at hfuel; omega⟩
    have htag : (if Scalar.canBePlain t then Scalar.tagOf t else .str) = Tag.str := by
      split
      · next hplain => exact (Scalar.isPlain_of_canBePlain hplain).1
      · rfl
    exact readsTo_scalar (v := .text t) hs htag (fun g i hi hnode => ⟨hi, hnode⟩) fuel _
  | .list [], _ =>
    obtain ⟨fuel, rfl⟩ : ∃ k, fuel = k + 2 := ⟨fuel - 2, by simp [valueTokens] at hfuel; omega⟩
    have hself := Graph.Extends.refl 0 (s.graph.add ⟨.seq, .sequence []⟩)
    have hnode := Graph.node_collection hself (.sequence [])
    exact ⟨_, _, node_emptyList hs fuel _, Nat.le_refl _, Graph.extends_collection hself _,
      hnode.1, [], hnode.2, trivial⟩
  | .list (v :: items), hitems =>
    obtain ⟨fuel, rfl⟩ : ∃ k, fuel = k + 1 := ⟨fuel - 1, by simp [valueTokens, itemsTokens] at hfuel; omega⟩
    have hlength : valueTokens (.list (v :: items)) = itemsTokens (v :: items) := rfl
    have hpositive : 1 ≤ fuel := by
      simp [valueTokens, itemsTokens] at hfuel
      omega
    obtain ⟨numbers, g, hread, hextends, hholds⟩ := exists_readsItems (v :: items) hitems fuel hpositive
      (by rw [hlength] at hfuel; omega) hnext (s := { s with graph := s.graph.add ⟨.seq, .sequence []⟩ }) hs
    have hnode := Graph.node_collection hextends (.sequence numbers)
    refine ⟨_, _, node_list hs hread, Nat.le_refl _, Graph.extends_collection hextends _, hnode.1, numbers,
      hnode.2, ?_⟩
    exact (hholds s.graph.size (by rw [Graph.size_add]; omega)).extend (Graph.extends_setContent _ _ _)
      (Nat.le_refl _)
  | .map entries, ⟨_, _, hentries⟩ =>
    exact exists_readsMap entries hentries fuel hfuel _ (by decide) hs

theorem exists_readsMap (entries : List (Data × Data)) (h : StorableEntries entries) (fuel : Nat)
    (hfuel : 4 * (valueTokens (.map entries)).length ≤ fuel) (place : Place) (hplace : place ≠ .flow)
    {rest : List Token} {s : Reading} (hs : s.tokens = valueTokens (.map entries) ++ rest) :
    ∃ number g, ReadsTo (node fuel place s) s (.map entries) rest number g := by
  have hlength : (valueTokens (.map entries)).length = (entriesTokens entries).length + 2 := by
    simp [valueTokens]
  obtain ⟨fuel, rfl⟩ : ∃ k, fuel = k + 1 := ⟨fuel - 1, by omega⟩
  have htokens : s.tokens = .openBlock .map :: (entriesTokens entries ++ .closeBlock :: rest) := by
    rw [hs]
    simp [valueTokens]
  obtain ⟨numbers, g, hread, hextends, hholds⟩ := exists_readsEntries entries h fuel (by omega)
    (s := { s with
      tokens := entriesTokens entries ++ .closeBlock :: rest
      graph := s.graph.add ⟨.map, .sequence []⟩ }) rfl
  have hnode := Graph.node_collection hextends (.mapping numbers)
  refine ⟨_, _, node_map htokens hplace hread, Nat.le_refl _, Graph.extends_collection hextends _, hnode.1,
    numbers, hnode.2, ?_⟩
  exact (hholds s.graph.size (by rw [Graph.size_add]; omega)).extend (Graph.extends_setContent _ _ _)
    (Nat.le_refl _)

theorem exists_readsItems (items : List Data) (h : StorableItems items) (fuel : Nat)
    (hpositive : 1 ≤ fuel) (hfuel : 4 * (itemsTokens items).length ≤ fuel + 1) {next : Token}
    (hnext : next ≠ .dash) {rest : List Token} {s : Reading}
    (hs : s.tokens = itemsTokens items ++ next :: rest) :
    ∃ numbers g, flushItems fuel s = .ok (numbers, { s with tokens := next :: rest, graph := g }) ∧
      Extends 0 s.graph g ∧ ∀ i < s.graph.size, HoldsItems g i items numbers := by
  match items, h with
  | [], _ =>
    obtain ⟨fuel, rfl⟩ : ∃ k, fuel = k + 1 := ⟨fuel - 1, by omega⟩
    refine ⟨[], s.graph, ?_, Graph.Extends.refl 0 _, fun _ _ => trivial⟩
    rw [flushItems, StateT.bind_ok (accept_other hs hnext)]
    rw [← show s.tokens = next :: rest from hs]
    rfl
  | .map entries :: items, ⟨_, ⟨_, _, hentries⟩, hitems⟩ =>
    have hlength : (itemsTokens (.map entries :: items)).length =
        (valueTokens (.map entries)).length + (itemsTokens items).length + 1 := by
      simp [itemsTokens]
    obtain ⟨fuel, rfl⟩ : ∃ k, fuel = k + 2 := ⟨fuel - 2, by omega⟩
    have htokens : s.tokens =
        .dash :: (valueTokens (.map entries) ++ (itemsTokens items ++ next :: rest)) := by
      rw [hs]
      simp [itemsTokens]
    obtain ⟨number, g, hread, hsize, hextends, hholds⟩ := exists_readsMap entries hentries fuel
      (by omega) .block (by decide) (s := { s with
        tokens := valueTokens (.map entries) ++ (itemsTokens items ++ next :: rest) }) rfl
    obtain ⟨numbers, g', hothers, hextends', hholds'⟩ := exists_readsItems items hitems (fuel + 1)
      (by omega) (by omega) hnext
      (s := { s with tokens := itemsTokens items ++ next :: rest, graph := g }) rfl
    have hitem : nodeUnless (fuel + 1) .block [.dash, .key, .value, .closeBlock] { s with
        tokens := valueTokens (.map entries) ++ (itemsTokens items ++ next :: rest) } =
          .ok (number, { s with tokens := itemsTokens items ++ next :: rest, graph := g }) := by
      rw [nodeUnless_eq (rfl : _ = Token.openBlock .map :: _) (by decide), hread]
    refine ⟨number :: numbers, g', ?_, hextends.trans hextends', ?_⟩
    · rw [flushItems, StateT.bind_ok (accept_self htokens)]
      exact (StateT.bind_ok hitem).trans (StateT.bind_ok hothers)
    · intro i hi
      have hsizes : s.graph.size ≤ g.size := hextends.size_le
      exact ⟨Nat.lt_of_lt_of_le hi hsize, hholds.extend hextends' (Nat.zero_le _),
        hholds' i (Nat.lt_of_lt_of_le hi hsizes)⟩

theorem exists_readsEntries (entries : List (Data × Data)) (h : StorableEntries entries) (fuel : Nat)
    (hfuel : 4 * (entriesTokens entries).length + 1 ≤ fuel) {rest : List Token} {s : Reading}
    (hs : s.tokens = entriesTokens entries ++ .closeBlock :: rest) :
    ∃ numbers g, blockEntries fuel s = .ok (numbers, { s with tokens := rest, graph := g }) ∧
      Extends 0 s.graph g ∧ ∀ i < s.graph.size, HoldsEntries g i entries numbers := by
  match entries, h with
  | [], _ =>
    obtain ⟨fuel, rfl⟩ : ∃ k, fuel = k + 1 := ⟨fuel - 1, by omega⟩
    refine ⟨[], s.graph, ?_, Graph.Extends.refl 0 _, fun _ _ => trivial⟩
    have hexpect : expect .closeBlock s = .ok ((), { s with tokens := rest }) := by
      rw [expect, StateT.bind_ok (accept_self hs)]
      rfl
    rw [blockEntries, StateT.bind_ok (accept_other hs (by decide))]
    exact StateT.bind_ok hexpect
  | (.text k, v) :: entries, ⟨⟨_, hname, hk⟩, hv, hentries⟩ =>
    obtain rfl := Data.text.inj hname
    have hlength : (entriesTokens ((.text k, v) :: entries)).length =
        (valueTokens v).length + (entriesTokens entries).length + 3 := by
      simp [entriesTokens]
    obtain ⟨fuel, rfl⟩ : ∃ k, fuel = k + 3 := ⟨fuel - 3, by omega⟩
    obtain ⟨next, behind, hnext, hdash⟩ := exists_behind hentries rest
    have htokens : s.tokens = .key :: .scalar k true :: .value :: (valueTokens v ++ next :: behind) := by
      rw [hs, ← hnext]
      simp [entriesTokens]
    obtain ⟨number, g, hread, hsize, hextends, hholds⟩ := exists_reads v hv fuel (by omega) hdash
      (s := { s with
        tokens := valueTokens v ++ next :: behind
        graph := s.graph.add ⟨.str, .scalar k⟩ }) rfl
    obtain ⟨numbers, g', hothers, hextends', hholds'⟩ := exists_readsEntries entries hentries
      (fuel + 2) (by omega) (s := { s with tokens := next :: behind, graph := g }) hnext.symm
    have hadd : Extends 0 s.graph g := (Graph.extends_add 0 _ _).trans hextends
    have hsizes : s.graph.size + 1 ≤ g.size := by
      rw [← Graph.size_add ⟨.str, .scalar k⟩]
      exact hextends.size_le
    refine ⟨(s.graph.size, number) :: numbers, g', ?_, hadd.trans hextends', ?_⟩
    · exact blockEntries_cons htokens (Scalar.isPlain_of_canBePlain hk.canBePlain).1 hv hread hothers
    · intro i hi
      have hkeyed : s.graph.size + 1 ≤ number := by
        rw [← Graph.size_add ⟨.str, .scalar k⟩]
        exact hsize
      have hnode : g'.node s.graph.size = ⟨.str, .scalar k⟩ := by
        rw [hextends'.node_eq _ (Nat.zero_le _) hsizes, hextends.node_eq _ (Nat.zero_le _)
          (by show s.graph.size < (s.graph.add _).size; rw [Graph.size_add]; omega)]
        exact Graph.node_add_self _ _
      have hsizes' : g.size ≤ g'.size := hextends'.size_le
      refine ⟨⟨k, rfl, hi, ?_, hnode⟩, ?_, hholds.extend hextends' (Nat.zero_le _), hholds' i ?_⟩
      · show s.graph.size < g'.size
        omega
      · show i < number
        omega
      · show i < g.size
        omega

end

/-! ### Documents -/

theorem stream_eq {s s' : Reading} {token : Token} {rest : List Token} {fuel number : Nat}
    (hfirst : s.tokens = token :: rest) (htoken : endsDocument token = false)
    (hnode : node (fuel + 1) .block s = .ok (number, s')) (hend : s'.tokens = [.streamEnd]) :
    stream (fuel + 1) s = .ok (some number, s') := by
  have hroot : (do return some (← node (fuel + 1) .block) : Reader (Option Nat)) s = .ok (some number, s') :=
    StateT.bind_ok hnode
  have hstart : documentStart (fuel + 1) s' = .ok (false, s') := by
    obtain ⟨tokens, ending, handles, graph, anchors⟩ := s'
    obtain rfl : tokens = _ := hend
    rfl
  rw [stream, StateT.bind_ok (peek_eq hfirst), if_neg (by rw [htoken]; nofun), StateT.bind_ok hroot]
  exact (StateT.bind_ok (accept_other hend (by decide))).trans (StateT.bind_ok hstart)

/-- **The document of a map is composed** to a graph whose root holds the map. -/
theorem exists_ofText {entries : List (Data × Data)} (h : Storable (.map entries)) :
    ∃ text document, write (.map entries) = .ok text ∧ Allowed text ∧
      Document.ofText? text = .ok (some document) ∧ Holds document.graph (.map entries) document.root := by
  obtain ⟨text, hwrite, hallowed, htokens⟩ := exists_document h
  let tokens := valueTokens (.map entries) ++ [Token.streamEnd]
  let start : Reading := ⟨tokens, .token, standardHandles, .empty, []⟩
  have hfuel : 4 * (valueTokens (.map entries)).length ≤ 4 * tokens.length + 15 + 1 := by
    simp only [tokens, List.length_append]
    omega
  have hstart : start.tokens = valueTokens (.map entries) ++ [.streamEnd] := rfl
  obtain ⟨number, g, hread, -, -, hholds⟩ :=
    exists_readsMap entries h.2.2 _ hfuel .block (by decide) hstart
  refine ⟨text, ⟨g, number⟩, hwrite, hallowed, ?_, hholds⟩
  have hstream := stream_eq (s := start) rfl rfl hread rfl
  rw [Document.ofText?, htokens]
  show ((stream (4 * tokens.length + 15 + 1) start) >>= fun r => (.ok (r.1.map fun root => ⟨r.2.graph, root⟩) :
    Except Error (Option Document))) = _
  rw [hstream]
  rfl

end Reader

end RandomText.Yaml
