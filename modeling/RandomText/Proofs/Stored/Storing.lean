import RandomText.Proofs.Json.RoundTrip
import RandomText.Proofs.Stored.Loading
import RandomText.Stored.Edit

/-!
# Stored trees are loaded back

Dumping a tree and loading the document gives the tree back, with its places if these were asked for
(`load_dump`). The document is storable as JSON if the texts of the tree have no surrogates and its
numbers can be written, so that the tree survives in a JSON text with any indent (`load_read_write`).
-/

namespace RandomText

/-! ### Trees that can be stored -/

open Json (HasNoSurrogate Storable StorableAll StorableEntries)

def Position.Portable (position : Position) : Prop :=
  HasNoSurrogate position.origin ∧ position.index.natAbs < 10 ^ Numeral.maxDigits

def Tag.Portable (tag : Tag) : Prop :=
  tag.repeatCount < 10 ^ Numeral.maxDigits ∧ ∀ position ∈ tag.position, position.Portable

def Atom.Portable : Atom → Prop
  | literal text => HasNoSurrogate text
  | sampleSet chars _ => HasNoSurrogate chars
  | range first last _ =>
    first.natAbs < 10 ^ Numeral.maxDigits ∧ last.natAbs < 10 ^ Numeral.maxDigits
  | charRange first last _ => first.isSurrogate = false ∧ last.isSurrogate = false
  | _ => True

/-- The tag, with its position only if positions are kept. -/
def Tag.kept (withPlaces : Bool) (tag : Tag) : Tag :=
  { tag with position := if withPlaces then tag.position else none }

namespace Node

mutual

/-- No text of the tree has a surrogate, and all its numbers can be written. -/
def Portable : Node → Prop
  | leaf tag atom => tag.Portable ∧ atom.Portable
  | group tag _ children => tag.Portable ∧ PortableAll children

def PortableAll : List Node → Prop
  | [] => True
  | node :: rest => Portable node ∧ PortableAll rest

end

mutual

/-- The tree, with its positions only if they are kept. -/
def kept (withPlaces : Bool) : Node → Node
  | leaf tag atom => leaf (tag.kept withPlaces) atom
  | group tag kind children => group (tag.kept withPlaces) kind (keptAll withPlaces children)

def keptAll (withPlaces : Bool) : List Node → List Node
  | [] => []
  | node :: rest => kept withPlaces node :: keptAll withPlaces rest

end

end Node

namespace Stored

open Value

mutual

theorem stores_kept (withPlaces : Bool) (node : Node) : Stores (ofNode (node.kept withPlaces)) node := by
  match node with
  | .leaf tag atom => exact .leaf _ tag atom
  | .group tag kind children => exact .group _ tag kind _ (storesAll_kept withPlaces children)

theorem storesAll_kept (withPlaces : Bool) (nodes : List Node) :
    StoresAll (ofNodes (Node.keptAll withPlaces nodes)) nodes := by
  match nodes with
  | [] => exact .nil
  | first :: rest => exact .cons (stores_kept withPlaces first) (storesAll_kept withPlaces rest)

end

theorem position_kept (withPlaces : Bool) (tag : Tag) :
    (if withPlaces then tag.position.map Value.placeOf else none) =
      (tag.kept withPlaces).position.map Value.placeOf := by
  cases withPlaces <;> rfl

theorem places_leaf (tag : Tag) (atom : Atom) :
    (ofNode (.leaf tag atom)).places = [tag.position.map Value.placeOf] := by
  cases atom <;> rfl

theorem places_group (tag : Tag) (kind : GroupKind) (children : List Node) :
    (ofNode (.group tag kind children)).places =
      tag.position.map Value.placeOf :: placesAll (ofNodes children) := by
  have hfields : placesAll [.list (ofNodes children), .bool (kind ≠ .choice)] =
      placesAll (ofNodes children) ++ [] := rfl
  rw [ofNode, places, hfields, List.append_nil]

mutual

theorem places_kept (withPlaces : Bool) (node : Node) :
    (ofNode (node.kept withPlaces)).places =
      (ofNode node).places.map fun place => if withPlaces then place else none := by
  match node with
  | .leaf tag atom => rw [Node.kept, places_leaf, places_leaf, ← position_kept]; rfl
  | .group tag kind children =>
    rw [Node.kept, places_group, places_group, ← position_kept, placesAll_kept withPlaces children]
    rfl

theorem placesAll_kept (withPlaces : Bool) (nodes : List Node) :
    placesAll (ofNodes (Node.keptAll withPlaces nodes)) =
      (placesAll (ofNodes nodes)).map fun place => if withPlaces then place else none := by
  match nodes with
  | [] => rfl
  | first :: rest =>
    rw [Node.keptAll, ofNodes, ofNodes, placesAll, placesAll, List.map_append,
      places_kept withPlaces first, placesAll_kept withPlaces rest]

end

theorem equal_fields_ofAtom (atom : Atom) : equalAll (ofAtom atom).2 (ofAtom atom).2 = true := by
  cases atom <;> simp [ofAtom, equalAll, Value.equal]

mutual

theorem Stores.equal {v w : Value} {node : Node} (hv : Stores v node) (hw : Stores w node) :
    v.equal w = true := by
  match node, hv, hw with
  | .leaf tag atom, .leaf _ _ _, .leaf _ _ _ =>
    simp [Value.equal, equal_fields_ofAtom]
  | .group tag kind children, .group _ _ _ vs hvs, .group _ _ _ ws hws =>
    simp [Value.equal, equalAll, hvs.equalAll hws]

theorem StoresAll.equalAll {vs ws : List Value} {nodes : List Node} (hvs : StoresAll vs nodes)
    (hws : StoresAll ws nodes) : equalAll vs ws = true := by
  match nodes, hvs, hws with
  | [], .nil, .nil => rfl
  | first :: rest, .cons hv hvs, .cons hw hws =>
    rw [Value.equalAll, hv.equal hw, hvs.equalAll hws]
    rfl

end

/-! ### Documents of nodes -/

/-- The names of the fields that documents store, the repeat count aside. -/
def NodeKind.storedNames (kind : NodeKind) : List Text :=
  (kind.fields.filter fun field => field.isStored).map fun field => field.name

/-- The entries of the document of a node whose repeat count has the document `count` and whose fields
have these entries. -/
def documentEntries (withPlaces : Bool) (kind : NodeKind) (place : Option Place) (count : Data)
    (fields : List (Data × Data)) : List (Data × Data) :=
  [(typeKey, .text kind.name)] ++ placeEntry withPlaces place ++
    [(.text repeatCountName, count)] ++ fields

/-- The entries of the document of a node whose fields have these entries. -/
def nodeEntries (withPlaces : Bool) (kind : NodeKind) (place : Option Place) (count : Int)
    (fields : List (Data × Data)) : List (Data × Data) :=
  [(typeKey, .text kind.name)] ++ placeEntry withPlaces place ++
    [(.text repeatCountName, .integer count)] ++ fields

/-- The fields are those that documents store in nodes of a kind. -/
def AreFields (kind : NodeKind) (fields : List (Data × Data)) : Prop :=
  fields.map Prod.fst = kind.storedNames.map Data.text

theorem lookup_eq_none {key : Data} {entries : List (Data × Data)}
    (h : ∀ k ∈ entries.map Prod.fst, k.equal key = false) : Data.lookup key entries = none := by
  induction entries with
  | nil => rfl
  | cons entry rest ih =>
    obtain ⟨hentry, hrest⟩ := List.forall_mem_cons.mp h
    rw [Data.lookup, hentry]
    exact ih hrest

theorem placeOf?_documentEntries (withPlaces : Bool) {kind : NodeKind} (place : Option Place) (count : Data)
    {fields : List (Data × Data)} (hfields : AreFields kind fields) :
    placeOf? (documentEntries withPlaces kind place count fields) =
      .ok (if withPlaces then place else none) := by
  -- The type and the repeat count have other names, and so do the fields of every kind.
  have hnames : ∀ name ∈ kind.storedNames, name ≠ Text.ofString "_position" := by
    cases kind <;> decide
  have hnone : Data.lookup positionKey fields = none := by
    refine lookup_eq_none fun key hkey => ?_
    rw [hfields] at hkey
    obtain ⟨name, hname, rfl⟩ := List.mem_map.mp hkey
    exact decide_eq_false (hnames name hname)
  have habsent : placeOf? (documentEntries withPlaces kind none count fields) = .ok none := by
    have hlookup : Data.lookup positionKey (documentEntries withPlaces kind none count fields) = none :=
      hnone
    rw [placeOf?, hlookup]
    rfl
  cases withPlaces with
  | false => cases place <;> exact habsent
  | true =>
    cases place with
    | none => exact habsent
    | some place => rfl

theorem stores_repeatCount (kind : NodeKind) : kind.stores repeatCountName = true := by
  simp [NodeKind.stores]

theorem loadEntries_documentEntries (withPlaces : Bool) (kind : NodeKind) (place : Option Place)
    {c : Data} {count : Value} (hcount : loadValue c = .ok count) {fields : List (Data × Data)}
    {given : Given} (hgiven : loadEntries kind fields = .ok given) :
    loadEntries kind (documentEntries withPlaces kind place c fields) =
      .ok ((repeatCountName, count) :: given) := by
  have hentries := loadEntries_cons (stores_repeatCount kind) hcount hgiven
  -- Keys that start with an underscore are ignored.
  cases withPlaces with
  | false => cases place <;> exact hentries
  | true => cases place <;> exact hentries

theorem loadValue_documentEntries (withPlaces : Bool) {kind : NodeKind} (place : Option Place) {c : Data}
    {count : Value} (hcount : loadValue c = .ok count) {fields : List (Data × Data)}
    (hfields : AreFields kind fields) {given : Given} (hgiven : loadEntries kind fields = .ok given) :
    loadValue (.map (documentEntries withPlaces kind place c fields)) =
      makeNode kind (if withPlaces then place else none) ((repeatCountName, count) :: given) := by
  have htype : Data.lookup typeKey (documentEntries withPlaces kind place c fields) =
    some (.text kind.name) := rfl
  rw [loadValue, htype]
  simp only [kindOf_name, placeOf?_documentEntries withPlaces place c hfields,
    loadEntries_documentEntries withPlaces kind place hcount hgiven, Except.ok_bind]

/-- Loading these entries gives a node of a kind these values of its fields. -/
def Gives (kind : NodeKind) (count : Int) (fields : List (Data × Data)) (values : List Value) : Prop :=
  ∃ given, loadEntries kind fields = .ok given ∧
    Given.missing ((repeatCountName, .integer count) :: given) kind = [] ∧
    fieldsOf kind ((repeatCountName, .integer count) :: given) = .ok values

theorem Gives.loadValue {kind : NodeKind} {count : Int} {fields : List (Data × Data)} {values : List Value}
    (h : Gives kind count fields values) (hfields : AreFields kind fields) (hcount : 1 ≤ count)
    (withPlaces : Bool) (place : Option Place) :
    loadValue (.map (nodeEntries withPlaces kind place count fields)) =
      .ok (.node kind (if withPlaces then place else none) (.integer count) values) := by
  obtain ⟨given, hgiven, hmissing, hvalues⟩ := h
  have hcheck : checkRepeatCount (.integer count) = .ok () :=
    (checkRepeatCount_eq_ok_iff rfl).mpr hcount
  have hinteger : Stored.loadValue (.integer count) = .ok (.integer count) := rfl
  have hload := loadValue_documentEntries withPlaces place hinteger hfields hgiven
  exact hload.trans (makeNode_eq_ok_iff.mpr ⟨hmissing, hcheck, values, hvalues, rfl⟩)

theorem storableEntries_append {xs ys : List (Data × Data)} (hxs : StorableEntries xs)
    (hys : StorableEntries ys) : StorableEntries (xs ++ ys) := by
  induction xs with
  | nil => exact hys
  | cons x xs ih =>
    obtain ⟨hname, hvalue, hxs⟩ := hxs
    exact ⟨hname, hvalue, ih hxs⟩

theorem placeEntry_keys (withPlaces : Bool) (place : Option Place) :
    (placeEntry withPlaces place).map Prod.fst = [] ∨
      (placeEntry withPlaces place).map Prod.fst = [positionKey] := by
  cases withPlaces <;> cases place <;> simp [placeEntry]

theorem nodup_nodeEntries (withPlaces : Bool) {kind : NodeKind} (place : Option Place) (count : Int)
    {fields : List (Data × Data)} (hfields : AreFields kind fields) :
    ((nodeEntries withPlaces kind place count fields).map Prod.fst).Nodup := by
  have hall : ([Text.ofString "_type", Text.ofString "_position", repeatCountName] ++
      kind.storedNames).Nodup := by
    cases kind <;> decide
  have hinjective : Function.Injective Data.text := fun _ _ h => Data.text.inj h
  have hkeys := hall.map hinjective
  rw [List.map_append, ← hfields] at hkeys
  rw [nodeEntries, List.map_append, List.map_append, List.map_append]
  rcases placeEntry_keys withPlaces place with hplace | hplace
  · rw [hplace]
    exact hkeys.sublist (.cons_cons _ (.cons _ (List.Sublist.refl _)))
  · rw [hplace]
    exact hkeys

theorem storable_place {position : Position} (h : position.Portable) :
    Storable (Value.placeOf position).dump := by
  obtain ⟨horigin, hindex⟩ := h
  have hname : HasNoSurrogate "origin" := by decide
  have hname' : HasNoSurrogate "index" := by decide
  have hnames : [Text.ofString "origin", Text.ofString "index"].Nodup := by decide
  have hkeys : ([Text.ofString "origin", Text.ofString "index"].map Data.text).Nodup :=
    hnames.map fun _ _ h => Data.text.inj h
  exact ⟨hkeys, ⟨_, rfl, hname⟩, horigin, ⟨_, rfl, hname'⟩, hindex, trivial⟩

theorem storable_nodeEntries (withPlaces : Bool) {kind : NodeKind} {tag : Tag} (htag : tag.Portable)
    {fields : List (Data × Data)} (hfields : AreFields kind fields) (hstorable : StorableEntries fields) :
    Storable (.map (nodeEntries withPlaces kind (tag.position.map Value.placeOf) tag.repeatCount
      fields)) := by
  obtain ⟨hcount, hposition⟩ := htag
  have hkind : HasNoSurrogate kind.name := by cases kind <;> decide
  have hplace : StorableEntries (placeEntry withPlaces (tag.position.map Value.placeOf)) := by
    cases hcase : tag.position with
    | none => trivial
    | some position =>
      cases withPlaces with
      | false => trivial
      | true =>
        have hstored := storable_place (hposition position hcase)
        exact ⟨⟨_, rfl, by decide⟩, hstored, trivial⟩
  refine ⟨nodup_nodeEntries withPlaces _ _ hfields, ?_⟩
  refine storableEntries_append (storableEntries_append (storableEntries_append ?_ hplace) ?_) hstorable
  · exact ⟨⟨_, rfl, by decide⟩, hkind, trivial⟩
  · exact ⟨⟨_, rfl, by decide⟩, hcount, trivial⟩

/-! ### Trees -/

/-- The documents of the fields of a leaf. -/
def leafFields : Atom → List (Data × Data)
  | .literal t => [(.text "text", .text t)]
  | .alpha uppercase => [(.text "uppercase", .bool uppercase)]
  | .sampleSet chars _ => [(.text "chars", .text chars)]
  | .range first last _ => [(.text "start", .integer first), (.text "end", .integer last)]
  | .charRange first last _ => [(.text "first", .text [first]), (.text "last", .text [last])]
  | _ => []

theorem areFields_leafFields (atom : Atom) : AreFields (ofAtom atom).1 (leafFields atom) := by
  cases atom <;> rfl

theorem storable_leafFields {atom : Atom} (h : atom.Portable) : StorableEntries (leafFields atom) := by
  cases atom with
  | literal t => exact ⟨⟨_, rfl, by decide⟩, h, trivial⟩
  | alpha uppercase => exact ⟨⟨_, rfl, by decide⟩, trivial, trivial⟩
  | sampleSet chars hne => exact ⟨⟨_, rfl, by decide⟩, h, trivial⟩
  | range first last hle =>
    exact ⟨⟨_, rfl, by decide⟩, h.1, ⟨_, rfl, by decide⟩, h.2, trivial⟩
  | charRange first last hle =>
    have hfirst : HasNoSurrogate [first] := List.forall_mem_singleton.mpr h.1
    have hlast : HasNoSurrogate [last] := List.forall_mem_singleton.mpr h.2
    exact ⟨⟨_, rfl, by decide⟩, hfirst,
      ⟨_, rfl, by decide⟩, hlast, trivial⟩
  | _ => trivial

theorem dump_leaf (withPlaces : Bool) (tag : Tag) (atom : Atom) :
    (ofNode (.leaf tag atom)).dump withPlaces = .ok (.map (nodeEntries withPlaces (ofAtom atom).1
      (tag.position.map Value.placeOf) tag.repeatCount (leafFields atom))) := by
  cases atom <;> rfl

theorem gives_leafFields (atom : Atom) (count : Int) :
    Gives (ofAtom atom).1 count (leafFields atom) (ofAtom atom).2 := by
  cases atom with
  | sampleSet chars hne =>
    refine ⟨[("chars", .text chars)], rfl, rfl, ?_⟩
    obtain ⟨c, rest, rfl⟩ := List.exists_cons_of_ne_nil hne
    rfl
  | range first last hle =>
    exact ⟨[("start", .integer first), ("end", .integer last)], rfl, rfl,
      (rangeFields_eq_ok_iff rfl rfl).mpr ⟨hle, rfl⟩⟩
  | charRange first last hle =>
    exact ⟨[("first", .text [first]), ("last", .text [last])], rfl, rfl,
      charRangeFields_eq_ok_iff.mpr ⟨hle, rfl⟩⟩
  | _ => exact ⟨_, rfl, rfl, rfl⟩

theorem load_leaf (withPlaces : Bool) (tag : Tag) (atom : Atom) :
    loadValue (.map (nodeEntries withPlaces (ofAtom atom).1 (tag.position.map Value.placeOf)
      tag.repeatCount (leafFields atom))) = .ok (ofNode (.leaf (tag.kept withPlaces) atom)) := by
  have hcount : (1 : Int) ≤ tag.repeatCount := by exact_mod_cast tag.one_le
  rw [(gives_leafFields atom _).loadValue (areFields_leafFields atom) hcount, position_kept]
  rfl

/-- The documents of the fields of a group. -/
def groupFields (kind : GroupKind) (items : List Data) : List (Data × Data) :=
  match kind with
  | .root => [(.text "children", .list items)]
  | _ => [(.text "children", .list items), (.text "sequential", .bool (kind ≠ .choice))]

theorem areFields_groupFields (kind : GroupKind) (items : List Data) :
    AreFields (groupKind kind) (groupFields kind items) := by
  cases kind <;> rfl

theorem storable_groupFields (kind : GroupKind) {items : List Data} (h : StorableAll items) :
    StorableEntries (groupFields kind items) := by
  have hchildren : HasNoSurrogate "children" := by decide
  have hsequential : HasNoSurrogate "sequential" := by decide
  cases kind with
  | root => exact ⟨⟨_, rfl, hchildren⟩, h, trivial⟩
  | sequence => exact ⟨⟨_, rfl, hchildren⟩, h, ⟨_, rfl, hsequential⟩, trivial, trivial⟩
  | choice => exact ⟨⟨_, rfl, hchildren⟩, h, ⟨_, rfl, hsequential⟩, trivial, trivial⟩

theorem dump_group (withPlaces : Bool) (tag : Tag) (kind : GroupKind) {children : List Node}
    {items : List Data} (h : dumpAll withPlaces (ofNodes children) = .ok items) :
    (ofNode (.group tag kind children)).dump withPlaces = .ok (.map (nodeEntries withPlaces
      (groupKind kind) (tag.position.map Value.placeOf) tag.repeatCount (groupFields kind items))) := by
  have hlist : (Value.list (ofNodes children)).dump withPlaces = .ok (.list items) := by
    rw [Value.dump, h]
    rfl
  have hfields : dumpFields withPlaces (groupKind kind).fields
      [.list (ofNodes children), .bool (kind ≠ .choice)] = .ok (groupFields kind items) := by
    cases kind <;> simp only [groupKind, NodeKind.fields, dumpFields, hlist] <;> rfl
  rw [ofNode, Value.dump, hfields]
  rfl

theorem gives_groupFields (kind : GroupKind) (count : Int) {items : List Data} {vs : List Value}
    (h : loadItems items = .ok vs) :
    Gives (groupKind kind) count (groupFields kind items) [.list vs, .bool (kind ≠ .choice)] := by
  have hlist : loadValue (.list items) = .ok (.list vs) := by
    rw [loadValue, h]
    rfl
  have hstores : (groupKind kind).stores "children" = true := by cases kind <;> rfl
  cases kind with
  | root => exact ⟨_, loadEntries_cons hstores hlist rfl, rfl, rfl⟩
  | sequence => exact ⟨_, loadEntries_cons hstores hlist rfl, rfl, rfl⟩
  | choice => exact ⟨_, loadEntries_cons hstores hlist rfl, rfl, rfl⟩

theorem load_group (withPlaces : Bool) (tag : Tag) (kind : GroupKind) {children : List Node}
    {items : List Data} (h : loadItems items = .ok (ofNodes (Node.keptAll withPlaces children))) :
    loadValue (.map (nodeEntries withPlaces (groupKind kind) (tag.position.map Value.placeOf)
      tag.repeatCount (groupFields kind items))) =
        .ok (ofNode ((Node.group tag kind children).kept withPlaces)) := by
  have hcount : (1 : Int) ≤ tag.repeatCount := by exact_mod_cast tag.one_le
  rw [(gives_groupFields kind _ h).loadValue (areFields_groupFields kind items) hcount, position_kept]
  rfl

mutual

/-- A portable tree has a document that is storable and loads to the tree. -/
theorem load_dump (withPlaces : Bool) (node : Node) (h : node.Portable) :
    ∃ data, (ofNode node).dump withPlaces = .ok data ∧ Storable data ∧
      loadValue data = .ok (ofNode (node.kept withPlaces)) := by
  match node with
  | .leaf tag atom =>
    obtain ⟨htag, hatom⟩ := h
    have hstorable := storable_nodeEntries withPlaces htag (areFields_leafFields atom)
      (storable_leafFields hatom)
    exact ⟨_, dump_leaf withPlaces tag atom, hstorable, load_leaf withPlaces tag atom⟩
  | .group tag kind children =>
    obtain ⟨htag, hchildren⟩ := h
    -- The children keep their own places, so the documents of the group and of the children are apart.
    obtain ⟨items, hdump, hitems, hload⟩ := load_dumpAll withPlaces children hchildren
    have hstorable := storable_nodeEntries withPlaces htag (areFields_groupFields kind items)
      (storable_groupFields kind hitems)
    exact ⟨_, dump_group withPlaces tag kind hdump, hstorable, load_group withPlaces tag kind hload⟩

theorem load_dumpAll (withPlaces : Bool) (nodes : List Node) (h : Node.PortableAll nodes) :
    ∃ items, dumpAll withPlaces (ofNodes nodes) = .ok items ∧ StorableAll items ∧
      loadItems items = .ok (ofNodes (Node.keptAll withPlaces nodes)) := by
  match nodes with
  | [] => exact ⟨[], rfl, trivial, rfl⟩
  | first :: rest =>
    obtain ⟨hfirst, hrest⟩ := h
    obtain ⟨data, hdata, hstorable, hload⟩ := load_dump withPlaces first hfirst
    obtain ⟨items, hitems, hstorables, hloads⟩ := load_dumpAll withPlaces rest hrest
    refine ⟨data :: items, ?_, ⟨hstorable, hstorables⟩, ?_⟩
    · rw [ofNodes, dumpAll, hdata, hitems]
      rfl
    · rw [loadItems, hload, hloads]
      rfl

end

theorem load_of_loadValue {data : Data} {kind : NodeKind} {place : Option Place} {count : Value}
    {fields : List Value} (h : loadValue data = .ok (.node kind place count fields)) :
    load data = .ok (.node kind place count fields) := by
  cases data with
  | map entries =>
    cases htype : Data.lookup typeKey entries with
    | none =>
      rw [loadValue, htype] at h
      cases h
    | some type => rw [load_map htype, h]
  | list items =>
    obtain ⟨vs, -, h⟩ := Except.bind_eq_ok.mp h
    cases h
  | _ => cases h

theorem dumpTree_ofNode (withPlaces : Bool) (node : Node) :
    (ofNode node).dumpTree withPlaces = (ofNode node).dump withPlaces := by
  cases node <;> rfl

/-- **Stored trees are loaded back.** Without surrogates and with numbers that can be written, a tree
is dumped and written as a JSON text of ASCII characters, with any indent, and reading and loading
this text gives a tree that holds what the original one does, derived fields included. It is equal to
it and lowered alike, and its nodes have the places of the original nodes if these are kept, and else
none. -/
theorem load_read_write (node : Node) (h : node.Portable) (withPlaces : Bool) (indent : Option Int) :
    ∃ data text loaded, (ofNode node).dumpTree withPlaces = .ok data ∧
      Json.write indent data = .ok text ∧ Json.IsAscii text ∧
      Json.read text = .ok data ∧ load data = .ok loaded ∧ Stores loaded node ∧
      loaded.equal (ofNode node) = true ∧ loaded.lower = (ofNode node).lower ∧
      loaded.places = (ofNode node).places.map fun place => if withPlaces then place else none := by
  obtain ⟨data, hdump, hstorable, hload⟩ := load_dump withPlaces node h
  obtain ⟨text, hwrite, hascii, hread⟩ := Json.read_write indent hstorable
  have hloaded : load data = .ok (ofNode (node.kept withPlaces)) := by
    cases node with
    | leaf tag atom => exact load_of_loadValue hload
    | group tag kind children => exact load_of_loadValue hload
  have hstores := stores_kept withPlaces node
  refine ⟨data, text, ofNode (node.kept withPlaces), ?_, hwrite, hascii, hread, hloaded, hstores, ?_,
    ?_, ?_⟩
  · rw [dumpTree_ofNode, hdump]
  · exact hstores.equal (stores_ofNode node)
  · rw [hstores.lower_eq, (stores_ofNode node).lower_eq]
  · exact places_kept withPlaces node

/-- A root in a group, with a range below zero, characters that are escaped and an empty choice. -/
def nestedRoot : Node :=
  .group (.once (some ⟨"<pattern>", 0, []⟩)) .sequence
    [.group ⟨3, none, by decide⟩ .root
      [.leaf (.once (some ⟨"<pattern>", 7, []⟩)) (.range (-5) (-3) (by decide)),
        .leaf (.once none) (.literal "\"é\n😀")],
      .group (.once none) .choice []]

theorem load_read_write_nestedRoot :
    nestedRoot.Portable ∧ ∃ data text loaded, (ofNode nestedRoot).dumpTree true = .ok data ∧
      Json.write (some 2) data = .ok text ∧ Json.IsAscii text ∧
      Json.read text = .ok data ∧ load data = .ok loaded ∧ Stores loaded nestedRoot ∧
      loaded.equal (ofNode nestedRoot) = true ∧ loaded.lower = (ofNode nestedRoot).lower ∧
      loaded.places = (ofNode nestedRoot).places.map fun place => if true then place else none := by
  have hsmall : ∀ n : Int, n.natAbs ≤ 0x110000 → n.natAbs < 10 ^ Numeral.maxDigits :=
    fun n hn => natAbs_lt_of_lt charBound_lt hn
  have hplace : ∀ index : Int, index.natAbs ≤ 0x110000 → Position.Portable ⟨"<pattern>", index, []⟩ :=
    fun index hindex => ⟨(by decide : HasNoSurrogate "<pattern>"), hsmall index hindex⟩
  have htag : ∀ tag : Tag, tag.repeatCount ≤ 3 → (∀ position ∈ tag.position, position.Portable) →
      tag.Portable := fun tag hcount hposition => ⟨hsmall tag.repeatCount (by omega), hposition⟩
  have hrange : (Atom.range (-5) (-3) (by decide)).Portable :=
    ⟨hsmall _ (by decide), hsmall _ (by decide)⟩
  have hliteral : (Atom.literal "\"é\n😀").Portable := (by decide : HasNoSurrogate "\"é\n😀")
  have hportable : nestedRoot.Portable := by
    refine ⟨htag _ (by decide) ?_, ⟨htag _ (by decide) nofun, ⟨htag _ (by decide) ?_, hrange⟩,
      ⟨htag _ (by decide) nofun, hliteral⟩, trivial⟩, ⟨htag _ (by decide) nofun, trivial⟩, trivial⟩
    · rintro position ⟨⟩
      exact hplace 0 (by decide)
    · rintro position ⟨⟩
      exact hplace 7 (by decide)
  exact ⟨hportable, load_read_write nestedRoot hportable true (some 2)⟩

end Stored

end RandomText
