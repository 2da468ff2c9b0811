import RandomText.Proofs.Pattern.Places
import RandomText.Proofs.Stored.Storing
import RandomText.Proofs.Yaml.Unfolding

/-!
# Stored trees are loaded back from YAML

A tree whose texts survive in every style of a scalar, and whose numbers are natural and can be written, is
written as a YAML document that is read and loaded back to the tree (`load_readYaml`). All numbers of an
accepted pattern are of this kind, so only its texts count (`load_readYaml_of_read`). A text between single
quotes does not survive if it holds a next line, U+0085 (`load_readYaml_nextLine`).
-/

namespace RandomText

/-! ### Trees that survive -/

open Yaml.Layout (IsKey)

/-- The texts of an atom that documents store survive in every style. -/
def Atom.Faithful : Atom → Prop
  | literal text => Yaml.Scalar.Faithful text
  | sampleSet chars _ => Yaml.Scalar.Faithful chars
  | charRange first last _ => Yaml.Scalar.Faithful [first] ∧ Yaml.Scalar.Faithful [last]
  | _ => True

instance : DecidablePred Atom.Faithful
  | .literal text => inferInstanceAs (Decidable (Yaml.Scalar.Faithful text))
  | .sampleSet chars _ => inferInstanceAs (Decidable (Yaml.Scalar.Faithful chars))
  | .charRange _ _ _ => inferInstanceAs (Decidable (_ ∧ _))
  | .any | .alpha _ | .numeric | .symbol | .basicSymbol | .range _ _ _ => inferInstanceAs (Decidable True)

/-- What documents store of a position is read back. -/
def Position.Faithful (position : Position) : Prop :=
  Yaml.Scalar.Faithful position.origin ∧ 0 ≤ position.index ∧ position.index.natAbs < 10 ^ Numeral.maxDigits

/-- What documents store of a tag is read back; positions count only if they are kept. -/
def Tag.Faithful (withPlaces : Bool) (tag : Tag) : Prop :=
  tag.repeatCount < 10 ^ Numeral.maxDigits ∧
    (withPlaces = true → ∀ position ∈ tag.position, position.Faithful)

namespace Node

mutual

/-- What documents store of a tree is read back. -/
def Faithful (withPlaces : Bool) : Node → Prop
  | leaf tag atom => tag.Faithful withPlaces ∧ atom.Spellable ∧ atom.Faithful
  | group tag _ children => tag.Faithful withPlaces ∧ FaithfulAll withPlaces children

def FaithfulAll (withPlaces : Bool) : List Node → Prop
  | [] => True
  | node :: rest => Faithful withPlaces node ∧ FaithfulAll withPlaces rest

end

variable {withPlaces : Bool}

/-- A position that is kept is read back. -/
def KeptFaithful (withPlaces : Bool) (position : Option Position) : Prop :=
  withPlaces = true → ∀ p ∈ position, p.Faithful

mutual

theorem faithful_of_nested (node : Node) (hnested : node.Nested) (hatoms : node.EveryAtom Atom.Faithful)
    (hpositions : node.EveryPosition (KeptFaithful withPlaces)) : node.Faithful withPlaces := by
  match node with
  | leaf tag atom =>
    obtain ⟨hcount, hspellable⟩ := hnested
    exact ⟨⟨hcount, hpositions⟩, hspellable, hatoms⟩
  | group tag kind children =>
    obtain ⟨hcount, -, -, hchildren⟩ := hnested
    obtain ⟨hposition, hpositions⟩ := hpositions
    exact ⟨⟨hcount, hposition⟩, faithfulAll_of_nested children hchildren hatoms hpositions⟩

theorem faithfulAll_of_nested (nodes : List Node) (hnested : NestedAll nodes)
    (hatoms : EveryAtomAll Atom.Faithful nodes)
    (hpositions : EveryPositionAll (KeptFaithful withPlaces) nodes) : FaithfulAll withPlaces nodes := by
  match nodes with
  | [] => trivial
  | first :: rest =>
    exact ⟨faithful_of_nested first hnested.1 hatoms.1 hpositions.1,
      faithfulAll_of_nested rest hnested.2 hatoms.2 hpositions.2⟩

end

end Node

namespace Yaml

instance (k : Text) : Decidable (IsKey k) :=
  decidable_of_iff (Scalar.canBePlain k = true ∧ k.head? ≠ some (CodePoint.ofChar '-') ∧
    k.head? ≠ some (CodePoint.ofChar '.') ∧ k.length ≤ 1024)
    ⟨fun ⟨hplain, hdash, hdot, hshort⟩ => ⟨hplain, hdash, hdot, hshort⟩,
      fun h => ⟨h.canBePlain, h.ne_dash, h.ne_dot, h.short⟩⟩

theorem storableEntries_append {xs ys : List (Data × Data)} (hxs : StorableEntries xs)
    (hys : StorableEntries ys) : StorableEntries (xs ++ ys) := by
  induction xs with
  | nil => exact hys
  | cons x xs ih =>
    obtain ⟨hname, hvalue, hxs⟩ := hxs
    exact ⟨hname, hvalue, ih hxs⟩

end Yaml

namespace Stored

open Value
open Yaml (Storable StorableItems StorableEntries)

/-! ### Documents of nodes -/

theorem yamlStorable_place {position : Position} (h : position.Faithful) :
    Storable (Value.placeOf position).dump := by
  obtain ⟨horigin, hpositive, hindex⟩ := h
  have hnames : [Text.ofString "origin", Text.ofString "index"].Nodup := by decide
  have hkeys : ([Text.ofString "origin", Text.ofString "index"].map Data.text).Nodup :=
    hnames.map fun _ _ h => Data.text.inj h
  exact ⟨nofun, hkeys, ⟨_, rfl, by decide⟩, horigin, ⟨_, rfl, by decide⟩, ⟨hpositive, hindex⟩, trivial⟩

theorem yamlStorable_nodeEntries (withPlaces : Bool) {kind : NodeKind} {tag : Tag}
    (htag : tag.Faithful withPlaces) {fields : List (Data × Data)} (hfields : AreFields kind fields)
    (hstorable : StorableEntries fields) :
    Storable (.map (nodeEntries withPlaces kind (tag.position.map Value.placeOf) tag.repeatCount
      fields)) := by
  obtain ⟨hcount, hposition⟩ := htag
  have hkind : Yaml.Scalar.Faithful kind.name := by cases kind <;> decide
  have hplace : StorableEntries (placeEntry withPlaces (tag.position.map Value.placeOf)) := by
    cases hcase : tag.position with
    | none => trivial
    | some position =>
      cases withPlaces with
      | false => trivial
      | true =>
        have hstored := yamlStorable_place (hposition rfl position hcase)
        exact ⟨⟨_, rfl, by decide⟩, hstored, trivial⟩
  refine ⟨nofun, nodup_nodeEntries withPlaces _ _ hfields, ?_⟩
  refine Yaml.storableEntries_append
    (Yaml.storableEntries_append (Yaml.storableEntries_append ?_ hplace) ?_) hstorable
  · exact ⟨⟨_, rfl, by decide⟩, hkind, trivial⟩
  · exact ⟨⟨_, rfl, by decide⟩, ⟨Int.natCast_nonneg _, hcount⟩, trivial⟩

theorem yamlStorable_leafFields {atom : Atom} (hspellable : atom.Spellable) (hfaithful : atom.Faithful) :
    StorableEntries (leafFields atom) := by
  cases atom with
  | literal t => exact ⟨⟨_, rfl, by decide⟩, hfaithful, trivial⟩
  | alpha uppercase => exact ⟨⟨_, rfl, by decide⟩, trivial, trivial⟩
  | sampleSet chars hne => exact ⟨⟨_, rfl, by decide⟩, hfaithful, trivial⟩
  | range first last hle =>
    obtain ⟨hpositive, hlast⟩ := hspellable
    have hfirst : first.natAbs < 10 ^ Numeral.maxDigits := by omega
    have hlast : last.natAbs < 10 ^ Numeral.maxDigits := by omega
    exact ⟨⟨_, rfl, by decide⟩, ⟨hpositive, hfirst⟩, ⟨_, rfl, by decide⟩, ⟨by omega, hlast⟩, trivial⟩
  | charRange first last hle =>
    exact ⟨⟨_, rfl, by decide⟩, hfaithful.1, ⟨_, rfl, by decide⟩, hfaithful.2, trivial⟩
  | _ => trivial

theorem yamlStorable_groupFields (kind : GroupKind) {items : List Data} (h : StorableItems items) :
    StorableEntries (groupFields kind items) := by
  have hchildren : IsKey "children" := by decide
  have hsequential : IsKey "sequential" := by decide
  cases kind with
  | root => exact ⟨⟨_, rfl, hchildren⟩, h, trivial⟩
  | sequence => exact ⟨⟨_, rfl, hchildren⟩, h, ⟨_, rfl, hsequential⟩, trivial, trivial⟩
  | choice => exact ⟨⟨_, rfl, hchildren⟩, h, ⟨_, rfl, hsequential⟩, trivial, trivial⟩

mutual

/-- A faithful tree has a document that is read back from YAML, and loads to the tree. -/
theorem load_dump_yaml (withPlaces : Bool) (node : Node) (h : node.Faithful withPlaces) :
    ∃ entries, (ofNode node).dump withPlaces = .ok (.map entries) ∧ Storable (.map entries) ∧
      loadValue (.map entries) = .ok (ofNode (node.kept withPlaces)) := by
  match node with
  | .leaf tag atom =>
    obtain ⟨htag, hspellable, hfaithful⟩ := h
    have hstorable := yamlStorable_nodeEntries withPlaces htag (areFields_leafFields atom)
      (yamlStorable_leafFields hspellable hfaithful)
    exact ⟨_, dump_leaf withPlaces tag atom, hstorable, load_leaf withPlaces tag atom⟩
  | .group tag kind children =>
    obtain ⟨htag, hchildren⟩ := h
    obtain ⟨items, hdump, hitems, hload⟩ := load_dumpAll_yaml withPlaces children hchildren
    have hstorable := yamlStorable_nodeEntries withPlaces htag (areFields_groupFields kind items)
      (yamlStorable_groupFields kind hitems)
    exact ⟨_, dump_group withPlaces tag kind hdump, hstorable, load_group withPlaces tag kind hload⟩

theorem load_dumpAll_yaml (withPlaces : Bool) (nodes : List Node) (h : Node.FaithfulAll withPlaces nodes) :
    ∃ items, dumpAll withPlaces (ofNodes nodes) = .ok items ∧ StorableItems items ∧
      loadItems items = .ok (ofNodes (Node.keptAll withPlaces nodes)) := by
  match nodes with
  | [] => exact ⟨[], rfl, trivial, rfl⟩
  | first :: rest =>
    obtain ⟨hfirst, hrest⟩ := h
    obtain ⟨entries, hdata, hstorable, hload⟩ := load_dump_yaml withPlaces first hfirst
    obtain ⟨items, hitems, hstorables, hloads⟩ := load_dumpAll_yaml withPlaces rest hrest
    refine ⟨.map entries :: items, ?_, ⟨⟨entries, rfl⟩, hstorable, hstorables⟩, ?_⟩
    · rw [ofNodes, dumpAll, hdata, hitems]
      rfl
    · rw [loadItems, hload, hloads]
      rfl

end

/-! ### Round trips -/

/-- **Stored trees are loaded back from YAML.** A faithful tree is dumped and written as a YAML text, and
reading and loading this text gives a tree that is equal to it and lowered alike, with the places of the
original nodes if these are kept, and else none. -/
theorem load_readYaml {node : Node} {withPlaces : Bool} (h : node.Faithful withPlaces) :
    ∃ data text loaded, (ofNode node).dumpTree withPlaces = .ok data ∧ Yaml.write data = .ok text ∧
      Yaml.read text = .ok data ∧ load data = .ok loaded ∧ Stores loaded node ∧
      loaded.equal (ofNode node) = true ∧ loaded.lower = (ofNode node).lower ∧
      loaded.places = (ofNode node).places.map fun place => if withPlaces then place else none := by
  obtain ⟨entries, hdump, hstorable, hload⟩ := load_dump_yaml withPlaces node h
  obtain ⟨text, hwrite, hread⟩ := Yaml.read_write hstorable
  have hloaded : load (.map entries) = .ok (ofNode (node.kept withPlaces)) := by
    cases node with
    | leaf tag atom => exact load_of_loadValue hload
    | group tag kind children => exact load_of_loadValue hload
  have hstores := stores_kept withPlaces node
  refine ⟨.map entries, text, ofNode (node.kept withPlaces), ?_, hwrite, hread, hloaded, hstores, ?_, ?_, ?_⟩
  · rw [dumpTree_ofNode, hdump]
  · exact hstores.equal (stores_ofNode node)
  · rw [hstores.lower_eq, (stores_ofNode node).lower_eq]
  · exact places_kept withPlaces node

theorem faithful_of_read {settings : Pattern.Settings} {pattern : Text} {root : Node}
    (hread : Pattern.read settings pattern = .ok root) (hatoms : root.EveryAtom Atom.Faithful)
    {withPlaces : Bool} (hplaces : withPlaces = true →
      Yaml.Scalar.Faithful settings.origin ∧ pattern.length < 10 ^ Numeral.maxDigits) :
    root.Faithful withPlaces := by
  have hkept : ∀ position, settings.Placed pattern position → Node.KeptFaithful withPlaces position := by
    rintro _ ⟨index, hindex, rfl⟩ hwithPlaces p ⟨⟩
    obtain ⟨horigin, hlength⟩ := hplaces hwithPlaces
    have hlt : index < 10 ^ Numeral.maxDigits := Nat.lt_of_le_of_lt hindex hlength
    exact ⟨horigin, Int.natCast_nonneg index, hlt⟩
  have hpositions := (Pattern.placed_of_read hread).mono hkept
  match root, Pattern.wellFormed_of_read hread with
  | .group tag .root children, ⟨hcount, hnested, _⟩ =>
    obtain ⟨hposition, hpositions⟩ := hpositions
    refine ⟨⟨?_, hposition⟩, Node.faithfulAll_of_nested children hnested hatoms hpositions⟩
    rw [hcount]
    exact Pattern.one_lt_limit

/-- **Accepted patterns are loaded back from YAML**, whatever their texts are, unless one of them that is
written between single quotes holds a next line. -/
theorem load_readYaml_of_read {settings : Pattern.Settings} {pattern : Text} {root : Node}
    (hread : Pattern.read settings pattern = .ok root) (hatoms : root.EveryAtom Atom.Faithful)
    (withPlaces : Bool) (hplaces : withPlaces = true →
      Yaml.Scalar.Faithful settings.origin ∧ pattern.length < 10 ^ Numeral.maxDigits) :
    ∃ data text loaded, (ofNode root).dumpTree withPlaces = .ok data ∧ Yaml.write data = .ok text ∧
      Yaml.read text = .ok data ∧ load data = .ok loaded ∧ Stores loaded root ∧
      loaded.equal (ofNode root) = true ∧ loaded.lower = (ofNode root).lower ∧
      loaded.places = (ofNode root).places.map fun place => if withPlaces then place else none :=
  load_readYaml (faithful_of_read hread hatoms hplaces)

/-- A word for nothing, and a next line beside a bell, which asks for double quotes. -/
theorem load_readYaml_of_read_words :
    ∃ root data text loaded, Pattern.read {} "(\"null\"<3>\"\u0085\u0007\":1-5;)" = .ok root ∧
      root.EveryAtom Atom.Faithful ∧ (ofNode root).dumpTree true = .ok data ∧ Yaml.write data = .ok text ∧
      Yaml.read text = .ok data ∧ load data = .ok loaded ∧ Stores loaded root ∧
      loaded.equal (ofNode root) = true ∧ loaded.lower = (ofNode root).lower ∧
      loaded.places = (ofNode root).places.map fun place => if true then place else none := by
  have hatoms : (Pattern.read {} "(\"null\"<3>\"\u0085\u0007\":1-5;)").toOption.map
      (fun root => decide (root.EveryAtom Atom.Faithful)) = some true := by
    decide +kernel
  cases hread : Pattern.read {} "(\"null\"<3>\"\u0085\u0007\":1-5;)" with
  | error error =>
    rw [hread] at hatoms
    cases hatoms
  | ok root =>
    rw [hread] at hatoms
    have hatoms : root.EveryAtom Atom.Faithful := of_decide_eq_true (Option.some.inj hatoms)
    have hlength : (Text.ofString "(\"null\"<3>\"\u0085\u0007\":1-5;)").length < 10 ^ Numeral.maxDigits :=
      Nat.lt_trans (by decide) charBound_lt
    obtain ⟨data, text, loaded, h⟩ :=
      load_readYaml_of_read hread hatoms true fun _ => ⟨by decide, hlength⟩
    exact ⟨root, data, text, loaded, rfl, hatoms, h⟩

/-- **A next line does not survive** between single quotes: it comes back as a space. -/
theorem load_readYaml_nextLine :
    ∃ root data text data' loaded, Pattern.read {} "\"\u0085\"" = .ok root ∧
      (ofNode root).dumpTree true = .ok data ∧ Yaml.write data = .ok text ∧
      Yaml.read text = .ok data' ∧ load data' = .ok loaded ∧ loaded.equal (ofNode root) = false ∧
      (ofNode root).lower = .ok "join([\"\u0085\"])" ∧ loaded.lower = .ok "join([\" \"])" := by
  have hrun : (do
      let root ← (Pattern.read {} "\"\u0085\"").toOption
      let data ← ((ofNode root).dumpTree true).toOption
      let text ← (Yaml.write data).toOption
      let data' ← (Yaml.read text).toOption
      let loaded ← (load data').toOption
      return (loaded.equal (ofNode root), (ofNode root).lower, loaded.lower) : Option _) =
        some (false, .ok "join([\"\u0085\"])", .ok "join([\" \"])") := by
    decide +kernel
  obtain ⟨root, hroot, hrun⟩ := Option.bind_eq_some_iff.mp hrun
  obtain ⟨data, hdata, hrun⟩ := Option.bind_eq_some_iff.mp hrun
  obtain ⟨text, htext, hrun⟩ := Option.bind_eq_some_iff.mp hrun
  obtain ⟨data', hdata', hrun⟩ := Option.bind_eq_some_iff.mp hrun
  obtain ⟨loaded, hloaded, hrun⟩ := Option.bind_eq_some_iff.mp hrun
  obtain ⟨hequal, hlower⟩ := Prod.mk.inj (Option.some.inj hrun)
  obtain ⟨hlower, hlower'⟩ := Prod.mk.inj hlower
  exact ⟨root, data, text, data', loaded, Except.toOption_eq_some.mp hroot, Except.toOption_eq_some.mp hdata,
    Except.toOption_eq_some.mp htext, Except.toOption_eq_some.mp hdata', Except.toOption_eq_some.mp hloaded,
    hequal, hlower, hlower'⟩

end Stored

end RandomText
