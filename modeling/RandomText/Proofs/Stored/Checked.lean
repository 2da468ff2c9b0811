import Mathlib.Logic.Relation
import RandomText.Proofs.Stored.Loading

/-!
# What loading guarantees

Fields are not checked for their types, and yet every node that is loaded holds what its kind needs
(`Checked`), wherever it stands, also in fields where no node is meant to be (`sound_of_loadValue`).
It comes from the operations that making a node performs: a value of a wrong type does not have them.
Entries that name no stored field have no influence on what is loaded (`Retouched.load_eq`).
-/

namespace RandomText.Stored

open Value

/-! ### Checked nodes -/

/-- The fields of a node hold what its kind needs, derived fields included. -/
def FieldsChecked : NodeKind → List Value → Prop
  | .sampleSet, fields => ∃ chars, fields = [chars] ∧ chars.isTrue = true
  | .range, fields => ∃ first last m n, fields = [first, last, .integer (n + 1)] ∧
      first.toInteger? = some m ∧ last.toInteger? = some n ∧ m ≤ n
  | .charRange, fields => ∃ c d : CodePoint,
      fields = [.text [c], .text [d], .integer c.val, .integer (d.val + 1)] ∧
        (c.val : Int) < d.val + 1
  | .root, fields => ∃ children, fields = [children, .bool true]
  | kind, fields => fields.length = kind.fields.length

/-- What loading guarantees of a node: its repeat count is a number from one on, and its fields hold
what its kind needs. -/
def Checked (kind : NodeKind) (count : Value) (fields : List Value) : Prop :=
  (∃ n, count.toInteger? = some n ∧ 1 ≤ n) ∧ FieldsChecked kind fields

namespace Value

mutual

/-- Every node in the value is checked, in whichever field it stands, and nothing in the value is of a
type that cannot be loaded. -/
def Sound : Value → Prop
  | float _ | raw _ => False
  | list items => SoundAll items
  | node kind _ repeatCount fields =>
    Checked kind repeatCount fields ∧ Sound repeatCount ∧ SoundAll fields
  | _ => True

def SoundAll : List Value → Prop
  | [] => True
  | v :: rest => Sound v ∧ SoundAll rest

end

theorem sound_of_toInteger? {v : Value} {n : Int} (h : v.toInteger? = some n) : v.Sound := by
  cases v with
  | bool | integer => trivial
  | null | float | text | list | raw | node => cases h

theorem numbers_of_before {u v : Value} (hu : u.Sound) (hv : v.Sound)
    (hnumber : u.toInteger?.isSome = true ∨ v.toInteger?.isSome = true) {comparison : Comparison}
    {b : Bool} (h : before comparison u v = .ok b) :
    ∃ m n, u.toInteger? = some m ∧ v.toInteger? = some n := by
  cases u <;> cases v <;> simp_all [before, toInteger?, Sound]

end Value

/-! ### Made nodes -/

theorem one_le_of_checkRepeatCount {count : Value} (hcount : count.Sound)
    (h : checkRepeatCount count = .ok ()) : ∃ n, count.toInteger? = some n ∧ 1 ≤ n := by
  obtain ⟨b, hb, -⟩ := Except.bind_eq_ok.mp h
  have hone : (Value.integer 1).Sound := trivial
  obtain ⟨n, -, hn, -⟩ := numbers_of_before hcount hone (.inr rfl) hb
  exact ⟨n, hn, (checkRepeatCount_eq_ok_iff hn).mp h⟩

/-- The bounds of a range are numbers: the last one because it has a successor, the first one because
it is compared with the last one. -/
theorem checked_of_rangeFields {first last : Value} (hfirst : first.Sound) (hlast : last.Sound)
    {fields : List Value} (h : rangeFields first last = .ok fields) : FieldsChecked .range fields := by
  obtain ⟨b, hb, hsuccessor⟩ := Except.bind_eq_ok.mp h
  cases b with
  | true => exact absurd hsuccessor throw_message_ne_ok
  | false =>
    obtain ⟨stop, hstop, -⟩ := Except.bind_eq_ok.mp hsuccessor
    have hnumber : last.toInteger?.isSome = true := by
      cases hnone : last.toInteger? with
      | some n => rfl
      | none =>
        rw [successor, hnone] at hstop
        cases hstop
    obtain ⟨n, m, hn, hm⟩ := numbers_of_before hlast hfirst (.inl hnumber) hb
    obtain ⟨hle, rfl⟩ := (rangeFields_eq_ok_iff hm hn).mp h
    exact ⟨first, last, m, n, rfl, hm, hn, hle⟩

theorem eq_text_of_code {v : Value} {n : Int} (h : v.code = .ok n) :
    ∃ c : CodePoint, v = .text [c] ∧ n = c.val := by
  unfold code at h
  split at h
  · next c => exact ⟨c, rfl, (Except.ok.inj h).symm⟩
  · cases h

theorem checked_of_charRangeFields {first last : Value} {fields : List Value}
    (h : charRangeFields first last = .ok fields) : FieldsChecked .charRange fields := by
  obtain ⟨⟨⟩, -, hcodes⟩ := Except.bind_eq_ok.mp h
  obtain ⟨start, hstart, hcodes⟩ := Except.bind_eq_ok.mp hcodes
  obtain ⟨stop, hstop, -⟩ := Except.bind_eq_ok.mp hcodes
  obtain ⟨c, rfl, -⟩ := eq_text_of_code hstart
  obtain ⟨d, rfl, -⟩ := eq_text_of_code hstop
  obtain ⟨hle, rfl⟩ := charRangeFields_eq_ok_iff.mp h
  exact ⟨c, d, rfl, by omega⟩

/-- Every given value is sound. -/
def Given.Sound (given : Given) : Prop := ∀ name v, (name, v) ∈ given → v.Sound

theorem Given.Sound.get {given : Given} (h : given.Sound) (name : Text) {absent : Value}
    (habsent : absent.Sound) : (given.get name absent).Sound := by
  rw [Given.get, Given.get?]
  cases hfind : given.find? (·.1 = name) with
  | none => exact habsent
  | some entry => exact h entry.1 entry.2 (List.mem_of_find?_eq_some hfind)

theorem checked_of_fieldsOf {kind : NodeKind} {given : Given} (hgiven : given.Sound)
    {fields : List Value} (h : fieldsOf kind given = .ok fields) :
    FieldsChecked kind fields ∧ SoundAll fields := by
  have hnull : ∀ name, (given.get name .null).Sound := fun name => hgiven.get name trivial
  cases kind with
  | literal =>
    obtain rfl := Except.ok.inj h
    exact ⟨rfl, hnull _, trivial⟩
  | alpha =>
    obtain rfl := Except.ok.inj h
    exact ⟨rfl, hgiven.get _ trivial, trivial⟩
  | any | numeric | symbol | basicSymbol =>
    obtain rfl := Except.ok.inj h
    exact ⟨rfl, trivial⟩
  | sampleSet =>
    simp only [fieldsOf] at h
    split at h
    · next htrue =>
      obtain rfl := Except.ok.inj h
      exact ⟨⟨_, rfl, htrue⟩, hnull _, trivial⟩
    · cases h
  | range =>
    obtain ⟨first, last, m, n, rfl, hm, hn, hle⟩ := checked_of_rangeFields (hnull _) (hnull _) h
    exact ⟨⟨first, last, m, n, rfl, hm, hn, hle⟩, sound_of_toInteger? hm, sound_of_toInteger? hn, trivial,
      trivial⟩
  | charRange =>
    obtain ⟨c, d, rfl, hlt⟩ := checked_of_charRangeFields h
    exact ⟨⟨c, d, rfl, hlt⟩, trivial, trivial, trivial, trivial, trivial⟩
  | group =>
    obtain rfl := Except.ok.inj h
    exact ⟨rfl, hgiven.get _ trivial, hgiven.get _ trivial, trivial⟩
  | root =>
    obtain rfl := Except.ok.inj h
    exact ⟨⟨_, rfl⟩, hgiven.get _ trivial, trivial, trivial⟩

theorem sound_of_makeNode {kind : NodeKind} {place : Option Place} {given : Given}
    (hgiven : given.Sound) {v : Value} (h : makeNode kind place given = .ok v) : v.Sound := by
  obtain ⟨-, hcheck, fields, hfields, rfl⟩ := makeNode_eq_ok_iff.mp h
  have hcount : (given.get repeatCountName (.integer 1)).Sound := hgiven.get _ trivial
  obtain ⟨hchecked, hsound⟩ := checked_of_fieldsOf hgiven hfields
  exact ⟨⟨one_le_of_checkRepeatCount hcount hcheck, hchecked⟩, hcount, hsound⟩

/-! ### Loaded values -/

theorem exists_makeNode_of_loadValue {entries : List (Data × Data)} {v : Value}
    (h : loadValue (.map entries) = .ok v) :
    ∃ kind place given, loadEntries kind entries = .ok given ∧ makeNode kind place given = .ok v := by
  rw [loadValue] at h
  split at h
  · obtain ⟨kind, -, h⟩ := Except.bind_eq_ok.mp h
    obtain ⟨place, -, h⟩ := Except.bind_eq_ok.mp h
    obtain ⟨given, hgiven, h⟩ := Except.bind_eq_ok.mp h
    exact ⟨kind, place, given, hgiven, h⟩
  · cases h

mutual

theorem sound_of_loadValue (d : Data) {v : Value} (h : loadValue d = .ok v) : v.Sound := by
  match d with
  | .null | .bool _ | .integer _ | .text _ =>
    obtain rfl := Except.ok.inj h
    trivial
  | .list items =>
    obtain ⟨vs, hvs, h⟩ := Except.bind_eq_ok.mp h
    obtain rfl := Except.ok.inj h
    exact soundAll_of_loadItems items hvs
  | .map entries =>
    obtain ⟨kind, place, given, hgiven, hmake⟩ := exists_makeNode_of_loadValue h
    exact sound_of_makeNode (sound_of_loadEntries kind entries hgiven) hmake
  | .float _ | .bytes _ | .date _ | .moment _ | .set _ | .pair _ _ | .cycle _ => cases h

theorem soundAll_of_loadItems (ds : List Data) {vs : List Value} (h : loadItems ds = .ok vs) :
    SoundAll vs := by
  match ds with
  | [] =>
    obtain rfl := Except.ok.inj h
    trivial
  | d :: rest =>
    obtain ⟨v, hv, h⟩ := Except.bind_eq_ok.mp h
    obtain ⟨others, hothers, h⟩ := Except.bind_eq_ok.mp h
    obtain rfl := Except.ok.inj h
    exact ⟨sound_of_loadValue d hv, soundAll_of_loadItems rest hothers⟩

theorem sound_of_loadEntries (kind : NodeKind) (entries : List (Data × Data)) {given : Given}
    (h : loadEntries kind entries = .ok given) : given.Sound := by
  match entries with
  | [] =>
    obtain rfl := Except.ok.inj h
    exact fun _ _ hmem => nomatch hmem
  | (key, d) :: rest =>
    obtain ⟨name?, -, h⟩ := Except.bind_eq_ok.mp h
    cases name? with
    | none => exact sound_of_loadEntries kind rest h
    | some name =>
      by_cases hstores : kind.stores name = true
      · simp only [hstores, if_true] at h
        obtain ⟨v, hv, h⟩ := Except.bind_eq_ok.mp h
        obtain ⟨others, hothers, h⟩ := Except.bind_eq_ok.mp h
        obtain rfl := Except.ok.inj h
        intro name' w hmem
        rcases List.mem_cons.mp hmem with heq | hmem
        · cases heq
          exact sound_of_loadValue d hv
        · exact sound_of_loadEntries kind rest hothers name' w hmem
      · simp only [hstores] at h
        exact sound_of_loadEntries kind rest h

end

theorem loadValue_of_load {d : Data} {v : Value} (h : load d = .ok v) :
    loadValue d = .ok v ∧ (v = .null ∨ ∃ kind place count fields, v = .node kind place count fields) := by
  cases d with
  | null => exact ⟨h, .inl (Except.ok.inj h).symm⟩
  | map entries =>
    cases htype : Data.lookup typeKey entries with
    | none =>
      have hnode : hasNodeType (.map entries) = .ok false := by rw [hasNodeType, htype]; rfl
      simp only [load, hnode] at h
      cases h
    | some type =>
      rw [load_map htype] at h
      obtain ⟨kind, place, given, -, hmake⟩ := exists_makeNode_of_loadValue h
      obtain ⟨-, -, fields, -, hnode⟩ := makeNode_eq_ok_iff.mp hmake
      exact ⟨h, .inr ⟨kind, place, _, fields, hnode⟩⟩
  | bool | integer | float | text | list | bytes | date | moment | set | pair | cycle =>
    obtain ⟨b, -, h⟩ := Except.bind_eq_ok.mp h
    cases b with
    | false => cases h
    | true =>
      obtain ⟨_, -, h⟩ := Except.bind_eq_ok.mp h
      cases h

/-! ### Entries without influence -/

/-- Entries with this name have no influence on a node of the kind: they give neither its type nor its
place nor one of its stored fields. -/
def NodeKind.Ignores (kind : NodeKind) (name : Text) : Prop :=
  name ≠ Text.ofString "_type" ∧ name ≠ Text.ofString "_position" ∧ kind.stores name = false

theorem ignores_of_derived {kind : NodeKind} {field : Field} (hfield : field ∈ kind.fields)
    (hstored : field.isStored = false) : kind.Ignores field.name := by
  have hall : ∀ field ∈ kind.fields, field.isStored = false →
      field.name ≠ Text.ofString "_type" ∧ field.name ≠ Text.ofString "_position" ∧
        kind.stores field.name = false := by
    cases kind <;> decide
  exact hall field hfield hstored

theorem ignores_of_underscore (kind : NodeKind) {name : Text}
    (h : name.head? = some (CodePoint.ofChar '_')) (hnotType : name ≠ Text.ofString "_type")
    (hnotPosition : name ≠ Text.ofString "_position") : kind.Ignores name :=
  ⟨hnotType, hnotPosition, Bool.eq_false_iff.mpr fun hstores => head?_ne_of_stores hstores h⟩

/-- In one node, in the document itself or anywhere in its stored fields, an entry without influence is
removed or has another value. -/
inductive Retouched : Data → Data → Prop where
  | removed {kind : NodeKind} {before after : List (Data × Data)} {name : Text} (d : Data) :
      Data.lookup typeKey (before ++ after) = some (.text kind.name) → kind.Ignores name →
      Retouched (.map (before ++ (.text name, d) :: after)) (.map (before ++ after))
  | replaced {kind : NodeKind} {before after : List (Data × Data)} {name : Text} (d d' : Data) :
      Data.lookup typeKey (before ++ after) = some (.text kind.name) → kind.Ignores name →
      Retouched (.map (before ++ (.text name, d) :: after)) (.map (before ++ (.text name, d') :: after))
  | field {kind : NodeKind} {before after : List (Data × Data)} {name : Text} {d d' : Data} :
      Data.lookup typeKey (before ++ after) = some (.text kind.name) → kind.stores name = true →
      Retouched d d' →
      Retouched (.map (before ++ (.text name, d) :: after)) (.map (before ++ (.text name, d') :: after))
  | item {before after : List Data} {d d' : Data} : Retouched d d' →
      Retouched (.list (before ++ d :: after)) (.list (before ++ d' :: after))

theorem lookup_text_of_ne {name key : Text} (h : name ≠ key) (before after : List (Data × Data))
    (d : Data) :
    Data.lookup (.text key) (before ++ (.text name, d) :: after) =
      Data.lookup (.text key) (before ++ after) := by
  induction before with
  | nil =>
    have hkey : (Data.text name).equal (.text key) = false := decide_eq_false h
    rw [List.nil_append, Data.lookup, hkey]
    rfl
  | cons entry before ih => simp only [List.cons_append, Data.lookup, ih]

theorem loadEntries_append (kind : NodeKind) (before after : List (Data × Data)) :
    loadEntries kind (before ++ after) = (do
      let xs ← loadEntries kind before
      let ys ← loadEntries kind after
      return xs ++ ys) := by
  induction before with
  | nil =>
    simp only [List.nil_append, loadEntries, pure_bind, bind_pure]
  | cons entry before ih =>
    obtain ⟨key, d⟩ := entry
    simp only [List.cons_append, loadEntries, bind_assoc]
    refine bind_congr fun name? => ?_
    cases name? with
    | none => exact ih
    | some name =>
      by_cases hstores : kind.stores name = true
      · simp only [hstores, if_true, ih, bind_assoc, pure_bind]
        rfl
      · simp only [hstores]
        exact ih

theorem loadItems_congr {d d' : Data} (h : loadValue d' = loadValue d) (before after : List Data) :
    loadItems (before ++ d' :: after) = loadItems (before ++ d :: after) := by
  induction before with
  | nil => simp only [List.nil_append, loadItems, h]
  | cons item before ih => simp only [List.cons_append, loadItems, ih]

theorem loadValue_map_congr {kind : NodeKind} {entries entries' : List (Data × Data)}
    (htype : Data.lookup typeKey entries = some (.text kind.name))
    (htype' : Data.lookup typeKey entries' = some (.text kind.name))
    (hplace : Data.lookup positionKey entries' = Data.lookup positionKey entries)
    (hentries : loadEntries kind entries' = loadEntries kind entries) :
    loadValue (.map entries') = loadValue (.map entries) := by
  have hplace? : placeOf? entries' = placeOf? entries := by rw [placeOf?, placeOf?, hplace]
  simp only [loadValue, htype, htype', kindOf_name, Except.ok_bind, hplace?, hentries]

theorem loadValue_of_ignored {kind : NodeKind} {before after : List (Data × Data)} {name : Text}
    (d : Data) (htype : Data.lookup typeKey (before ++ after) = some (.text kind.name))
    (h : kind.Ignores name) :
    loadValue (.map (before ++ (.text name, d) :: after)) = loadValue (.map (before ++ after)) := by
  obtain ⟨hnotType, hnotPosition, hstores⟩ := h
  refine loadValue_map_congr htype ((lookup_text_of_ne hnotType before after d).trans htype)
    (lookup_text_of_ne hnotPosition before after d) ?_
  have hskipped : loadEntries kind ((.text name, d) :: after) = loadEntries kind after := by
    rw [loadEntries, nameOf]
    split
    · rfl
    · show (if kind.stores name = true then _ else _) = _
      rw [hstores]
      rfl
  rw [loadEntries_append, loadEntries_append, hskipped]

theorem ne_of_stores {kind : NodeKind} {name : Text} (h : kind.stores name = true) :
    name ≠ Text.ofString "_type" ∧ name ≠ Text.ofString "_position" := by
  have hhead := head?_ne_of_stores h
  constructor
  · rintro rfl
    exact hhead rfl
  · rintro rfl
    exact hhead rfl

theorem Retouched.loadValue_eq {d d' : Data} (h : Retouched d d') : loadValue d' = loadValue d := by
  induction h with
  | removed d htype hignores => exact (loadValue_of_ignored d htype hignores).symm
  | replaced d d' htype hignores =>
    exact (loadValue_of_ignored d' htype hignores).trans (loadValue_of_ignored d htype hignores).symm
  | @field kind before after name d d' htype hstores _ ih =>
    obtain ⟨hnotType, hnotPosition⟩ := ne_of_stores hstores
    refine loadValue_map_congr ((lookup_text_of_ne hnotType before after d).trans htype)
      ((lookup_text_of_ne hnotType before after d').trans htype) ?_ ?_
    · exact (lookup_text_of_ne hnotPosition before after d').trans
        (lookup_text_of_ne hnotPosition before after d).symm
    · simp only [loadEntries_append, loadEntries, ih]
  | @item before after d d' _ ih => simp only [loadValue, loadItems_congr ih]

theorem Retouched.equal_typeKey {d d' : Data} (h : Retouched d d') :
    d.equal typeKey = false ∧ d'.equal typeKey = false := by
  cases h <;> exact ⟨rfl, rfl⟩

/-- Entries without influence leave what is loaded, or why nothing is, the same. -/
theorem Retouched.load_eq {d d' : Data} (h : Retouched d d') : load d' = load d := by
  have hvalue := h.loadValue_eq
  cases h with
  | @removed kind before after name d htype hignores =>
    have htype' := (lookup_text_of_ne hignores.1 before after d).trans htype
    rw [load_map htype, load_map htype', hvalue]
  | @replaced kind before after name d d' htype hignores =>
    have htype' := fun d => (lookup_text_of_ne hignores.1 before after d).trans htype
    rw [load_map (htype' d), load_map (htype' d'), hvalue]
  | @field kind before after name d d' htype hstores _ =>
    have hname := (ne_of_stores hstores).1
    have htype' := fun d => (lookup_text_of_ne hname before after d).trans htype
    rw [load_map (htype' d), load_map (htype' d'), hvalue]
  | @item before after d d' hitem =>
    -- A list is refused, whichever items it has.
    obtain ⟨hd, hd'⟩ := hitem.equal_typeKey
    have hnode : hasNodeType (.list (before ++ d' :: after)) = hasNodeType (.list (before ++ d :: after)) := by
      simp only [hasNodeType, List.any_append, List.any_cons, hd, hd']
    simp only [load, hnode]
    rfl

/-- **Loading cannot bypass the checks.** In whatever is loaded, of whatever data, every node is checked,
and entries without influence can be removed or have other values, in any number of nodes, with the same
outcome. -/
theorem load_checked (d : Data) :
    (∀ v, load d = .ok v → v.Sound) ∧
      ∀ d', Relation.ReflTransGen Retouched d d' → load d' = load d := by
  refine ⟨fun v h => sound_of_loadValue d (loadValue_of_load h).1, fun d' h => ?_⟩
  induction h with
  | refl => rfl
  | tail _ hstep ih => rw [hstep.load_eq, ih]

/-- A range with truth values as bounds and in the place of a text, of which the derived bound is given
another value, in a node with a key that is removed. -/
theorem load_checked_nested :
    ∃ d d' v, load d = .ok v ∧ v.Sound ∧ Relation.ReflTransGen Retouched d d' ∧ load d' = .ok v := by
  let range (stop : Data) : Data := .map [(typeKey, .text "RangeNode"), (.text "start", .bool false),
    (.text "end", .bool true), (.text "stop", stop)]
  let type : Data × Data := (typeKey, .text "LiteralNode")
  let count : Data × Data := (.text repeatCountName, .bool true)
  let text (stop : Data) : Data × Data := (.text "text", .list [.null, range stop])
  let d : Data := .map ([type, text (.integer 99), count] ++ (.text "_note", .null) :: [])
  let d₁ : Data := .map ([type, text (.integer 99), count] ++ [])
  let d₂ : Data := .map ([type, text (.text "x"), count] ++ [])
  have hload : load d = .ok (.node .literal none (.bool true)
    [.list [.null, .node .range none (.integer 1) [.bool false, .bool true, .integer 2]]]) := rfl
  have hnote : Retouched d d₁ :=
    @Retouched.removed .literal [type, text (.integer 99), count] [] "_note" .null rfl
      (ignores_of_underscore .literal rfl (by decide) (by decide))
  have hstop : Retouched (range (.integer 99)) (range (.text "x")) :=
    @Retouched.replaced .range [(typeKey, .text "RangeNode"), (.text "start", .bool false),
      (.text "end", .bool true)] [] "stop" (.integer 99) (.text "x") rfl
      (@ignores_of_derived .range ⟨"stop", .derived⟩ (by decide) rfl)
  have hfield : Retouched d₁ d₂ :=
    @Retouched.field .literal [type] [count] "text" _ _ rfl rfl (@Retouched.item [.null] [] _ _ hstop)
  have hsteps : Relation.ReflTransGen Retouched d d₂ := .tail (.single hnote) hfield
  obtain ⟨hsound, hretouched⟩ := load_checked d
  exact ⟨d, d₂, _, hload, hsound _ hload, hsteps, (hretouched d₂ hsteps).trans hload⟩

end RandomText.Stored
