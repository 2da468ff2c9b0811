import RandomText.Proofs.Stored.Checked
import RandomText.Proofs.Stored.Storing

/-!
# Normal forms of documents

A document that is loaded, with values of whatever types, can be dumped again, and the document that this
gives is a normal form of the first one: it is loaded with the same result, and it has the entries that
belong to a node and no others, in a fixed order (`NormalForm`). That nothing is lost comes from what
loading guarantees (`Checked`): a node is made once more of its stored fields, with the same derived ones
(`Checked.makeNode_eq`).
-/

namespace RandomText.Stored

open Value

/-! ### Making a node once more -/

/-- The values of those fields that documents store. -/
def storedValues : List Field → List Value → List Value
  | field :: fields, v :: rest =>
    if field.isStored then v :: storedValues fields rest else storedValues fields rest
  | _, _ => []

theorem FieldsChecked.length_eq {kind : NodeKind} {fields : List Value} (h : FieldsChecked kind fields) :
    kind.fields.length = fields.length := by
  cases kind with
  | sampleSet =>
    obtain ⟨chars, rfl, -⟩ := h
    rfl
  | range =>
    obtain ⟨first, last, m, n, rfl, -⟩ := h
    rfl
  | charRange =>
    obtain ⟨c, d, rfl, -⟩ := h
    rfl
  | root =>
    obtain ⟨children, rfl⟩ := h
    rfl
  | literal | any | alpha | numeric | symbol | basicSymbol | group => exact Eq.symm h

theorem FieldsChecked.fieldsOf_eq {kind : NodeKind} {fields : List Value} (h : FieldsChecked kind fields)
    (count : Value) :
    let given : Given := (repeatCountName, count) :: kind.storedNames.zip (storedValues kind.fields fields)
    given.missing kind = [] ∧ fieldsOf kind given = .ok fields := by
  cases kind with
  | any | numeric | symbol | basicSymbol =>
    obtain rfl := List.length_eq_zero_iff.mp h
    exact ⟨rfl, rfl⟩
  | literal | alpha =>
    obtain ⟨v, rfl⟩ := List.length_eq_one_iff.mp h
    exact ⟨rfl, rfl⟩
  | group =>
    obtain ⟨children, sequential, rfl⟩ := List.length_eq_two.mp h
    exact ⟨rfl, rfl⟩
  | root =>
    obtain ⟨children, rfl⟩ := h
    exact ⟨rfl, rfl⟩
  | sampleSet =>
    obtain ⟨chars, rfl, htrue⟩ := h
    exact ⟨rfl, if_pos htrue⟩
  | range =>
    obtain ⟨first, last, m, n, rfl, hfirst, hlast, hle⟩ := h
    exact ⟨rfl, (rangeFields_eq_ok_iff hfirst hlast).mpr ⟨hle, rfl⟩⟩
  | charRange =>
    obtain ⟨c, d, rfl, hlt⟩ := h
    exact ⟨rfl, charRangeFields_eq_ok_iff.mpr ⟨by omega, rfl⟩⟩

/-- A checked node is made once more of its repeat count and its stored fields. -/
theorem Checked.makeNode_eq {kind : NodeKind} {count : Value} {fields : List Value}
    (h : Checked kind count fields) (place : Option Place) :
    makeNode kind place ((repeatCountName, count) :: kind.storedNames.zip (storedValues kind.fields fields)) =
      .ok (.node kind place count fields) := by
  obtain ⟨⟨n, hn, hone⟩, hfields⟩ := h
  obtain ⟨hmissing, hmade⟩ := hfields.fieldsOf_eq count
  exact makeNode_eq_ok_iff.mpr ⟨hmissing, (checkRepeatCount_eq_ok_iff hn).mpr hone, fields, hmade, rfl⟩

/-! ### Normal forms -/

/-- The document is the normal form of the value. That of a node has its type, its place if it has one,
its repeat count and its stored fields in the order of their kind. -/
inductive NormalForm : Value → Data → Prop where
  | null : NormalForm .null .null
  | bool (b : Bool) : NormalForm (.bool b) (.bool b)
  | integer (n : Int) : NormalForm (.integer n) (.integer n)
  | text (t : Text) : NormalForm (.text t) (.text t)
  | list {vs : List Value} {ds : List Data} : List.Forall₂ NormalForm vs ds →
      NormalForm (.list vs) (.list ds)
  | node {kind : NodeKind} {place : Option Place} {count : Value} {c : Data} {values : List Value}
      {fields : List (Data × Data)} : NormalForm count c → AreFields kind fields →
      List.Forall₂ NormalForm (storedValues kind.fields values) (fields.map Prod.snd) →
      NormalForm (.node kind place count values) (.map (documentEntries true kind place c fields))

/-- The value is dumped to its normal form, which is loaded with the value as the result. -/
def Restores (v : Value) : Prop :=
  ∃ d, v.dump true = .ok d ∧ loadValue d = .ok v ∧ NormalForm v d

theorem Restores.list {vs : List Value} (h : ∀ v ∈ vs, Restores v) : Restores (.list vs) := by
  have hall : ∃ ds, dumpAll true vs = .ok ds ∧ loadItems ds = .ok vs ∧ List.Forall₂ NormalForm vs ds := by
    induction vs with
    | nil => exact ⟨[], rfl, rfl, .nil⟩
    | cons v vs ih =>
      obtain ⟨hv, hvs⟩ := List.forall_mem_cons.mp h
      obtain ⟨d, hdump, hload, hform⟩ := hv
      obtain ⟨ds, hdumps, hloads, hforms⟩ := ih hvs
      refine ⟨d :: ds, ?_, ?_, .cons hform hforms⟩
      · simp only [dumpAll, hdump, hdumps, Except.ok_bind]
        rfl
      · simp only [loadItems, hload, hloads, Except.ok_bind]
        rfl
  obtain ⟨ds, hdumps, hloads, hforms⟩ := hall
  refine ⟨.list ds, ?_, ?_, .list hforms⟩
  · rw [dump, hdumps]
    rfl
  · rw [loadValue, hloads]
    rfl

theorem dumpFields_of_restores (kind : NodeKind) {fields : List Field} {values : List Value}
    (hstores : ∀ field ∈ fields, field.isStored = true → kind.stores field.name = true)
    (h : ∀ v ∈ values, Restores v) (hlength : fields.length = values.length) :
    ∃ entries, dumpFields true fields values = .ok entries ∧
      entries.map Prod.fst = ((fields.filter fun f => f.isStored).map fun f => f.name).map Data.text ∧
      loadEntries kind entries = .ok
        (((fields.filter fun f => f.isStored).map fun f => f.name).zip (storedValues fields values)) ∧
      List.Forall₂ NormalForm (storedValues fields values) (entries.map Prod.snd) := by
  induction fields generalizing values with
  | nil =>
    obtain rfl := List.length_eq_zero_iff.mp hlength.symm
    exact ⟨[], rfl, rfl, rfl, .nil⟩
  | cons field fields ih =>
    obtain ⟨v, values, rfl⟩ := List.exists_cons_of_length_eq_add_one hlength.symm
    obtain ⟨hfield, hfields⟩ := List.forall_mem_cons.mp hstores
    obtain ⟨hv, hvs⟩ := List.forall_mem_cons.mp h
    obtain ⟨entries, hdumps, hkeys, hloads, hforms⟩ := ih hfields hvs (Nat.succ.inj hlength)
    by_cases hstored : field.isStored = true
    · obtain ⟨d, hdump, hload, hform⟩ := hv
      refine ⟨(.text field.name, d) :: entries, ?_, ?_, ?_, ?_⟩
      · simp only [dumpFields, hstored, if_true, hdump, hdumps, Except.ok_bind]
        rfl
      · simp only [List.map_cons, List.filter_cons, hstored, if_true, hkeys]
      · simp only [List.filter_cons, hstored, if_true, storedValues, List.map_cons, List.zip_cons_cons]
        exact loadEntries_cons (hfield hstored) hload hloads
      · simp only [storedValues, hstored, if_true, List.map_cons]
        exact .cons hform hforms
    · have hskipped : storedValues (field :: fields) (v :: values) = storedValues fields values :=
        if_neg hstored
      refine ⟨entries, ?_, ?_, ?_, ?_⟩
      · simp only [dumpFields, hstored]
        exact hdumps
      · rw [List.filter_cons_of_neg hstored]
        exact hkeys
      · rw [List.filter_cons_of_neg hstored, hskipped]
        exact hloads
      · rw [hskipped]
        exact hforms

theorem stores_of_mem {kind : NodeKind} {field : Field} (hfield : field ∈ kind.fields)
    (hstored : field.isStored = true) : kind.stores field.name = true :=
  Bool.or_eq_true_iff.mpr (.inr (List.any_eq_true.mpr ⟨field, hfield, by simp [hstored]⟩))

theorem Restores.node {kind : NodeKind} {count : Value} {fields : List Value}
    (hchecked : Checked kind count fields) (hcount : Restores count) (hfields : ∀ v ∈ fields, Restores v)
    (place : Option Place) : Restores (.node kind place count fields) := by
  obtain ⟨c, hdump, hload, hform⟩ := hcount
  obtain ⟨entries, hdumps, hkeys, hloads, hforms⟩ := dumpFields_of_restores kind
    (fun field => stores_of_mem) hfields hchecked.2.length_eq
  refine ⟨.map (documentEntries true kind place c entries), ?_, ?_, .node hform hkeys hforms⟩
  · simp only [dump, hdump, hdumps, Except.ok_bind]
    rfl
  · rw [loadValue_documentEntries true place hload hkeys hloads]
    exact hchecked.makeNode_eq place

mutual

/-- Sound values are dumped, and loaded again as they were. -/
theorem restores_of_sound (v : Value) (h : v.Sound) : Restores v := by
  match v with
  | .null => exact ⟨.null, rfl, rfl, .null⟩
  | .bool b => exact ⟨.bool b, rfl, rfl, .bool b⟩
  | .integer n => exact ⟨.integer n, rfl, rfl, .integer n⟩
  | .text t => exact ⟨.text t, rfl, rfl, .text t⟩
  | .list items => exact .list (restores_of_soundAll items h)
  | .node kind place count fields =>
    obtain ⟨hchecked, hcount, hfields⟩ := h
    exact .node hchecked (restores_of_sound count hcount) (restores_of_soundAll fields hfields) place

theorem restores_of_soundAll (vs : List Value) (h : SoundAll vs) : ∀ v ∈ vs, Restores v := by
  match vs with
  | [] => exact nofun
  | v :: rest =>
    exact List.forall_mem_cons.mpr ⟨restores_of_sound v h.1, restores_of_soundAll rest h.2⟩

end

/-- **Loading and dumping gives a normal form.** Whatever is loaded, of whatever data, can be dumped. The
document is its normal form and is loaded with the same result, so that loading and dumping it again
changes nothing. -/
theorem load_normalForm {d : Data} {v : Value} (h : load d = .ok v) :
    ∃ normal, v.dumpTree true = .ok normal ∧ NormalForm v normal ∧ load normal = .ok v ∧
      (do (← load normal).dumpTree true) = .ok normal := by
  obtain ⟨hvalue, htree⟩ := loadValue_of_load h
  obtain ⟨normal, hdump, hload, hform⟩ := restores_of_sound v (sound_of_loadValue d hvalue)
  have hrestored : v.dumpTree true = .ok normal ∧ load normal = .ok v := by
    rcases htree with rfl | ⟨kind, place, count, fields, rfl⟩
    · obtain rfl := Except.ok.inj hdump
      exact ⟨rfl, rfl⟩
    · exact ⟨hdump, load_of_loadValue hload⟩
  obtain ⟨hnormal, hload⟩ := hrestored
  refine ⟨normal, hnormal, hform, hload, ?_⟩
  rw [hload, Except.ok_bind, hnormal]

/-- A node in the place of a text, with null as a truth value, in a node with a place that is none and
with keys in another order. -/
theorem load_normalForm_odd :
    let alpha (others : List (Data × Data)) : Data :=
      .map ([(typeKey, .text "AlphaNode")] ++ others ++ [(.text "uppercase", .null)])
    let d : Data := .map [(.text "text", .list [.null, alpha [(.text "stop", .integer 7)]]),
      (.text "_note", .null), (.text repeatCountName, .bool true),
      (positionKey, .map [(.text "index", .list []), (.text "origin", .null), (.text "line", .null)]),
      (typeKey, .text "LiteralNode")]
    let normal : Data := .map [(typeKey, .text "LiteralNode"),
      (positionKey, .map [(.text "origin", .null), (.text "index", .list [])]),
      (.text repeatCountName, .bool true),
      (.text "text", .list [.null, alpha [(.text repeatCountName, .integer 1)]])]
    ∃ v, load d = .ok v ∧ v.dumpTree true = .ok normal ∧ NormalForm v normal ∧ load normal = .ok v := by
  intro alpha d normal
  have hload : load d = .ok (.node .literal (some ⟨.null, .list []⟩) (.bool true)
    [.list [.null, .node .alpha none (.integer 1) [.null]]]) := rfl
  obtain ⟨normal', hdump, hform, hreload, -⟩ := load_normalForm hload
  obtain rfl : normal = normal' := Except.ok.inj (Eq.trans (by rfl) hdump)
  exact ⟨_, hload, hdump, hform, hreload⟩

end RandomText.Stored
