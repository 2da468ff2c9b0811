import RandomText.Proofs.Stored.OfNode
import RandomText.Stored.Load

/-!
# Loaded trees are usable

Loading checks what a node needs and no types. If the fields of a document have the types of their
names (`WellTyped`), what is loaded stores a pattern tree (`stores_of_loadValue`). Such a tree can be
generated from, lowered and run, except that the constructors let in what lowered text cannot
express, a range that starts below zero, and what nothing can be drawn from, a choice without
children (`load_usable`).
-/

namespace RandomText.Stored

open Value

/-! ### Typed documents -/

/-- What a field of a node is to hold. -/
inductive FieldType where
  | text
  | integer
  | bool
  /-- A list of nodes. -/
  | nodes
deriving DecidableEq

/-- The type of the fields with a given name. -/
def FieldType.of (name : Text) : FieldType :=
  if name = repeatCountName ∨ name = Text.ofString "start" ∨ name = Text.ofString "end" then .integer
  else if name = Text.ofString "uppercase" ∨ name = Text.ofString "sequential" then .bool
  else if name = Text.ofString "children" then .nodes
  else .text

mutual

/-- A map with the type of a node, whose stored fields have the types of their names. -/
def WellTyped : Data → Prop
  | .map entries => ∃ kind : NodeKind,
    Data.lookup typeKey entries = some (.text kind.name) ∧ EntriesTyped kind entries
  | _ => False

def EntriesTyped (kind : NodeKind) : List (Data × Data) → Prop
  | [] => True
  | (key, d) :: rest =>
    (∀ name, key = .text name → kind.stores name = true → HasType (FieldType.of name) d) ∧
      EntriesTyped kind rest

def HasType : FieldType → Data → Prop
  | .text, .text _ => True
  | .integer, .integer _ => True
  | .bool, .bool _ => True
  | .nodes, .list items => WellTypedAll items
  | _, _ => False

def WellTypedAll : List Data → Prop
  | [] => True
  | d :: rest => WellTyped d ∧ WellTypedAll rest

end

theorem entriesTyped_cons {kind : NodeKind} {name : Text} {d : Data} {rest : List (Data × Data)}
    (h : kind.stores name = true → HasType (FieldType.of name) d) (hrest : EntriesTyped kind rest) :
    EntriesTyped kind ((.text name, d) :: rest) := by
  refine ⟨?_, hrest⟩
  rintro name' ⟨⟩
  exact h

/-- The value of a field that has the type of its name. -/
inductive Holds : FieldType → Value → Prop where
  | text (t : Text) : Holds .text (.text t)
  | integer (n : Int) : Holds .integer (.integer n)
  | bool (b : Bool) : Holds .bool (.bool b)
  | nodes {vs : List Value} {nodes : List Node} (h : StoresAll vs nodes) : Holds .nodes (.list vs)

theorem Holds.eq_text {v : Value} (h : Holds .text v) : ∃ t, v = .text t := by
  cases h
  exact ⟨_, rfl⟩

theorem Holds.eq_integer {v : Value} (h : Holds .integer v) : ∃ n, v = .integer n := by
  cases h
  exact ⟨_, rfl⟩

theorem Holds.eq_bool {v : Value} (h : Holds .bool v) : ∃ b, v = .bool b := by
  cases h
  exact ⟨_, rfl⟩

theorem Holds.eq_nodes {v : Value} (h : Holds .nodes v) :
    ∃ vs nodes, v = .list vs ∧ StoresAll vs nodes := by
  cases h with
  | nodes h => exact ⟨_, _, rfl, h⟩

/-- Every given value has the type of its name. -/
def Given.Typed (given : Given) : Prop := ∀ name v, (name, v) ∈ given → Holds (FieldType.of name) v

theorem Given.Typed.cons {given : Given} (h : given.Typed) {name : Text} {v : Value}
    (hv : Holds (FieldType.of name) v) : Given.Typed ((name, v) :: given) := by
  intro name' v' hmem
  rcases List.mem_cons.mp hmem with heq | hmem
  · cases heq
    exact hv
  · exact h name' v' hmem

theorem Given.Typed.of_get? {given : Given} (h : given.Typed) {name : Text} {v : Value}
    (hget : given.get? name = some v) : Holds (FieldType.of name) v := by
  obtain ⟨⟨name', v'⟩, hfind, rfl⟩ := Option.map_eq_some_iff.mp hget
  have hname := List.find?_some hfind
  obtain rfl := of_decide_eq_true hname
  exact h _ _ (List.mem_of_find?_eq_some hfind)

theorem Given.Typed.get {given : Given} (h : given.Typed) (name : Text) {absent : Value}
    (habsent : Holds (FieldType.of name) absent) : Holds (FieldType.of name) (given.get name absent) := by
  rw [Given.get]
  cases hget : given.get? name with
  | none => exact habsent
  | some v => exact h.of_get? hget

theorem Given.Typed.get_required {given : Given} (h : given.Typed) {kind : NodeKind}
    (hmissing : given.missing kind = []) {name : Text} (hname : ⟨name, .required⟩ ∈ kind.fields)
    (absent : Value) : Holds (FieldType.of name) (given.get name absent) := by
  rw [Given.get]
  cases hget : given.get? name with
  | some v => exact h.of_get? hget
  | none =>
    have hfields := List.filter_eq_nil_iff.mp (List.map_eq_nil_iff.mp hmissing)
    have hfield := hfields _ hname
    simp [hget] at hfield

/-! ### Made nodes -/

/-- A message of two values, whose texts may be impossible to write, is no success either way. -/
theorem throw_message_ne_ok {α : Type} {x y : Except Error Text} {message : Text → Text → Error}
    {k : PUnit → Except Error α} {a : α} : ¬(do
      let s ← x
      let t ← y
      let r ← throw (message s t)
      k r) = Except.ok a := by
  intro h
  obtain ⟨s, -, h⟩ := Except.bind_eq_ok.mp h
  obtain ⟨t, -, h⟩ := Except.bind_eq_ok.mp h
  obtain ⟨r, h, -⟩ := Except.bind_eq_ok.mp h
  cases h

theorem before_of_toInteger? {u v : Value} {m n : Int} (hu : u.toInteger? = some m)
    (hv : v.toInteger? = some n) (comparison : Comparison) :
    before comparison u v = .ok (compareIntegers comparison m n) := by
  cases u <;> cases v <;> simp_all [before, toInteger?]

theorem checkRepeatCount_eq_ok_iff {count : Value} {n : Int} (hcount : count.toInteger? = some n) :
    checkRepeatCount count = .ok () ↔ 1 ≤ n := by
  have hone : (Value.integer 1).toInteger? = some 1 := rfl
  rw [checkRepeatCount, before_of_toInteger? hcount hone]
  by_cases hlt : n < 1
  · rw [show compareIntegers .less n 1 = true from decide_eq_true hlt]
    refine ⟨fun h => ?_, fun h => by omega⟩
    rw [Except.ok_bind] at h
    obtain ⟨text, -, hthrow⟩ := Except.bind_eq_ok.mp h
    cases hthrow
  · rw [show compareIntegers .less n 1 = false from decide_eq_false hlt]
    exact ⟨fun _ => by omega, fun _ => rfl⟩

theorem rangeFields_eq_ok_iff {first last : Value} {m n : Int} (hfirst : first.toInteger? = some m)
    (hlast : last.toInteger? = some n) {fields : List Value} :
    rangeFields first last = .ok fields ↔ m ≤ n ∧ fields = [first, last, .integer (n + 1)] := by
  rw [rangeFields, before_of_toInteger? hlast hfirst, successor, hlast]
  by_cases hlt : n < m
  · rw [show compareIntegers .less n m = true from decide_eq_true hlt]
    exact ⟨fun h => absurd h throw_message_ne_ok, fun h => by omega⟩
  · rw [show compareIntegers .less n m = false from decide_eq_false hlt]
    exact ⟨fun h => ⟨by omega, (Except.ok.inj h).symm⟩, fun h => congrArg Except.ok h.2.symm⟩

theorem eq_singleton_of_checkBounds {first last : Text}
    (h : checkBounds (.text first) (.text last) = .ok ()) : ∃ c d, first = [c] ∧ last = [d] := by
  have hrefusal : ∀ {x y : Except Error Text}, ¬(do
      throw (Error.boundsNotCharacters (← x) (← y)) : Except Error Unit) = .ok () :=
    throw_message_ne_ok (k := pure)
  obtain ⟨n, hn, h⟩ := Except.bind_eq_ok.mp h
  obtain rfl := Except.ok.inj hn
  by_cases hfirst : first.length = 1
  · rw [if_neg (not_not.mpr hfirst)] at h
    obtain ⟨m, hm, h⟩ := Except.bind_eq_ok.mp h
    obtain rfl := Except.ok.inj hm
    by_cases hlast : last.length = 1
    · obtain ⟨c, rfl⟩ := List.length_eq_one_iff.mp hfirst
      obtain ⟨d, rfl⟩ := List.length_eq_one_iff.mp hlast
      exact ⟨c, d, rfl, rfl⟩
    · rw [if_pos hlast] at h
      exact absurd h hrefusal
  · rw [if_pos hfirst] at h
    exact absurd h hrefusal

theorem charRangeFields_eq_ok_iff {c d : CodePoint} {fields : List Value} :
    charRangeFields (.text [c]) (.text [d]) = .ok fields ↔
      c.val ≤ d.val ∧ fields = [.text [c], .text [d], .integer c.val, .integer (d.val + 1)] := by
  have hfields : charRangeFields (.text [c]) (.text [d]) =
      if (d.val : Int) + 1 ≤ c.val then
        .error (.charRangeReversed (Text.inspect [c]) (Text.inspect [d]))
      else .ok [.text [c], .text [d], .integer c.val, .integer (d.val + 1)] := rfl
  rw [hfields]
  split
  · next hreversed => exact ⟨nofun, fun h => by omega⟩
  · next hordered =>
    exact ⟨fun h => ⟨by omega, (Except.ok.inj h).symm⟩, fun h => congrArg Except.ok h.2.symm⟩

theorem makeNode_eq_ok_iff {kind : NodeKind} {place : Option Place} {given : Given} {v : Value} :
    makeNode kind place given = .ok v ↔
      given.missing kind = [] ∧ checkRepeatCount (given.get repeatCountName (.integer 1)) = .ok () ∧
        ∃ fields, fieldsOf kind given = .ok fields ∧
          v = .node kind place (given.get repeatCountName (.integer 1)) fields := by
  cases hmissing : given.missing kind with
  | cons name names =>
    refine ⟨fun h => ?_, fun h => nomatch h.1⟩
    rw [makeNode, hmissing] at h
    obtain ⟨_, hthrow, -⟩ := Except.bind_eq_ok.mp h
    cases hthrow
  | nil =>
    rw [makeNode, hmissing]
    constructor
    · intro h
      obtain ⟨⟨⟩, hcheck, h⟩ := Except.bind_eq_ok.mp h
      obtain ⟨fields, hfields, h⟩ := Except.bind_eq_ok.mp h
      exact ⟨rfl, hcheck, fields, hfields, (Except.ok.inj h).symm⟩
    · rintro ⟨-, hcheck, fields, hfields, rfl⟩
      exact Except.bind_eq_ok.mpr ⟨⟨⟩, hcheck, Except.bind_eq_ok.mpr ⟨fields, hfields, rfl⟩⟩

theorem stores_of_fieldsOf {kind : NodeKind} {given : Given} {fields : List Value} (htyped : given.Typed)
    (hmissing : given.missing kind = []) (h : fieldsOf kind given = .ok fields) (place : Option Place)
    (tag : Tag) : ∃ node, Stores (.node kind place (.integer tag.repeatCount) fields) node := by
  have hrequired : ∀ name : Text, ⟨name, .required⟩ ∈ kind.fields →
      Holds (FieldType.of name) (given.get name .null) :=
    fun name hname => htyped.get_required hmissing hname .null
  cases kind with
  | literal =>
    obtain rfl := Except.ok.inj h
    obtain ⟨t, ht⟩ := (hrequired "text" (by decide) : Holds .text _).eq_text
    rw [ht]
    exact ⟨_, .leaf place tag (.literal t)⟩
  | any =>
    obtain rfl := Except.ok.inj h
    exact ⟨_, .leaf place tag .any⟩
  | alpha =>
    obtain rfl := Except.ok.inj h
    obtain ⟨b, hb⟩ := (htyped.get "uppercase" (.bool false) : Holds .bool _).eq_bool
    rw [hb]
    exact ⟨_, .leaf place tag (.alpha b)⟩
  | numeric =>
    obtain rfl := Except.ok.inj h
    exact ⟨_, .leaf place tag .numeric⟩
  | symbol =>
    obtain rfl := Except.ok.inj h
    exact ⟨_, .leaf place tag .symbol⟩
  | basicSymbol =>
    obtain rfl := Except.ok.inj h
    exact ⟨_, .leaf place tag .basicSymbol⟩
  | sampleSet =>
    obtain ⟨chars, hchars⟩ := (hrequired "chars" (by decide) : Holds .text _).eq_text
    simp only [fieldsOf, hchars] at h
    cases chars with
    | nil => cases h
    | cons c rest =>
      obtain rfl := Except.ok.inj h
      exact ⟨_, .leaf place tag (.sampleSet (c :: rest) (List.cons_ne_nil c rest))⟩
  | range =>
    obtain ⟨first, hfirst⟩ := (hrequired "start" (by decide) : Holds .integer _).eq_integer
    obtain ⟨last, hlast⟩ := (hrequired "end" (by decide) : Holds .integer _).eq_integer
    simp only [fieldsOf, hfirst, hlast] at h
    obtain ⟨hle, rfl⟩ := (rangeFields_eq_ok_iff rfl rfl).mp h
    exact ⟨_, .leaf place tag (.range first last hle)⟩
  | charRange =>
    obtain ⟨first, hfirst⟩ := (hrequired "first" (by decide) : Holds .text _).eq_text
    obtain ⟨last, hlast⟩ := (hrequired "last" (by decide) : Holds .text _).eq_text
    simp only [fieldsOf, hfirst, hlast] at h
    obtain ⟨⟨⟩, hbounds, -⟩ := Except.bind_eq_ok.mp h
    obtain ⟨c, d, rfl, rfl⟩ := eq_singleton_of_checkBounds hbounds
    obtain ⟨hle, rfl⟩ := charRangeFields_eq_ok_iff.mp h
    exact ⟨_, .leaf place tag (.charRange c d hle)⟩
  | group =>
    obtain rfl := Except.ok.inj h
    obtain ⟨vs, nodes, hvs, hstores⟩ := (htyped.get "children" (.nodes .nil) : Holds .nodes _).eq_nodes
    obtain ⟨b, hb⟩ := (htyped.get "sequential" (.bool true) : Holds .bool _).eq_bool
    rw [hvs, hb]
    cases b with
    | true => exact ⟨_, .group place tag .sequence vs hstores⟩
    | false => exact ⟨_, .group place tag .choice vs hstores⟩
  | root =>
    obtain rfl := Except.ok.inj h
    obtain ⟨vs, nodes, hvs, hstores⟩ := (htyped.get "children" (.nodes .nil) : Holds .nodes _).eq_nodes
    rw [hvs]
    exact ⟨_, .group place tag .root vs hstores⟩

theorem stores_of_makeNode {kind : NodeKind} {place : Option Place} {given : Given} {v : Value}
    (htyped : given.Typed) (h : makeNode kind place given = .ok v) : ∃ node, Stores v node := by
  obtain ⟨hmissing, hcheck, fields, hfields, rfl⟩ := makeNode_eq_ok_iff.mp h
  obtain ⟨n, hn⟩ := (htyped.get repeatCountName (.integer 1) : Holds .integer _).eq_integer
  rw [hn] at hcheck ⊢
  have hpos := (checkRepeatCount_eq_ok_iff rfl).mp hcheck
  obtain ⟨count, rfl⟩ := Int.eq_ofNat_of_zero_le (by omega : 0 ≤ n)
  exact stores_of_fieldsOf htyped hmissing hfields place ⟨count, none, by omega⟩

/-! ### Loaded documents -/

theorem kindOf_name (kind : NodeKind) : kindOf (.text kind.name) = .ok kind := by
  cases kind <;> rfl

theorem eq_text_of_nameOf {key : Data} {name : Text} (h : nameOf key = .ok (some name)) :
    key = .text name := by
  unfold nameOf at h
  split at h
  · split at h
    · cases h
    · cases h
      rfl
  · cases h
  · cases h

theorem head?_ne_of_stores {kind : NodeKind} {name : Text} (h : kind.stores name = true) :
    name.head? ≠ some (CodePoint.ofChar '_') := by
  have hall : ∀ field ∈ kind.fields, field.name.head? ≠ some (CodePoint.ofChar '_') := by
    cases kind <;> decide
  rcases Bool.or_eq_true_iff.mp h with hcount | hfield
  · rw [of_decide_eq_true hcount]
    decide
  · obtain ⟨field, hmem, hname⟩ := List.any_eq_true.mp hfield
    rw [← of_decide_eq_true (Bool.and_eq_true_iff.mp hname).2]
    exact hall field hmem

theorem loadEntries_cons {kind : NodeKind} {name : Text} (hstores : kind.stores name = true) {d : Data}
    {v : Value} (hv : loadValue d = .ok v) {rest : List (Data × Data)} {given : Given}
    (hrest : loadEntries kind rest = .ok given) :
    loadEntries kind ((.text name, d) :: rest) = .ok ((name, v) :: given) := by
  have hname : nameOf (.text name) = .ok (some name) := by
    rw [nameOf, if_neg (head?_ne_of_stores hstores)]
    rfl
  simp only [loadEntries, hname, Except.ok_bind, hstores, if_true, hv, hrest]
  rfl

mutual

/-- A typed document loads to the stored form of a pattern tree, if it loads. -/
theorem stores_of_loadValue (d : Data) (htyped : WellTyped d) {v : Value} (h : loadValue d = .ok v) :
    ∃ node, Stores v node := by
  match d with
  | .map entries =>
    obtain ⟨kind, htype, hentries⟩ := htyped
    rw [loadValue, htype] at h
    obtain ⟨kind', hkind, h⟩ := Except.bind_eq_ok.mp h
    obtain rfl := Except.ok.inj ((kindOf_name kind).symm.trans hkind)
    obtain ⟨place, -, h⟩ := Except.bind_eq_ok.mp h
    obtain ⟨given, hgiven, h⟩ := Except.bind_eq_ok.mp h
    exact stores_of_makeNode (typed_of_loadEntries kind entries hentries hgiven) h

theorem storesAll_of_loadItems (ds : List Data) (htyped : WellTypedAll ds) {vs : List Value}
    (h : loadItems ds = .ok vs) : ∃ nodes, StoresAll vs nodes := by
  match ds with
  | [] =>
    obtain rfl := Except.ok.inj h
    exact ⟨[], .nil⟩
  | d :: rest =>
    obtain ⟨hfirst, hrest⟩ := htyped
    obtain ⟨v, hv, h⟩ := Except.bind_eq_ok.mp h
    obtain ⟨others, hothers, h⟩ := Except.bind_eq_ok.mp h
    obtain rfl := Except.ok.inj h
    obtain ⟨node, hnode⟩ := stores_of_loadValue d hfirst hv
    obtain ⟨nodes, hnodes⟩ := storesAll_of_loadItems rest hrest hothers
    exact ⟨node :: nodes, .cons hnode hnodes⟩

theorem typed_of_loadEntries (kind : NodeKind) (entries : List (Data × Data))
    (htyped : EntriesTyped kind entries) {given : Given} (h : loadEntries kind entries = .ok given) :
    given.Typed := by
  match entries with
  | [] =>
    obtain rfl := Except.ok.inj h
    exact fun _ _ hmem => nomatch hmem
  | (key, d) :: rest =>
    obtain ⟨hfirst, hrest⟩ := htyped
    obtain ⟨name?, hname, h⟩ := Except.bind_eq_ok.mp h
    cases name? with
    | none => exact typed_of_loadEntries kind rest hrest h
    | some name =>
      by_cases hstores : kind.stores name = true
      · simp only [hstores, if_true] at h
        obtain ⟨v, hv, h⟩ := Except.bind_eq_ok.mp h
        obtain ⟨others, hothers, h⟩ := Except.bind_eq_ok.mp h
        obtain rfl := Except.ok.inj h
        have hholds := holds_of_loadValue _ d (hfirst name (eq_text_of_nameOf hname) hstores) hv
        exact (typed_of_loadEntries kind rest hrest hothers).cons hholds
      · simp only [hstores] at h
        exact typed_of_loadEntries kind rest hrest h

theorem holds_of_loadValue (type : FieldType) (d : Data) (htyped : HasType type d) {v : Value}
    (h : loadValue d = .ok v) : Holds type v := by
  match type, d with
  | .text, .text t =>
    obtain rfl := Except.ok.inj h
    exact .text t
  | .integer, .integer n =>
    obtain rfl := Except.ok.inj h
    exact .integer n
  | .bool, .bool b =>
    obtain rfl := Except.ok.inj h
    exact .bool b
  | .nodes, .list items =>
    obtain ⟨vs, hvs, h⟩ := Except.bind_eq_ok.mp h
    obtain rfl := Except.ok.inj h
    obtain ⟨nodes, hnodes⟩ := storesAll_of_loadItems items htyped hvs
    exact .nodes hnodes

end

theorem load_map {entries : List (Data × Data)} {type : Data}
    (h : Data.lookup typeKey entries = some type) : load (.map entries) = loadValue (.map entries) := by
  have hnode : hasNodeType (.map entries) = .ok true := by
    rw [hasNodeType, h]
    rfl
  simp only [load, hnode]
  rfl

/-- **Loaded trees are usable.** What is loaded from a typed document stores a pattern tree. Without
ranges that start below zero and choices without children, and with numbers that can be written, it
is lowered to a text that renders an expression, and it generates from every source. Running the lowered
text generates the same with the same draws if the stack has room for the text, and on a smaller stack
ends before anything is drawn. -/
theorem load_usable [Expr.CallStack] (data : Data) (v : Value) (htyped : WellTyped data)
    (hload : load data = .ok v) :
    (∃ node, Stores v node) ∧ ∀ node, Stores v node → node.Runnable → node.Writable →
      ∃ lowered e, v.lower = .ok lowered ∧ Expr.Renders lowered e ∧
        ∀ (σ : Type) (source : Source σ) (d : Draws σ), ∃ text d',
          (v.generate source).outcome d = (.ok text, d') ∧
          (Expr.run source lowered).outcome d =
            if Expr.demand lowered ≤ Expr.CallStack.room then (.ok text, d')
            else (.error (.unreadable .nestedTooDeeply), d) := by
  have hvalue : loadValue data = .ok v := by
    match data, htyped with
    | .map entries, ⟨kind, htype, _⟩ => rwa [load_map htype] at hload
  refine ⟨stores_of_loadValue data htyped hvalue, fun node hstores hrunnable hwritable => ?_⟩
  obtain ⟨lowered, hlower⟩ := lower_of_writable node hwritable
  obtain ⟨e, hspells, -⟩ := computes_lower node hrunnable hlower 0
  have hvlower : v.lower = .ok lowered := by
    rw [hstores.lower_eq, hlower]
    rfl
  refine ⟨lowered, e, hvlower, hspells.renders, fun σ source d => ?_⟩
  obtain ⟨text, d', hgenerate, hrun⟩ := outcome_run_lower hrunnable hlower source d
  exact ⟨text, d', (hstores.agree_generate source hrunnable hwritable).outcome_eq hgenerate, hrun⟩

/-- A repeated range from three to five. -/
theorem load_usable_range :
    ∃ data v node, WellTyped data ∧ load data = .ok v ∧ Stores v node ∧ node.Runnable ∧ node.Writable ∧
      ∃ lowered e, v.lower = .ok lowered ∧ Expr.Renders lowered e ∧
        Expr.demand lowered ≤ Expr.CallStack.room ∧
        ∀ (σ : Type) (source : Source σ) (d : Draws σ), ∃ text d',
          (v.generate source).outcome d = (.ok text, d') ∧
          (Expr.run source lowered).outcome d = (.ok text, d') := by
  let data : Data := .map [(typeKey, .text "RangeNode"), (.text "end", .integer 5),
    (.text "start", .integer 3), (.text repeatCountName, .integer 2)]
  let v : Value := .node .range none (.integer 2) [.integer 3, .integer 5, .integer 6]
  have htyped : WellTyped data :=
    ⟨.range, rfl, entriesTyped_cons nofun <| entriesTyped_cons (fun _ => trivial) <|
      entriesTyped_cons (fun _ => trivial) <| entriesTyped_cons (fun _ => trivial) trivial⟩
  have hload : load data = .ok v := rfl
  let node : Node := .leaf ⟨2, none, by decide⟩ (.range 3 5 (by decide))
  have hstores : Stores v node := .leaf none ⟨2, none, by decide⟩ (.range 3 5 (by decide))
  have hrunnable : node.Runnable := (by decide : (0 : Int) ≤ 3)
  have hwritable : node.Writable :=
    ⟨natAbs_lt_of_lt charBound_lt (by decide : (2 : Int).natAbs ≤ _),
      natAbs_lt_of_lt charBound_lt (by decide), natAbs_lt_of_lt charBound_lt (by decide)⟩
  have hlower : v.lower = .ok "repeat(2, str(rand_range(3, 6)))" := rfl
  have hroom : Expr.demand "repeat(2, str(rand_range(3, 6)))" ≤ Expr.CallStack.room := by decide +kernel
  obtain ⟨lowered, e, hlowered, hrenders, hruns⟩ :=
    (load_usable data v htyped hload).2 node hstores hrunnable hwritable
  obtain rfl := Except.ok.inj (hlower.symm.trans hlowered)
  refine ⟨data, v, node, htyped, hload, hstores, hrunnable, hwritable, _, e, hlower, hrenders, hroom,
    fun σ source d => ?_⟩
  obtain ⟨text, d', hgenerate, hrun⟩ := hruns σ source d
  rw [if_pos hroom] at hrun
  exact ⟨text, d', hgenerate, hrun⟩

/-- Typed documents that load and yet are of no use: a range below zero generates, but its lowered
text is no expression; a choice without children is lowered, but nothing can be drawn from it. -/
theorem load_unusable :
    (∃ data v, WellTyped data ∧ load data = .ok v ∧
      (v.generate Replay.source).outcome (.start (.start [0] 0)) = (.ok "-5", ⟨⟨[], 0⟩, [1]⟩) ∧
      v.lower = .ok "str(rand_range(-5, -4))" ∧
      ((Expr.run Replay.source "str(rand_range(-5, -4))").outcome (.start (.start [0] 0))).1.toOption =
        none) ∧
    ∃ data v, WellTyped data ∧ load data = .ok v ∧ v.lower = .ok "sample([])" ∧
      ((v.generate Replay.source).outcome (.start (.start [0] 0))).1 = .error (.emptyRange "0" "0") := by
  let range : Data := .map [(typeKey, .text "RangeNode"), (.text "start", .integer (-5)),
    (.text "end", .integer (-5))]
  let choice : Data := .map [(typeKey, .text "GroupNode"), (.text "children", .list []),
    (.text "sequential", .bool false)]
  have hrange : WellTyped range :=
    ⟨.range, rfl, entriesTyped_cons nofun <| entriesTyped_cons (fun _ => trivial) <|
      entriesTyped_cons (fun _ => trivial) trivial⟩
  have hchoice : WellTyped choice :=
    ⟨.group, rfl, entriesTyped_cons nofun <| entriesTyped_cons (fun _ => trivial) <|
      entriesTyped_cons (fun _ => trivial) trivial⟩
  exact ⟨⟨range, .node .range none (.integer 1) [.integer (-5), .integer (-5), .integer (-4)], hrange, rfl,
    rfl, rfl, by decide +kernel⟩,
    choice, .node .group none (.integer 1) [.list [], .bool false], hchoice, rfl, rfl, rfl⟩

end RandomText.Stored
