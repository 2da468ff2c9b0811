import RandomText.Proofs.Json.RoundTrip
import RandomText.Proofs.Yaml.Composing
import RandomText.Yaml.Value

/-!
# Filling the nodes of a written document

A graph that holds a value is filled round by round: a node that was met is a scalar with its value, or a
collection that waits or has its cell, with everything it holds met as well. What a node holds is less high
than the node, so the rounds end with nothing waiting.
-/

namespace RandomText.Yaml

open RandomText.Yaml.Graph (Holds HoldsItems HoldsEntries)

/-! ### Heights -/

mutual

/-- How deep collections are nested in a value. -/
def height : Data → Nat
  | .list items => heightItems items + 1
  | .map entries => heightEntries entries + 1
  | _ => 0

def heightItems : List Data → Nat
  | [] => 0
  | v :: rest => max (height v) (heightItems rest)

def heightEntries : List (Data × Data) → Nat
  | [] => 0
  | (_, v) :: rest => max (height v) (heightEntries rest)

end

section holding

variable {g : Graph}

theorem Graph.Holds.lt_size {v : Data} {i : Nat} (h : Holds g v i) : i < g.size := by
  match v, h with
  | .bool _, h => exact h.1
  | .integer _, h => exact h.1
  | .text _, h => exact h.1
  | .list _, h => exact h.1
  | .map _, h => exact h.1

theorem Graph.Holds.eq_list {v : Data} {i : Nat} (h : Holds g v i) {numbers : List Nat}
    (hnode : g.node i = ⟨.seq, .sequence numbers⟩) :
    ∃ items, v = .list items ∧ HoldsItems g i items numbers := by
  match v, h with
  | .list items, ⟨_, numbers', hnode', hitems⟩ =>
    rw [hnode] at hnode'
    cases hnode'
    exact ⟨items, rfl, hitems⟩
  | .bool _, ⟨_, hnode'⟩ => cases hnode.symm.trans hnode'
  | .integer _, ⟨_, hnode'⟩ => cases hnode.symm.trans hnode'
  | .text _, ⟨_, hnode'⟩ => cases hnode.symm.trans hnode'
  | .map _, ⟨_, _, hnode', _⟩ => cases hnode.symm.trans hnode'

theorem Graph.Holds.eq_map {v : Data} {i : Nat} (h : Holds g v i) {numbers : List Entry}
    (hnode : g.node i = ⟨.map, .mapping numbers⟩) :
    ∃ entries, v = .map entries ∧ HoldsEntries g i entries numbers := by
  match v, h with
  | .map entries, ⟨_, numbers', hnode', hentries⟩ =>
    rw [hnode] at hnode'
    cases hnode'
    exact ⟨entries, rfl, hentries⟩
  | .bool _, ⟨_, hnode'⟩ => cases hnode.symm.trans hnode'
  | .integer _, ⟨_, hnode'⟩ => cases hnode.symm.trans hnode'
  | .text _, ⟨_, hnode'⟩ => cases hnode.symm.trans hnode'
  | .list _, ⟨_, _, hnode', _⟩ => cases hnode.symm.trans hnode'

mutual

theorem Graph.Holds.height_le {v : Data} {i : Nat} (h : Holds g v i) : i + height v ≤ g.size := by
  match v, h with
  | .bool _, ⟨hlt, _⟩ => exact Nat.le_of_lt hlt
  | .integer _, ⟨hlt, _⟩ => exact Nat.le_of_lt hlt
  | .text _, ⟨hlt, _⟩ => exact Nat.le_of_lt hlt
  | .list items, ⟨hlt, numbers, _, hitems⟩ =>
    have := HoldsItems.height_le hitems hlt
    simp only [height]
    omega
  | .map entries, ⟨hlt, numbers, _, hentries⟩ =>
    have := HoldsEntries.height_le hentries hlt
    simp only [height]
    omega

theorem Graph.HoldsItems.height_le {items : List Data} {numbers : List Nat} {i : Nat}
    (h : HoldsItems g i items numbers) (hi : i < g.size) : i + heightItems items < g.size := by
  match items, numbers, h with
  | [], [], _ => exact hi
  | v :: rest, k :: numbers, ⟨hlt, hv, hrest⟩ =>
    have hfirst := hv.height_le
    have hothers := HoldsItems.height_le hrest hi
    simp only [heightItems]
    omega

theorem Graph.HoldsEntries.height_le {entries : List (Data × Data)} {numbers : List Entry} {i : Nat}
    (h : HoldsEntries g i entries numbers) (hi : i < g.size) : i + heightEntries entries < g.size := by
  match entries, numbers, h with
  | [], [], _ => exact hi
  | (k, v) :: rest, e :: numbers, ⟨_, hlt, hv, hrest⟩ =>
    have hfirst := hv.height_le
    have hothers := HoldsEntries.height_le hrest hi
    simp only [heightEntries]
    omega

end

/-- A node holds a value that is read back from its document. -/
structure Carries (g : Graph) (v : Data) (i : Nat) : Prop where
  holds : Holds g v i
  storable : Storable v

theorem carries_items {items : List Data} {numbers : List Nat} {i : Nat}
    (h : HoldsItems g i items numbers) (hitems : StorableItems items) :
    ∀ k ∈ numbers, ∃ v, Carries g v k ∧ height v ≤ heightItems items := by
  induction items generalizing numbers with
  | nil =>
    cases numbers with
    | nil => nofun
    | cons k numbers => cases h
  | cons v items ih =>
    cases numbers with
    | nil => cases h
    | cons k numbers =>
      obtain ⟨-, hv, hrest⟩ := h
      obtain ⟨-, hstorable, hothers⟩ := hitems
      refine List.forall_mem_cons.mpr ⟨⟨v, ⟨hv, hstorable⟩, Nat.le_max_left _ _⟩, ?_⟩
      intro k hk
      obtain ⟨w, hw, hle⟩ := ih hrest hothers k hk
      exact ⟨w, hw, Nat.le_trans hle (Nat.le_max_right _ _)⟩

theorem faithful_of_isPlain {t : Text} (ht : Scalar.IsPlain t) : Scalar.Faithful t := by
  intro _ c hc hval
  have := Scalar.isBreak_of_isInner (ht.inner c hc)
  rw [Bool.eq_false_iff, ne_eq, isBreak_iff] at this
  omega

theorem tag_of_holds {v : Data} {i : Nat} (h : Holds g v i) :
    (g.tag i).isCollection = decide (0 < height v) := by
  match v, h with
  | .bool _, ⟨_, hnode⟩ => rw [Graph.tag, hnode]; rfl
  | .integer _, ⟨_, hnode⟩ => rw [Graph.tag, hnode]; rfl
  | .text _, ⟨_, hnode⟩ => rw [Graph.tag, hnode]; rfl
  | .list _, ⟨_, _, hnode, _⟩ => rw [Graph.tag, hnode]; simp [height, Tag.isCollection]
  | .map _, ⟨_, _, hnode, _⟩ => rw [Graph.tag, hnode]; simp [height, Tag.isCollection]

theorem scalarText_eq {i : Nat} {tag : Tag} {text : Text} (h : g.node i = ⟨tag, .scalar text⟩) :
    g.scalarText (g.size + 1) i = .ok text := by
  rw [Graph.scalarText, Graph.content, h]

theorem scalarValue_eq {v : Data} {i : Nat} (h : Carries g v i) (hheight : height v = 0) :
    g.scalarValue i = .ok v := by
  obtain ⟨hholds, hstorable⟩ := h
  match v, hholds with
  | .bool b, ⟨_, hnode⟩ =>
    rw [Graph.scalarValue, scalarText_eq hnode, Graph.tag, hnode]
    cases b <;> rfl
  | .integer n, ⟨_, hnode⟩ =>
    obtain ⟨k, rfl⟩ := Int.eq_ofNat_of_zero_le hstorable.1
    have hinteger := Scalar.toInteger_digits k hstorable.2
    rw [Graph.scalarValue, scalarText_eq hnode, Graph.tag, hnode]
    show (Scalar.toInteger (Numeral.digits k) >>= fun n => .ok (Data.integer n)) = _
    rw [hinteger]
    rfl
  | .text t, ⟨_, hnode⟩ =>
    rw [Graph.scalarValue, scalarText_eq hnode, Graph.tag, hnode]
    rfl
  | .list _, _ => cases hheight
  | .map _, _ => cases hheight

end holding

namespace Fill

/-! ### Meeting nodes -/

section meeting

variable {s : Filling} {i : Nat}

theorem get_eq (s : Filling) : (get : Fill Filling) s = .ok (s, s) := rfl

theorem cell?_eq (i : Nat) (s : Filling) : cell? i s = .ok (s.cells.getD i none, s) := rfl

theorem meet_of_met {cell : Cell} (h : s.cells.getD i none = some cell) : meet i s = .ok ((), s) := by
  rw [meet, StateT.bind_ok (cell?_eq i s), h]
  rfl

theorem meet_of_collection (h : s.cells.getD i none = none) (htag : (s.graph.tag i).isCollection = true) :
    meet i s = .ok ((), { s with
      cells := s.cells.setIfInBounds i (some (.start (s.graph.tag i)))
      waiting := i :: s.waiting }) := by
  rw [meet, StateT.bind_ok (cell?_eq i s), h]
  simp only []
  rw [StateT.bind_ok (get_eq _), if_pos htag]
  rfl

theorem meet_of_scalar {v : Data} (h : s.cells.getD i none = none)
    (htag : (s.graph.tag i).isCollection = false) (hvalue : s.graph.scalarValue i = .ok v) :
    meet i s = .ok ((), { s with cells := s.cells.setIfInBounds i (some (.leaf v)) }) := by
  rw [meet, StateT.bind_ok (cell?_eq i s), h]
  simp only []
  rw [StateT.bind_ok (get_eq _), if_neg (by rw [htag]; nofun), StateT.bind_ok (get_eq _), hvalue]
  rfl

end meeting

/-! ### What is known of the nodes -/

/-- The entries of a map, with the numbers of what they lead to. -/
def cellEntries (entries : List (Data × Data)) (numbers : List Entry) : List (Data × Nat) :=
  List.zipWith (fun e n => (e.1, n.2)) entries numbers

/-- The cell of a node is what the node holds, and what it holds was met. -/
def Filled (g : Graph) (cells : Array (Option Cell)) : Data → Nat → Prop
  | .list items, i => ∃ numbers, cells.getD i none = some (.list numbers) ∧ HoldsItems g i items numbers ∧
    ∀ k ∈ numbers, (cells.getD k none).isSome = true
  | .map entries, i => ∃ numbers, cells.getD i none = some (.map (cellEntries entries numbers)) ∧
    HoldsEntries g i entries numbers ∧ ∀ e ∈ numbers, (cells.getD e.2 none).isSome = true
  | v, i => cells.getD i none = some (.leaf v)

theorem Filled.congr {g : Graph} {cells cells' : Array (Option Cell)} {v : Data} {i : Nat}
    (h : Filled g cells v i) (hcell : cells'.getD i none = cells.getD i none)
    (hmet : ∀ k, (cells.getD k none).isSome = true → (cells'.getD k none).isSome = true) :
    Filled g cells' v i := by
  cases v with
  | list items =>
    obtain ⟨numbers, hlist, hitems, hall⟩ := h
    exact ⟨numbers, hcell.trans hlist, hitems, fun k hk => hmet k (hall k hk)⟩
  | map entries =>
    obtain ⟨numbers, hmap, hentries, hall⟩ := h
    exact ⟨numbers, hcell.trans hmap, hentries, fun e he => hmet _ (hall e he)⟩
  | _ => exact hcell.trans h

/-- While a graph is filled: what waits is at most as high as `h`, what is filled in this round may be
higher by one, and every other node that was met is filled. -/
structure Consistent (g : Graph) (now : List Nat) (h : Nat) (s : Filling) : Prop where
  graph_eq : s.graph = g
  size_eq : s.cells.size = g.size
  waits : ∀ i ∈ s.waiting, ∃ v, Carries g v i ∧ 0 < height v ∧ height v ≤ h
  now_fills : ∀ i ∈ now, ∃ v, Carries g v i ∧ 0 < height v ∧ height v ≤ h + 1
  known : ∀ i, (s.cells.getD i none).isSome = true →
    i ∈ s.waiting ∨ i ∈ now ∨ ∀ v, Carries g v i → Filled g s.cells v i

/-- The cells that are known stay as they are. -/
def Keeps (s s' : Filling) : Prop :=
  ∀ k cell, s.cells.getD k none = some cell → s'.cells.getD k none = some cell

section keeping

variable {g : Graph} {now : List Nat} {h : Nat} {s s' s'' : Filling} {v : Data} {i : Nat}

theorem Keeps.refl (s : Filling) : Keeps s s := fun _ _ hcell => hcell

theorem Keeps.trans (hs : Keeps s s') (hs' : Keeps s' s'') : Keeps s s'' :=
  fun k cell hcell => hs' k cell (hs k cell hcell)

theorem Keeps.met (hs : Keeps s s') {k : Nat} (hk : (s.cells.getD k none).isSome = true) :
    (s'.cells.getD k none).isSome = true := by
  obtain ⟨cell, hcell⟩ := Option.isSome_iff_exists.mp hk
  rw [hs k cell hcell]
  rfl

theorem getD_set_self {cells : Array (Option Cell)} (hi : i < cells.size) (cell : Cell) :
    (cells.setIfInBounds i (some cell)).getD i none = some cell := by
  simp [Array.getD_eq_getD_getElem?, hi]

theorem getD_set_of_ne {cells : Array (Option Cell)} {k : Nat} (hne : i ≠ k) (cell : Cell) :
    (cells.setIfInBounds i (some cell)).getD k none = cells.getD k none := by
  simp [Array.getD_eq_getD_getElem?, hne]

theorem met_set {cells : Array (Option Cell)} {k : Nat} (cell : Cell)
    (hk : (cells.getD k none).isSome = true) :
    ((cells.setIfInBounds i (some cell)).getD k none).isSome = true := by
  by_cases hne : i = k
  · subst hne
    have hlt : i < cells.size := by
      by_contra hge
      simp [Array.getD_eq_getD_getElem?, hge] at hk
    rw [getD_set_self hlt]
    rfl
  · rwa [getD_set_of_ne hne]

theorem Filled.set {cells : Array (Option Cell)} {k : Nat} (hfilled : Filled g cells v k) (hne : i ≠ k)
    (cell : Cell) : Filled g (cells.setIfInBounds i (some cell)) v k :=
  hfilled.congr (getD_set_of_ne hne cell) fun _ => met_set cell

theorem keeps_set (hcell : s.cells.getD i none = none) (cell : Cell) (waiting : List Nat) :
    Keeps s { s with cells := s.cells.setIfInBounds i (some cell), waiting } := by
  intro k cell' hk
  have hne : i ≠ k := by
    rintro rfl
    rw [hcell] at hk
    cases hk
  exact (getD_set_of_ne hne cell).trans hk

theorem Consistent.known_set (hs : Consistent g now h s) (cell : Cell) {k : Nat} (hne : i ≠ k)
    (hk : ((s.cells.setIfInBounds i (some cell)).getD k none).isSome = true) :
    k ∈ s.waiting ∨ k ∈ now ∨
      ∀ v, Carries g v k → Filled g (s.cells.setIfInBounds i (some cell)) v k := by
  rw [getD_set_of_ne hne] at hk
  rcases hs.known k hk with hwaiting | hnow | hfilled
  · exact .inl hwaiting
  · exact .inr (.inl hnow)
  · exact .inr (.inr fun v hv => (hfilled v hv).set hne cell)

theorem Consistent.meet_collection (hs : Consistent g now h s) (hv : Carries g v i) (hheight : height v ≤ h)
    (hcell : s.cells.getD i none = none) (hpositive : 0 < height v) :
    ∃ s', Fill.meet i s = .ok ((), s') ∧ Consistent g now h s' ∧ (s'.cells.getD i none).isSome = true ∧
      Keeps s s' := by
  have hi : i < s.cells.size := hs.size_eq ▸ hv.holds.lt_size
  have hwaits : (s.graph.tag i).isCollection = true := by
    rw [hs.graph_eq, tag_of_holds hv.holds, decide_eq_true hpositive]
  refine ⟨_, meet_of_collection hcell hwaits, ⟨hs.graph_eq, ?_, ?_, hs.now_fills, ?_⟩, ?_,
    keeps_set hcell _ _⟩
  · rw [Array.size_setIfInBounds, hs.size_eq]
  · exact List.forall_mem_cons.mpr ⟨⟨v, hv, hpositive, hheight⟩, hs.waits⟩
  · intro k hk
    by_cases hne : i = k
    · exact .inl (hne ▸ List.mem_cons_self)
    · rcases hs.known_set _ hne hk with hwaiting | hknown
      · exact .inl (List.mem_cons_of_mem i hwaiting)
      · exact .inr hknown
  · rw [getD_set_self hi]
    rfl

theorem filled_leaf {cells : Array (Option Cell)} {w : Data} (hv : Carries g v i) (hzero : height v = 0)
    (hcell : cells.getD i none = some (.leaf v)) (hw : Carries g w i) : Filled g cells w i := by
  -- The type of the node leaves only scalars, and its text only this one.
  have hheight : height w = 0 := by
    have := (tag_of_holds hw.holds).symm.trans (tag_of_holds hv.holds)
    simp only [decide_eq_decide] at this
    omega
  have hvalue := scalarValue_eq hw hheight
  rw [scalarValue_eq hv hzero] at hvalue
  obtain rfl := Except.ok.inj hvalue
  cases v with
  | list items => cases hzero
  | map entries => cases hzero
  | _ => exact hcell

theorem Consistent.meet_scalar (hs : Consistent g now h s) (hv : Carries g v i)
    (hcell : s.cells.getD i none = none) (hzero : height v = 0) :
    ∃ s', Fill.meet i s = .ok ((), s') ∧ Consistent g now h s' ∧ (s'.cells.getD i none).isSome = true ∧
      Keeps s s' := by
  have hi : i < s.cells.size := hs.size_eq ▸ hv.holds.lt_size
  have hscalar : (s.graph.tag i).isCollection = false := by
    rw [hs.graph_eq, tag_of_holds hv.holds, hzero]
    rfl
  have hvalue : s.graph.scalarValue i = .ok v := by
    rw [hs.graph_eq]
    exact scalarValue_eq hv hzero
  refine ⟨_, meet_of_scalar hcell hscalar hvalue, ⟨hs.graph_eq, ?_, hs.waits, hs.now_fills, ?_⟩, ?_,
    keeps_set hcell _ _⟩
  · rw [Array.size_setIfInBounds, hs.size_eq]
  · intro k hk
    by_cases hne : i = k
    · subst hne
      exact .inr (.inr fun w hw => filled_leaf hv hzero (getD_set_self hi _) hw)
    · exact hs.known_set _ hne hk
  · rw [getD_set_self hi]
    rfl

theorem Consistent.meet (hs : Consistent g now h s) (hv : Carries g v i) (hheight : height v ≤ h) :
    ∃ s', Fill.meet i s = .ok ((), s') ∧ Consistent g now h s' ∧ (s'.cells.getD i none).isSome = true ∧
      Keeps s s' := by
  cases hcell : s.cells.getD i none with
  | some cell => exact ⟨s, meet_of_met hcell, hs, by rw [hcell]; rfl, Keeps.refl s⟩
  | none =>
    by_cases hpositive : 0 < height v
    · exact hs.meet_collection hv hheight hcell hpositive
    · exact hs.meet_scalar hv hcell (by omega)

theorem Consistent.meetAll (hs : Consistent g now h s) {numbers : List Nat}
    (hnumbers : ∀ k ∈ numbers, ∃ v, Carries g v k ∧ height v ≤ h) :
    ∃ s', numbers.forM Fill.meet s = .ok ((), s') ∧ Consistent g now h s' ∧
      (∀ k ∈ numbers, (s'.cells.getD k none).isSome = true) ∧ Keeps s s' := by
  induction numbers generalizing s with
  | nil => exact ⟨s, rfl, hs, nofun, Keeps.refl s⟩
  | cons k numbers ih =>
    obtain ⟨⟨v, hv, hheight⟩, hnumbers⟩ := List.forall_mem_cons.mp hnumbers
    obtain ⟨s', hmeet, hs', hmet, hkeeps⟩ := hs.meet hv hheight
    obtain ⟨s'', hothers, hs'', hall, hkeeps'⟩ := ih hs' hnumbers
    refine ⟨s'', ?_, hs'', List.forall_mem_cons.mpr ⟨hkeeps'.met hmet, hall⟩, hkeeps.trans hkeeps'⟩
    exact (StateT.bind_ok hmeet).trans hothers

theorem Consistent.leaf (hs : Consistent g now h s) {t : Text} (ht : Carries g (.text t) i)
    (hmet : (s.cells.getD i none).isSome = true) : s.cells.getD i none = some (.leaf (.text t)) := by
  have hscalar : ∀ w, Carries g w i → ¬0 < height w := by
    intro w hw hpositive
    have := (tag_of_holds hw.holds).symm.trans (tag_of_holds ht.holds)
    rw [decide_eq_true hpositive] at this
    cases this
  rcases hs.known i hmet with hwaiting | hnow | hfilled
  · obtain ⟨w, hw, hpositive, -⟩ := hs.waits i hwaiting
    exact absurd hpositive (hscalar w hw)
  · obtain ⟨w, hw, hpositive, -⟩ := hs.now_fills i hnow
    exact absurd hpositive (hscalar w hw)
  · exact hfilled _ ht

theorem Consistent.key (hs : Consistent g now h s) {name : Text} (hname : Carries g (.text name) i) :
    ∃ s', Fill.key i s = .ok (.text name, s') ∧ Consistent g now h s' ∧ Keeps s s' := by
  obtain ⟨s', hmeet, hs', hmet, hkeeps⟩ := hs.meet hname (Nat.zero_le h)
  refine ⟨s', ?_, hs', hkeeps⟩
  have hcell := hs'.leaf hname hmet
  have htag : s'.graph.tag i = .str := by
    rw [hs'.graph_eq, Graph.tag, hname.holds.2]
  rw [Fill.key, StateT.bind_ok hmeet, StateT.bind_ok (cell?_eq i s'), hcell]
  simp only []
  rw [StateT.bind_ok (get_eq _), if_neg (by rw [htag]; nofun)]
  rfl

theorem equal_key {entries : List (Data × Data)} (hentries : StorableEntries entries) {name : Text}
    {e : Data × Data} (he : e ∈ entries) (hne : Data.text name ≠ e.1) :
    (Data.text name).equal e.1 = false := by
  induction entries with
  | nil => cases he
  | cons first entries ih =>
    obtain ⟨⟨name', hname, -⟩, -, hrest⟩ := hentries
    rcases List.mem_cons.mp he with rfl | he
    · rw [hname] at hne ⊢
      exact decide_eq_false fun heq => hne (congrArg Data.text heq)
    · exact ih hrest he

/-- Adds an entry of a mapping to those that are known. -/
def addEntry (known : List (Data × Nat)) (e : Entry) : Fill (List (Data × Nat)) := do
  let key ← Fill.key e.1
  Fill.meet e.2
  return Data.insert key e.2 known

theorem Consistent.addEntries (hs : Consistent g now h s) {entries : List (Data × Data)}
    {numbers : List Entry} (hentries : HoldsEntries g i entries numbers)
    (hstorable : StorableEntries entries) (hheight : heightEntries entries ≤ h)
    (hnodup : (entries.map Prod.fst).Nodup) (known : List (Data × Nat))
    (hknown : ∀ e ∈ known, ∀ e' ∈ entries, e.1.equal e'.1 = false) :
    ∃ s', numbers.foldlM addEntry known s = .ok (known ++ cellEntries entries numbers, s') ∧
      Consistent g now h s' ∧ (∀ e ∈ numbers, (s'.cells.getD e.2 none).isSome = true) ∧ Keeps s s' := by
  induction entries generalizing s known numbers with
  | nil =>
    cases numbers with
    | nil =>
      refine ⟨s, ?_, hs, nofun, Keeps.refl s⟩
      rw [cellEntries, List.zipWith_nil_left, List.append_nil]
      rfl
    | cons n numbers => cases hentries
  | cons e entries ih =>
    obtain ⟨k, v⟩ := e
    cases numbers with
    | nil => cases hentries
    | cons n numbers =>
      obtain ⟨⟨name, rfl, -, hlt, hnode⟩, -, hv, hothers⟩ := hentries
      obtain ⟨⟨name', hname, hkey⟩, hvstorable, hrest⟩ := hstorable
      obtain rfl := Data.text.inj hname
      obtain ⟨hnew, hnodup⟩ := List.nodup_cons.mp hnodup
      have hcarries : Carries g (.text name) n.1 := ⟨⟨hlt, hnode⟩, faithful_of_isPlain hkey.plain⟩
      obtain ⟨s₁, hread, hs₁, hkeeps₁⟩ := hs.key hcarries
      obtain ⟨s₂, hmeet, hs₂, hmet, hkeeps₂⟩ :=
        hs₁.meet ⟨hv, hvstorable⟩ (Nat.le_trans (Nat.le_max_left _ _) hheight)
      have habsent : Data.insert (.text name) n.2 known = known ++ [(.text name, n.2)] :=
        Json.insert_of_absent fun e he => hknown e he _ List.mem_cons_self
      have hknown' : ∀ e ∈ known ++ [(Data.text name, n.2)], ∀ e' ∈ entries, e.1.equal e'.1 = false := by
        intro e he e' he'
        rcases List.mem_append.mp he with he | he
        · exact hknown e he e' (List.mem_cons_of_mem _ he')
        · obtain rfl := List.mem_singleton.mp he
          apply equal_key hrest he'
          intro heq
          exact hnew (List.mem_map.mpr ⟨e', he', heq.symm⟩)
      obtain ⟨s₃, hfold, hs₃, hall, hkeeps₃⟩ :=
        ih hs₂ hothers hrest (Nat.le_trans (Nat.le_max_right _ _) hheight) hnodup _ hknown'
      refine ⟨s₃, ?_, hs₃, List.forall_mem_cons.mpr ⟨hkeeps₃.met hmet, hall⟩,
        (hkeeps₁.trans hkeeps₂).trans hkeeps₃⟩
      have hfirst : addEntry known n s = .ok (known ++ [(.text name, n.2)], s₂) := by
        rw [addEntry, StateT.bind_ok hread, StateT.bind_ok hmeet, habsent]
        rfl
      rw [List.foldlM_cons, StateT.bind_ok hfirst, hfold, List.append_assoc]
      rfl

theorem cellEntries_eq {entries entries' : List (Data × Data)} {numbers : List Entry}
    (h : HoldsEntries g i entries numbers) (h' : HoldsEntries g i entries' numbers) :
    cellEntries entries numbers = cellEntries entries' numbers := by
  induction numbers generalizing entries entries' with
  | nil => rw [cellEntries, cellEntries, List.zipWith_nil_right, List.zipWith_nil_right]
  | cons n numbers ih =>
    match entries, entries', h, h' with
    | (_, v) :: entries, (_, v') :: entries', ⟨⟨name, rfl, _, _, hnode⟩, _, _, hrest⟩,
        ⟨⟨name', rfl, _, _, hnode'⟩, _, _, hrest'⟩ =>
      rw [hnode] at hnode'
      obtain rfl : name = name' := by injection hnode' with _ hcontent; injection hcontent
      exact congrArg ((Data.text name, n.2) :: ·) (ih hrest hrest')

/-! ### Filling a collection -/

theorem merge_eq (fuel : Nat) {numbers : List Entry} (hentries : s.graph.entries i = numbers)
    (hkeys : ∀ e ∈ numbers, s.graph.tag e.1 = .str) : merge (fuel + 1) i s = .ok ((), s) := by
  have hpassed : numbers.takeWhile (fun e => !s.graph.isMerge e) = numbers := by
    rw [List.takeWhile_eq_self_iff]
    intro e he
    simp [Graph.isMerge, hkeys e he]
  have hplain : ∀ passed : List Entry, (∀ e ∈ passed, s.graph.tag e.1 = .str) →
      Graph.withPlainKeys passed s.graph = s.graph := by
    intro passed hpassed
    induction passed with
    | nil => rfl
    | cons e passed ih =>
      obtain ⟨he, hrest⟩ := List.forall_mem_cons.mp hpassed
      rw [Graph.withPlainKeys, List.foldl_cons, if_neg (by rw [he]; nofun)]
      exact ih hrest
  have hmerge : (Graph.mergeFrom (fuel + 1) i 0 []).run s.graph = .ok ((), s.graph) := by
    have hget : (get : Graph.Change Graph) s.graph = .ok (s.graph, s.graph) := rfl
    have hmodify : (modify (Graph.withPlainKeys numbers) : Graph.Change Unit) s.graph =
        .ok ((), s.graph) := by
      show Except.ok ((), Graph.withPlainKeys numbers s.graph) = _
      rw [hplain numbers hkeys]
    rw [StateT.run, Graph.mergeFrom, StateT.bind_ok hget]
    simp only [hentries, List.drop_zero, hpassed]
    rw [StateT.bind_ok hmodify, Nat.zero_add, List.drop_length]
    rfl
  rw [merge, StateT.bind_ok (get_eq _), hmerge]
  rfl

theorem tag_of_holdsEntries {entries : List (Data × Data)} {numbers : List Entry}
    (h : HoldsEntries g i entries numbers) : ∀ e ∈ numbers, g.tag e.1 = .str := by
  induction numbers generalizing entries with
  | nil => nofun
  | cons n numbers ih =>
    match entries, h with
    | _ :: _, ⟨⟨_, _, _, _, hnode⟩, _, _, hrest⟩ =>
      exact List.forall_mem_cons.mpr ⟨by rw [Graph.tag, hnode], ih hrest⟩

theorem Consistent.setCell (hs : Consistent g (i :: now) h s) (cell : Cell)
    (hfilled : ∀ w, Carries g w i → Filled g (s.cells.setIfInBounds i (some cell)) w i) :
    Consistent g now h { s with cells := s.cells.setIfInBounds i (some cell) } := by
  refine ⟨hs.graph_eq, ?_, hs.waits, (List.forall_mem_cons.mp hs.now_fills).2, ?_⟩
  · rw [Array.size_setIfInBounds, hs.size_eq]
  · intro k hk
    by_cases hne : i = k
    · subst hne
      exact .inr (.inr hfilled)
    · rcases hs.known_set _ hne hk with hwaiting | hnow | hknown
      · exact .inl hwaiting
      · exact .inr (.inl ((List.mem_cons.mp hnow).resolve_left (Ne.symm hne)))
      · exact .inr (.inr hknown)

theorem Consistent.fill_list (hs : Consistent g (i :: now) h s) {items : List Data}
    (hv : Carries g (.list items) i) (hheight : heightItems items ≤ h) (fuel : Nat) :
    ∃ s', Fill.fill fuel i s = .ok ((), s') ∧ Consistent g now h s' ∧
      ∀ k, (s.cells.getD k none).isSome = true → (s'.cells.getD k none).isSome = true := by
  obtain ⟨⟨hlt, numbers, hnode, hitems⟩, hstorable⟩ := hv
  have hnumbers : ∀ k ∈ numbers, ∃ v, Carries g v k ∧ height v ≤ h := by
    intro k hk
    obtain ⟨w, hw, hle⟩ := carries_items hitems hstorable k hk
    exact ⟨w, hw, Nat.le_trans hle hheight⟩
  obtain ⟨s₁, hall, hs₁, hmet, hkeeps⟩ := hs.meetAll hnumbers
  have hitemsOf : Fill.items i s = .ok (numbers, s) := by
    rw [Fill.items, StateT.bind_ok (get_eq s), hs.graph_eq, Graph.content, hnode]
    rfl
  refine ⟨_, ?_, hs₁.setCell (.list numbers) ?_, fun k hk => met_set _ (hkeeps.met hk)⟩
  · rw [Fill.fill, StateT.bind_ok (get_eq s), hs.graph_eq, Graph.tag, hnode]
    simp only []
    rw [StateT.bind_ok hitemsOf, StateT.bind_ok hall]
    rfl
  · intro w hw
    have hsize : i < s₁.cells.size := hs₁.size_eq ▸ hlt
    obtain ⟨items', rfl, hitems'⟩ := hw.holds.eq_list hnode
    exact ⟨numbers, getD_set_self hsize _, hitems', fun k hk => met_set _ (hmet k hk)⟩

theorem Consistent.fill_map (hs : Consistent g (i :: now) h s) {entries : List (Data × Data)}
    (hv : Carries g (.map entries) i) (hheight : heightEntries entries ≤ h) (fuel : Nat) :
    ∃ s', Fill.fill (fuel + 1) i s = .ok ((), s') ∧ Consistent g now h s' ∧
      ∀ k, (s.cells.getD k none).isSome = true → (s'.cells.getD k none).isSome = true := by
  obtain ⟨⟨hlt, numbers, hnode, hentries⟩, -, hnodup, hstorable⟩ := hv
  obtain ⟨s₁, hfold, hs₁, hmet, hkeeps⟩ := hs.addEntries hentries hstorable hheight hnodup [] nofun
  have hnumbers : s.graph.entries i = numbers := by
    rw [hs.graph_eq, Graph.entries, Graph.content, hnode]
  have hmerge : merge (fuel + 1) i s = .ok ((), s) := by
    refine merge_eq fuel hnumbers ?_
    rw [hs.graph_eq]
    exact tag_of_holdsEntries hentries
  have hentriesOf : Fill.entries (fuel + 1) i s = .ok (cellEntries entries numbers, s₁) := by
    rw [Fill.entries, StateT.bind_ok (get_eq s), hs.graph_eq, Graph.content, hnode]
    simp only []
    rw [StateT.bind_ok hmerge, StateT.bind_ok (get_eq s), hnumbers]
    exact hfold
  refine ⟨_, ?_, hs₁.setCell (.map (cellEntries entries numbers)) ?_,
    fun k hk => met_set _ (hkeeps.met hk)⟩
  · rw [Fill.fill, StateT.bind_ok (get_eq s), hs.graph_eq, Graph.tag, hnode]
    simp only []
    rw [StateT.bind_ok hentriesOf]
    rfl
  · intro w hw
    have hsize : i < s₁.cells.size := hs₁.size_eq ▸ hlt
    obtain ⟨entries', rfl, hentries'⟩ := hw.holds.eq_map hnode
    rw [cellEntries_eq hentries hentries']
    exact ⟨numbers, getD_set_self hsize _, hentries', fun e he => met_set _ (hmet e he)⟩

theorem Consistent.fill (hs : Consistent g (i :: now) h s) (fuel : Nat) :
    ∃ s', Fill.fill (fuel + 1) i s = .ok ((), s') ∧ Consistent g now h s' ∧
      ∀ k, (s.cells.getD k none).isSome = true → (s'.cells.getD k none).isSome = true := by
  obtain ⟨v, hv, hpositive, hheight⟩ := hs.now_fills i List.mem_cons_self
  match v, hv with
  | .list items, hv => exact hs.fill_list hv (Nat.le_of_succ_le_succ hheight) (fuel + 1)
  | .map entries, hv => exact hs.fill_map hv (Nat.le_of_succ_le_succ hheight) fuel
  | .bool _, _ => cases hpositive
  | .integer _, _ => cases hpositive
  | .text _, _ => cases hpositive

theorem Consistent.round (fuel : Nat) {now : List Nat} {s : Filling} (hs : Consistent g now h s) :
    ∃ s', now.forM (Fill.fill (fuel + 1)) s = .ok ((), s') ∧ Consistent g [] h s' ∧
      ∀ k, (s.cells.getD k none).isSome = true → (s'.cells.getD k none).isSome = true := by
  induction now generalizing s with
  | nil => exact ⟨s, rfl, hs, fun _ hk => hk⟩
  | cons i now ih =>
    obtain ⟨s₁, hfill, hs₁, hmet₁⟩ := hs.fill fuel
    obtain ⟨s₂, hothers, hs₂, hmet₂⟩ := ih hs₁
    exact ⟨s₂, (StateT.bind_ok hfill).trans hothers, hs₂, fun k hk => hmet₂ k (hmet₁ k hk)⟩

theorem Consistent.next (hs : Consistent g [] (h + 1) s) :
    Consistent g s.waiting.reverse h { s with waiting := [] } := by
  refine ⟨hs.graph_eq, hs.size_eq, nofun, ?_, ?_⟩
  · intro i hi
    exact hs.waits i (List.mem_reverse.mp hi)
  · intro i hi
    rcases hs.known i hi with hwaiting | hnow | hfilled
    · exact .inr (.inl (List.mem_reverse.mpr hwaiting))
    · cases hnow
    · exact .inr (.inr hfilled)

theorem Consistent.ended (hs : Consistent g [] h s) (hempty : s.waiting = []) :
    ∀ k, (s.cells.getD k none).isSome = true → ∀ v, Carries g v k → Filled g s.cells v k := by
  intro k hk
  rcases hs.known k hk with hwaiting | hnow | hfilled
  · rw [hempty] at hwaiting
    cases hwaiting
  · cases hnow
  · exact hfilled

/-- **Filling ends**: after as many rounds as what waits is high, every node that was met is filled. -/
theorem Consistent.fillAll (fuel : Nat) {rounds h : Nat} {s : Filling} (hs : Consistent g [] h s)
    (hrounds : h ≤ rounds) :
    ∃ s', fillAll (fuel + 1) rounds s = .ok ((), s') ∧
      (∀ k, (s.cells.getD k none).isSome = true → (s'.cells.getD k none).isSome = true) ∧
      ∀ k, (s'.cells.getD k none).isSome = true → ∀ v, Carries g v k → Filled g s'.cells v k := by
  induction rounds generalizing h s with
  | zero =>
    have hempty : s.waiting = [] := by
      rw [List.eq_nil_iff_forall_not_mem]
      intro i hi
      obtain ⟨v, -, hpositive, hheight⟩ := hs.waits i hi
      omega
    exact ⟨s, rfl, fun _ hk => hk, hs.ended hempty⟩
  | succ rounds ih =>
    cases hwaiting : s.waiting with
    | nil =>
      refine ⟨s, ?_, fun _ hk => hk, hs.ended hwaiting⟩
      rw [Fill.fillAll, StateT.bind_ok (get_eq s), hwaiting]
      rfl
    | cons first others =>
      obtain ⟨v, -, hpositive, hheight⟩ := hs.waits first (hwaiting ▸ List.mem_cons_self)
      obtain ⟨h', rfl⟩ : ∃ h', h = h' + 1 := ⟨h - 1, by omega⟩
      obtain ⟨s₁, hround, hs₁, hmet₁⟩ := hs.next.round fuel
      obtain ⟨s₂, hrest, hmet₂, hfilled⟩ := ih hs₁ (by omega)
      refine ⟨s₂, ?_, fun k hk => hmet₂ k (hmet₁ k hk), hfilled⟩
      have hset : (set { s with waiting := [] } : Fill Unit) s = .ok ((), { s with waiting := [] }) := rfl
      rw [Fill.fillAll, StateT.bind_ok (get_eq s), if_neg (by rw [hwaiting]; nofun), StateT.bind_ok hset,
        StateT.bind_ok hround]
      exact hrest

end keeping

end Fill

end RandomText.Yaml
