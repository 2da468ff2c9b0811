import RandomText.Proofs.Yaml.Filling

/-!
# Written values are read back

Unfolding the cells of a document whose nodes are filled gives its value: after `k` rounds what is at most
`k` high is complete, and what is higher is not. There are enough rounds, because on the way down from a node
every collection has a cell of its own. With that, what was written is read back (`read_write`).
-/

namespace RandomText.Yaml

open RandomText.Yaml.Graph (Holds HoldsItems HoldsEntries)
open Fill (Filled cellEntries)

/-- What a node shows of its value after `k` rounds: all of it if it is at most `k` high, and else only that
something is missing. -/
def Shows (k : Nat) (v : Data) (u : Unfolding) : Prop :=
  (height v ≤ k → u = ⟨v, true⟩) ∧ (k < height v → u.complete = false)

/-- Every node that was met is filled. -/
def AllFilled (g : Graph) (cells : Array (Option Cell)) : Prop :=
  ∀ i, (cells.getD i none).isSome = true → ∀ v, Carries g v i → Filled g cells v i

/-- The cells of a document; a node that was not met has none of its own. -/
def fullCells (cells : Array (Option Cell)) : Array Cell := cells.map fun cell => cell.getD (.leaf .null)

section unfolding

variable {g : Graph} {cells : Array (Option Cell)} {v : Data} {i k : Nat}

theorem lt_size_of_met {cell : Cell} (h : cells.getD i none = some cell) : i < cells.size := by
  by_contra hge
  simp [Array.getD_eq_getD_getElem?, hge] at h

theorem getElem?_fullCells {cell : Cell} (h : cells.getD i none = some cell) :
    (fullCells cells)[i]? = some cell := by
  have hi := lt_size_of_met h
  rw [Array.getD_eq_getD_getElem?, Array.getElem?_eq_getElem hi, Option.getD_some] at h
  rw [fullCells, Array.getElem?_map, Array.getElem?_eq_getElem hi, h]
  rfl

theorem getD_map_fullCells {cell : Cell} (h : cells.getD i none = some cell) (f : Cell → Unfolding) :
    ((fullCells cells).map f).getD i ⟨.null, true⟩ = f cell := by
  rw [Array.getD_eq_getD_getElem?, Array.getElem?_map, getElem?_fullCells h]
  rfl

section looking

variable {look : Nat → Unfolding}
  (hlook : ∀ j w, (cells.getD j none).isSome = true → Carries g w j → Shows k w (look j))

include hlook

theorem shows_items {items : List Data} {numbers : List Nat} (h : HoldsItems g i items numbers)
    (hitems : StorableItems items) (hmet : ∀ j ∈ numbers, (cells.getD j none).isSome = true) :
    (heightItems items ≤ k → numbers.map look = items.map (⟨·, true⟩)) ∧
      (k < heightItems items → (numbers.map look).all (·.complete) = false) := by
  induction items generalizing numbers with
  | nil =>
    cases numbers with
    | nil => exact ⟨fun _ => rfl, nofun⟩
    | cons j numbers => cases h
  | cons w items ih =>
    cases numbers with
    | nil => cases h
    | cons j numbers =>
      obtain ⟨-, hw, hrest⟩ := h
      obtain ⟨-, hstorable, hothers⟩ := hitems
      obtain ⟨hj, hmet⟩ := List.forall_mem_cons.mp hmet
      obtain ⟨hlow, hhigh⟩ := hlook j w hj ⟨hw, hstorable⟩
      obtain ⟨hlows, hhighs⟩ := ih hrest hothers hmet
      simp only [heightItems, List.map_cons, List.all_cons]
      refine ⟨fun hle => ?_, fun hlt => ?_⟩
      · rw [hlow (by omega), hlows (by omega)]
      · rcases Nat.lt_or_ge k (height w) with hfirst | hfirst
        · rw [hhigh hfirst, Bool.false_and]
        · rw [hhighs (by omega), Bool.and_false]

theorem shows_entries {entries : List (Data × Data)} {numbers : List Entry}
    (h : HoldsEntries g i entries numbers) (hentries : StorableEntries entries)
    (hmet : ∀ e ∈ numbers, (cells.getD e.2 none).isSome = true) :
    (heightEntries entries ≤ k → (cellEntries entries numbers).map (fun e => (e.1, look e.2)) =
      entries.map fun e => (e.1, ⟨e.2, true⟩)) ∧
      (k < heightEntries entries →
        ((cellEntries entries numbers).map fun e => (e.1, look e.2)).all (·.2.complete) = false) := by
  induction entries generalizing numbers with
  | nil =>
    cases numbers with
    | nil => exact ⟨fun _ => rfl, nofun⟩
    | cons n numbers => cases h
  | cons e entries ih =>
    cases numbers with
    | nil => cases h
    | cons n numbers =>
      obtain ⟨key, w⟩ := e
      obtain ⟨-, -, hw, hrest⟩ := h
      obtain ⟨-, hstorable, hothers⟩ := hentries
      obtain ⟨hn, hmet⟩ := List.forall_mem_cons.mp hmet
      obtain ⟨hlow, hhigh⟩ := hlook n.2 w hn ⟨hw, hstorable⟩
      obtain ⟨hlows, hhighs⟩ := ih hrest hothers hmet
      rw [cellEntries] at hlows hhighs ⊢
      simp only [heightEntries, List.zipWith_cons_cons, List.map_cons, List.all_cons]
      refine ⟨fun hle => ?_, fun hlt => ?_⟩
      · rw [hlow (by omega), hlows (by omega)]
      · rcases Nat.lt_or_ge k (height w) with hfirst | hfirst
        · rw [hhigh hfirst, Bool.false_and]
        · rw [hhighs (by omega), Bool.and_false]

/-- **One more round** shows one level more of a node. -/
theorem shows_inside (hv : Carries g v i) (hfilled : Filled g cells v i) :
    ∃ cell, cells.getD i none = some cell ∧ Shows (k + 1) v (cell.inside look) := by
  obtain ⟨hholds, hstorable⟩ := hv
  match v, hholds with
  | .bool b, _ => exact ⟨_, hfilled, fun _ => rfl, nofun⟩
  | .integer n, _ => exact ⟨_, hfilled, fun _ => rfl, nofun⟩
  | .text t, _ => exact ⟨_, hfilled, fun _ => rfl, nofun⟩
  | .list items, _ =>
    obtain ⟨numbers, hcell, hitems, hmet⟩ := hfilled
    obtain ⟨hlow, hhigh⟩ := shows_items hlook hitems hstorable hmet
    refine ⟨_, hcell, ?_, ?_⟩
    · intro hle
      simp only [height] at hle
      simp [Cell.inside, hlow (by omega), Function.comp_def]
    · intro hlt
      simp only [height] at hlt
      exact hhigh (by omega)
  | .map entries, _ =>
    obtain ⟨numbers, hcell, hentries, hmet⟩ := hfilled
    obtain ⟨hlow, hhigh⟩ := shows_entries hlook hentries hstorable.2.2 hmet
    refine ⟨_, hcell, ?_, ?_⟩
    · intro hle
      simp only [height] at hle
      simp [Cell.inside, hlow (by omega), Function.comp_def]
    · intro hlt
      simp only [height] at hlt
      exact hhigh (by omega)

end looking

theorem shows_outside (hv : Carries g v i) (hfilled : Filled g cells v i) :
    ∃ cell, cells.getD i none = some cell ∧ Shows 0 v cell.outside := by
  match v, hv.holds with
  | .bool b, _ => exact ⟨_, hfilled, fun _ => rfl, nofun⟩
  | .integer n, _ => exact ⟨_, hfilled, fun _ => rfl, nofun⟩
  | .text t, _ => exact ⟨_, hfilled, fun _ => rfl, nofun⟩
  | .list items, _ =>
    obtain ⟨numbers, hcell, -⟩ := hfilled
    exact ⟨_, hcell, nofun, fun _ => rfl⟩
  | .map entries, _ =>
    obtain ⟨numbers, hcell, -⟩ := hfilled
    exact ⟨_, hcell, nofun, fun _ => rfl⟩

theorem unfolded_eq (hall : AllFilled g cells) (hv : Carries g v i)
    (hmet : (cells.getD i none).isSome = true) {rounds : Nat} {known : Array Unfolding}
    (hknown : ∀ j w, (cells.getD j none).isSome = true → Carries g w j →
      Shows k w (known.getD j ⟨.null, true⟩)) (hrounds : height v ≤ k + rounds) :
    Cell.unfolded (fullCells cells) i rounds known = v := by
  induction rounds generalizing k known with
  | zero =>
    have hshown := (hknown i v hmet hv).1 (by omega)
    rw [Cell.unfolded, hshown]
  | succ rounds ih =>
    rw [Cell.unfolded]
    by_cases hle : height v ≤ k
    · have hshown := (hknown i v hmet hv).1 hle
      rw [if_pos (by rw [hshown]), hshown]
    · have hmissing := (hknown i v hmet hv).2 (by omega)
      rw [if_neg (by rw [hmissing]; nofun)]
      refine ih (k := k + 1) ?_ (by omega)
      intro j w hj hw
      obtain ⟨cell, hcell, hshows⟩ := shows_inside hknown hw (hall j hj w hw)
      rw [getD_map_fullCells hcell]
      exact hshows

/-! ### The depth of a document -/

/-- How many cells from a number on are collections. -/
def collectionsFrom (cells : Array (Option Cell)) (i : Nat) : Nat :=
  ((fullCells cells).toList.drop i).countP Cell.isCollection

theorem collectionsFrom_le {j : Nat} (hle : i ≤ j) : collectionsFrom cells j ≤ collectionsFrom cells i :=
  (List.drop_sublist_drop_left _ hle).countP_le

theorem collectionsFrom_succ {cell : Cell} (hcell : cells.getD i none = some cell)
    (hcollection : cell.isCollection = true) :
    collectionsFrom cells i = collectionsFrom cells (i + 1) + 1 := by
  have hget : (fullCells cells).toList[i]? = some cell := by
    rw [Array.getElem?_toList, getElem?_fullCells hcell]
  obtain ⟨hlt, heq⟩ := List.getElem?_eq_some_iff.mp hget
  rw [collectionsFrom, List.drop_eq_getElem_cons hlt, heq, List.countP_cons_of_pos hcollection]
  rfl

end unfolding

section depth

variable {g : Graph} {cells : Array (Option Cell)}

mutual

/-- A node is at most as high as there are collections from it on. -/
theorem height_le_collectionsFrom (hall : AllFilled g cells) (v : Data) (i : Nat) (hv : Carries g v i)
    (hmet : (cells.getD i none).isSome = true) : height v ≤ collectionsFrom cells i := by
  match v, hv with
  | .bool _, _ => exact Nat.zero_le _
  | .integer _, _ => exact Nat.zero_le _
  | .text _, _ => exact Nat.zero_le _
  | .list items, hv =>
    obtain ⟨numbers, hcell, hitems, hheld⟩ := hall i hmet _ hv
    rw [height, collectionsFrom_succ hcell rfl]
    exact Nat.succ_le_succ (heightItems_le_collectionsFrom hall items numbers hitems hv.storable hheld)
  | .map entries, hv =>
    obtain ⟨numbers, hcell, hentries, hheld⟩ := hall i hmet _ hv
    have hstorable : StorableEntries entries := hv.storable.2.2
    rw [height, collectionsFrom_succ hcell rfl]
    exact Nat.succ_le_succ (heightEntries_le_collectionsFrom hall entries numbers hentries hstorable hheld)
  | .null, hv => exact hv.storable.elim
  | .float _, hv => exact hv.storable.elim
  | .bytes _, hv => exact hv.storable.elim
  | .date _, hv => exact hv.storable.elim
  | .moment _, hv => exact hv.storable.elim
  | .set _, hv => exact hv.storable.elim
  | .pair _ _, hv => exact hv.storable.elim
  | .cycle _, hv => exact hv.storable.elim

theorem heightItems_le_collectionsFrom (hall : AllFilled g cells) (items : List Data) (numbers : List Nat)
    {i : Nat} (h : HoldsItems g i items numbers) (hitems : StorableItems items)
    (hmet : ∀ j ∈ numbers, (cells.getD j none).isSome = true) :
    heightItems items ≤ collectionsFrom cells (i + 1) := by
  match items, numbers, h with
  | [], [], _ => exact Nat.zero_le _
  | w :: items, j :: numbers, ⟨hlt, hw, hrest⟩ =>
    have hcarries : Carries g w j := ⟨hw, hitems.2.1⟩
    have hfirst := height_le_collectionsFrom hall w j hcarries (hmet j List.mem_cons_self)
    have hothers := heightItems_le_collectionsFrom hall items numbers hrest hitems.2.2
      fun j hj => hmet j (List.mem_cons_of_mem _ hj)
    rw [heightItems]
    exact Nat.max_le.mpr ⟨Nat.le_trans hfirst (collectionsFrom_le hlt), hothers⟩

theorem heightEntries_le_collectionsFrom (hall : AllFilled g cells) (entries : List (Data × Data))
    (numbers : List Entry) {i : Nat} (h : HoldsEntries g i entries numbers)
    (hentries : StorableEntries entries) (hmet : ∀ e ∈ numbers, (cells.getD e.2 none).isSome = true) :
    heightEntries entries ≤ collectionsFrom cells (i + 1) := by
  match entries, numbers, h with
  | [], [], _ => exact Nat.zero_le _
  | (key, w) :: entries, n :: numbers, ⟨_, hlt, hw, hrest⟩ =>
    have hcarries : Carries g w n.2 := ⟨hw, hentries.2.1⟩
    have hfirst := height_le_collectionsFrom hall w n.2 hcarries (hmet n List.mem_cons_self)
    have hothers := heightEntries_le_collectionsFrom hall entries numbers hrest hentries.2.2
      fun e he => hmet e (List.mem_cons_of_mem _ he)
    rw [heightEntries]
    exact Nat.max_le.mpr ⟨Nat.le_trans hfirst (collectionsFrom_le hlt), hothers⟩

end

end depth

/-! ### Whole documents -/

/-- **A document whose root carries a value** has this value. -/
theorem Document.toData_eq {d : Document} {v : Data} (hv : Carries d.graph v d.root) :
    d.toData = .ok v := by
  let start : Filling := ⟨d.graph, Array.replicate d.graph.size none, []⟩
  have hnothing : ∀ i : Nat, (start.cells.getD i none) = none := by
    intro i
    simp only [start, Array.getD_eq_getD_getElem?, Array.getElem?_replicate]
    split <;> rfl
  have hstart : Fill.Consistent d.graph [] (height v) start := by
    refine ⟨rfl, Array.size_replicate, nofun, nofun, ?_⟩
    intro i hi
    rw [hnothing] at hi
    cases hi
  obtain ⟨s₁, hmeet, hs₁, hmet₁, -⟩ := hstart.meet hv (Nat.le_refl _)
  have hheight := hv.holds.height_le
  have hrounds : height v ≤ d.graph.size + 1 := by omega
  obtain ⟨s₂, hfill, hmet₂, hall⟩ := hs₁.fillAll d.graph.mergeCount hrounds
  have hmet := hmet₂ _ hmet₁
  have hdepth : height v ≤ ((fullCells s₂.cells).filter Cell.isCollection).size := by
    refine Nat.le_trans (height_le_collectionsFrom hall v d.root hv hmet) ?_
    refine Nat.le_trans (collectionsFrom_le (Nat.zero_le _)) ?_
    rw [collectionsFrom, List.drop_zero, Array.countP_toList, Array.countP_eq_size_filter]
  have houtside : ∀ j w, (s₂.cells.getD j none).isSome = true → Carries d.graph w j →
      Shows 0 w (((fullCells s₂.cells).map Cell.outside).getD j ⟨.null, true⟩) := by
    intro j w hj hw
    obtain ⟨cell, hcell, hshows⟩ := shows_outside hw (hall j hj w hw)
    rw [getD_map_fullCells hcell]
    exact hshows
  have hlevels : height v ≤ 0 + (((fullCells s₂.cells).filter Cell.isCollection).size + 4) := by omega
  have hvalue := unfolded_eq hall hv hmet houtside hlevels
  rw [Document.toData, StateT.run]
  show (((Fill.meet d.root >>= fun _ => Fill.fillAll _ _) start) >>= _) = _
  rw [StateT.bind_ok hmeet, hfill]
  exact congrArg Except.ok hvalue

/-- **Written maps are read back.** A map that can be stored is written as a text of characters that
documents may have, and reading this text gives the map. -/
theorem read_write {entries : List (Data × Data)} (h : Storable (.map entries)) :
    ∃ text, write (.map entries) = .ok text ∧ read text = .ok (.map entries) := by
  obtain ⟨text, document, hwrite, hallowed, hdocument, hholds⟩ := Reader.exists_ofText h
  refine ⟨text, hwrite, ?_⟩
  have hcharacters : text.any (fun c => !isAllowed c) = false := by
    rw [List.any_eq_false]
    intro c hc
    simp [hallowed c hc]
  have hdata := Document.toData_eq ⟨hholds, h⟩
  rw [read]
  simp only [isAllowed] at hcharacters
  rw [if_neg (by rw [hcharacters]; exact Bool.false_ne_true)]
  show (Document.ofText? text >>= _) = _
  rw [hdocument]
  exact hdata

end RandomText.Yaml
