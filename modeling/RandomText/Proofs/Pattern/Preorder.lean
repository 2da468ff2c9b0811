import RandomText.Proofs.Pattern.Closing
import RandomText.Proofs.Pattern.WellFormed

/-!
# Positions name the producing text

The positions of the nodes of an accepted pattern increase from each node to the next in reading order,
and at each of them stands the mark that the node was read from. A group gets its position when it is
closed, behind its children; what increases on the way are the marks of the open frames together with
the positions of all nodes in them (`marks`). Closing a frame turns its mark into that of a node and
changes nothing in this list, and every other token puts its own marks at the end of it.
-/

namespace RandomText

/-! ### Nodes in reading order -/

namespace Node

theorem preorderAll_append (xs ys : List Node) :
    preorderAll (xs ++ ys) = preorderAll xs ++ preorderAll ys := by
  induction xs with
  | nil => rfl
  | cons x xs ih => simp only [List.cons_append, preorderAll, ih, List.append_assoc]

theorem mem_preorderAll {node : Node} {nodes : List Node} :
    node ∈ preorderAll nodes ↔ ∃ child ∈ nodes, node ∈ child.preorder := by
  induction nodes with
  | nil => simp [preorderAll]
  | cons x xs ih => simp [preorderAll, ih]

theorem mem_preorderAll_reverse {node : Node} {nodes : List Node} :
    node ∈ preorderAll nodes.reverse ↔ node ∈ preorderAll nodes := by
  simp only [mem_preorderAll, List.mem_reverse]

theorem preorder_withRepeatCount (node : Node) (n : Nat) (h : 1 ≤ n) :
    ∃ inner, node.preorder = node :: inner ∧
      (node.withRepeatCount n h).preorder = node.withRepeatCount n h :: inner := by
  cases node with
  | leaf tag atom => exact ⟨[], rfl, rfl⟩
  | group tag kind children => exact ⟨preorderAll children, rfl, rfl⟩

/-- The positions of the nodes, each before those inside of it. -/
def positions (nodes : List Node) : List (Option Position) := (preorderAll nodes).map position

theorem positions_append (xs ys : List Node) : positions (xs ++ ys) = positions xs ++ positions ys := by
  rw [positions, preorderAll_append, List.map_append]
  rfl

theorem positions_group (position : Option Position) (kind : GroupKind) (children : List Node) :
    positions [.group (.once position) kind children] = position :: positions children := by
  simp only [positions, preorderAll, preorder, List.append_nil]
  rfl

theorem positions_withRepeatCount (node : Node) (n : Nat) (h : 1 ≤ n) :
    positions [node.withRepeatCount n h] = positions [node] := by
  obtain ⟨inner, hnode, hrepeated⟩ := preorder_withRepeatCount node n h
  simp only [positions, preorderAll, hnode, hrepeated, List.append_nil, List.map_cons,
    position_withRepeatCount]

end Node

namespace Pattern

/-! ### Marks of nodes -/

/-- What a leaf is read from begins at the index; a range begins behind a colon. -/
def AtomStandsAt (input : Text) (index : Nat) : Atom → Prop
  | .literal _ => input.HasAt index '"'
  | .any => input.HasAt index '.'
  | .alpha uppercase => input.HasAt index (if uppercase then 'A' else 'a')
  | .numeric => input.HasAt index '#'
  | .symbol => input.HasAt index '@'
  | .basicSymbol => input.HasAt index '$'
  | .sampleSet _ _ => input.HasAt index '['
  | .range _ _ _ | .charRange _ _ _ => ∃ i, index = i + 1 ∧ input.HasAt i ':'

/-- The bracket opens at the index, and all nodes stand before the place where it is closed. -/
def Bracket.Encloses (input : Text) (index : Nat) (children : List Node) (b : Bracket) : Prop :=
  input.HasAt index b.opener ∧ ∃ last, b.closing? input index = some last ∧
    input.HasAt last b.closer ∧ ∀ node ∈ Node.preorderAll children, node.StandsIn (index + 1) last

/-- What a group is read from begins at the index. -/
def GroupStandsAt (input : Text) (index : Nat) (children : List Node) : GroupKind → Prop
  | .root => False
  | .sequence => Bracket.sequence.Encloses input index children ∨ input.HasAt index ':'
  | .choice => Bracket.choice.Encloses input index children

/-- The node has the position of what it is read from. -/
def Settings.Identifies (settings : Settings) (input : Text) (node : Node) : Prop :=
  ∃ index < input.length, node.position = settings.at input index ∧
    match node with
    | .leaf _ atom => AtomStandsAt input index atom
    | .group _ kind children => GroupStandsAt input index children kind

/-- The positions are those of increasing indices from `first` on and before `stop`. -/
def Settings.Increasing (settings : Settings) (input : Text) (first stop : Nat)
    (positions : List (Option Position)) : Prop :=
  ∃ indices : List Nat, positions = indices.map (settings.at input) ∧ indices.Pairwise (· < ·) ∧
    ∀ i ∈ indices, first ≤ i ∧ i < stop

variable {settings : Settings} {input : Text}

theorem Settings.Identifies.withRepeatCount {node : Node} (h : settings.Identifies input node) (n : Nat)
    (hpos : 1 ≤ n) : settings.Identifies input (node.withRepeatCount n hpos) := by
  cases node <;> exact h

theorem Settings.at_inj {i j : Nat} (h : settings.at input i = settings.at input j) : i = j := by
  cases h
  rfl

namespace Settings.Increasing

variable {first middle stop index : Nat} {xs ys : List (Option Position)}

theorem nil : settings.Increasing input first stop [] := ⟨[], rfl, .nil, nofun⟩

theorem single (h : index < stop) :
    settings.Increasing input index stop [settings.at input index] :=
  ⟨[index], rfl, List.pairwise_singleton _ _, by simpa using h⟩

theorem mono {first' stop' : Nat} (h : settings.Increasing input first stop xs) (hfirst : first' ≤ first)
    (hstop : stop ≤ stop') : settings.Increasing input first' stop' xs := by
  obtain ⟨indices, hxs, hpairwise, hbounds⟩ := h
  refine ⟨indices, hxs, hpairwise, fun i hi => ?_⟩
  obtain ⟨hle, hlt⟩ := hbounds i hi
  exact ⟨by omega, by omega⟩

theorem append (hxs : settings.Increasing input first middle xs)
    (hys : settings.Increasing input middle stop ys) (hfirst : first ≤ middle) (hstop : middle ≤ stop) :
    settings.Increasing input first stop (xs ++ ys) := by
  obtain ⟨is, rfl, his, hisBounds⟩ := hxs
  obtain ⟨js, rfl, hjs, hjsBounds⟩ := hys
  refine ⟨is ++ js, List.map_append.symm, List.pairwise_append.mpr ⟨his, hjs, ?_⟩, ?_⟩
  · intro i hi j hj
    exact Nat.lt_of_lt_of_le (hisBounds i hi).2 (hjsBounds j hj).1
  · intro i hi
    rcases List.mem_append.mp hi with hi | hi
    · exact ⟨(hisBounds i hi).1, Nat.lt_of_lt_of_le (hisBounds i hi).2 hstop⟩
    · exact ⟨Nat.le_trans hfirst (hjsBounds i hi).1, (hjsBounds i hi).2⟩

theorem behind (h : settings.Increasing input first stop (xs ++ settings.at input index :: ys)) :
    settings.Increasing input (index + 1) stop ys := by
  obtain ⟨indices, heq, hpairwise, hbounds⟩ := h
  obtain ⟨is, others, rfl, -, hothers⟩ := List.map_eq_append_iff.mp heq.symm
  obtain ⟨i, js, rfl, hi, rfl⟩ := List.map_eq_cons_iff.mp hothers
  obtain rfl := at_inj hi
  obtain ⟨-, hbehind, -⟩ := List.pairwise_append.mp hpairwise
  obtain ⟨hlt, hjs⟩ := List.pairwise_cons.mp hbehind
  refine ⟨js, rfl, hjs, fun j hj => ⟨hlt j hj, ?_⟩⟩
  exact (hbounds j (List.mem_append_right _ (List.mem_cons_of_mem _ hj))).2

theorem standsIn {nodes : List Node} (h : settings.Increasing input first stop (Node.positions nodes)) :
    ∀ node ∈ Node.preorderAll nodes, node.StandsIn first stop := by
  obtain ⟨indices, heq, -, hbounds⟩ := h
  intro node hnode
  have hposition : node.position ∈ indices.map (settings.at input) :=
    heq ▸ List.mem_map_of_mem hnode
  obtain ⟨i, hi, hat⟩ := List.mem_map.mp hposition
  obtain ⟨hle, hlt⟩ := hbounds i hi
  exact ⟨_, hat.symm, Int.ofNat_le.mpr hle, Int.ofNat_lt.mpr hlt⟩

end Settings.Increasing

/-! ### Tokens -/

namespace Token

variable {index stop : Nat} {c : CodePoint} {rest text : Text} {lexeme : Lexeme}

theorem standsAt_single (hmark : input.HasAt index c) {a : Atom}
    (h : (single? c).getD (.other c) = .atom a) : AtomStandsAt input index a := by
  unfold single? at h
  repeat' split at h
  all_goals cases h
  all_goals simp_all only [AtomStandsAt, Bool.false_eq_true, if_false, if_true]

theorem standsAt_of_first (hmark : input.HasAt index c) (h : first index c rest = .ok lexeme) {a : Atom}
    (hatom : lexeme.token = .atom a) : AtomStandsAt input index a := by
  rcases first_cases h with ⟨rfl, _, htoken⟩ | ⟨rfl, _, _, htoken⟩ | ⟨-, _, _, htoken⟩ |
    ⟨-, _, htoken, -⟩ | rfl
  · cases htoken.symm.trans hatom
    exact hmark
  · cases htoken.symm.trans hatom
    exact hmark
  · cases htoken.symm.trans hatom
  · cases htoken.symm.trans hatom
  · exact standsAt_single hmark hatom

theorem segments_behind_colons {leaves : List (Nat × Atom)} (htext : text = input.drop index)
    (hcolon : ∃ i, index = i + 1 ∧ input.HasAt i ':') (h : segments index text = (leaves, .ok stop)) :
    leaves.Pairwise (fun s t => s.1 < t.1) ∧ (∀ s ∈ leaves, index ≤ s.1) ∧
      ∀ s ∈ leaves, ∃ i, s.1 = i + 1 ∧ input.HasAt i ':' := by
  fun_induction segments index text generalizing leaves with
  | case1 => cases h
  | case2 => cases h
  | case3 => cases h
  | case4 index c rest e hupTo next leaf =>
    obtain ⟨rfl, -⟩ := Prod.mk.inj h
    simp only [List.pairwise_singleton, List.forall_mem_singleton]
    exact ⟨trivial, Nat.le_refl _, hcolon⟩
  | case5 index c rest e hupTo next leaf _ hstop others =>
    rename_i ih
    obtain ⟨rfl, hothers⟩ := Prod.mk.inj h
    obtain ⟨hbehind, hnext⟩ := colon_of_upTo htext hupTo hstop
    obtain ⟨hpairwise, hle, hcolons⟩ := ih hnext ⟨_, rfl, hbehind⟩ (Prod.ext rfl hothers)
    refine ⟨List.pairwise_cons.mpr ⟨fun s hs => ?_, hpairwise⟩, ?_, ?_⟩
    · exact Nat.lt_of_lt_of_le (by simp only [next]; omega) (hle s hs)
    · exact List.forall_mem_cons.mpr ⟨Nat.le_refl _, fun s hs =>
        Nat.le_trans (by simp only [next]; omega) (hle s hs)⟩
    · exact List.forall_mem_cons.mpr ⟨hcolon, hcolons⟩

theorem standsAt_of_isRange {a : Atom} (hrange : a.isRange = true)
    (hcolon : ∃ i, index = i + 1 ∧ input.HasAt i ':') : AtomStandsAt input index a := by
  cases a with
  | range | charRange => exact hcolon
  | literal | any | alpha | numeric | symbol | basicSymbol | sampleSet => cases hrange

theorem range_of_first (hmark : input.HasAt index c)
    (h : first index c (input.drop (index + 1)) = .ok lexeme) {leaves : List (Nat × Atom)}
    (htoken : lexeme.token = .range leaves) :
    leaves ≠ [] ∧ leaves.Pairwise (fun s t => s.1 < t.1) ∧
      ∀ s ∈ leaves, AtomStandsAt input s.1 s.2 := by
  rcases first_cases h with ⟨-, _, hother⟩ | ⟨-, _, _, hother⟩ | ⟨-, _, _, hother⟩ |
    ⟨rfl, leaves', hleaves, hsegments⟩ | rfl
  · cases htoken.symm.trans hother
  · cases htoken.symm.trans hother
  · cases htoken.symm.trans hother
  · cases htoken.symm.trans hleaves
    obtain ⟨hne, hsound⟩ := sound_of_segments hsegments
    obtain ⟨hpairwise, -, hcolons⟩ := segments_behind_colons rfl ⟨index, rfl, hmark⟩ hsegments
    exact ⟨hne, hpairwise, fun s hs => standsAt_of_isRange (hsound s hs).1 (hcolons s hs)⟩
  · unfold single? at htoken
    repeat' split at htoken
    all_goals cases htoken

end Token

/-! ### Frames -/

theorem Standing.hasAt_opener {bound : Nat} {top : Frame} {below : List Frame} {bracket : Bracket}
    (h : Standing input bound (top :: below)) (hkind : top.kind = .bracket bracket) :
    input.HasAt top.start bracket.opener := by
  cases h with
  | root hroot => cases hroot.symm.trans hkind
  | inner _ hopener =>
    rw [hkind] at hopener
    exact hopener

/-- The positions of the marks of the open frames, each before those of the nodes inside of it. -/
def marks (settings : Settings) (input : Text) : List Frame → List (Option Position)
  | [] => []
  | f :: below =>
    marks settings input below ++
      ((if f.kind = .root then [] else [settings.at input f.start]) ++ Node.positions f.children)

theorem marks_push (f : Frame) (node : Node) (below : List Frame) :
    marks settings input (f.push node :: below) =
      marks settings input (f :: below) ++ Node.positions [node] := by
  simp only [marks, Frame.children_push, Node.positions_append, List.append_assoc]
  rfl

theorem positions_segmentNodes (segments : List (Nat × Atom)) :
    Node.positions (Progress.segmentNodes settings input segments) =
      (segments.map Prod.fst).map (settings.at input) := by
  induction segments with
  | nil => rfl
  | cons s segments ih => exact congrArg (settings.at input s.1 :: ·) ih

/-- What stands on the stack is found in the text before `current`, in the order in which it was
read. -/
structure Traced (settings : Settings) (input : Text) (current : Nat) (frames : List Frame) : Prop where
  increasing : settings.Increasing input 0 current (marks settings input frames)
  identified : ∀ f ∈ frames, ∀ node ∈ Node.preorderAll f.latest, settings.Identifies input node

theorem identifies_range {index stop : Nat} (hcolon : input.HasAt index ':') (hstop : stop ≤ input.length)
    {segments : List (Nat × Atom)} (hne : segments ≠ [])
    (hwithin : Token.SegmentsWithin (index + 1) stop segments)
    (hpairwise : segments.Pairwise fun s t => s.1 < t.1)
    (hranges : ∀ s ∈ segments, AtomStandsAt input s.1 s.2) :
    let node := FrameKind.range.close (settings.at input index)
      (Progress.segmentNodes settings input segments)
    settings.Increasing input index stop (Node.positions [node]) ∧
      ∀ inner ∈ node.preorder, settings.Identifies input inner := by
  have hpositions : settings.Increasing input (index + 1) stop
      (Node.positions (Progress.segmentNodes settings input segments)) := by
    refine ⟨segments.map Prod.fst, positions_segmentNodes segments, List.pairwise_map.mpr hpairwise, ?_⟩
    intro i hi
    obtain ⟨s, hs, rfl⟩ := List.mem_map.mp hi
    exact hwithin s hs
  have hnodes : ∀ node ∈ Node.preorderAll (Progress.segmentNodes settings input segments),
      settings.Identifies input node := by
    intro node hnode
    obtain ⟨child, hchild, hnode⟩ := Node.mem_preorderAll.mp hnode
    obtain ⟨s, hs, rfl⟩ := List.mem_map.mp hchild
    obtain rfl := List.mem_singleton.mp hnode
    exact ⟨s.1, Nat.lt_of_lt_of_le (hwithin s hs).2 hstop, rfl, hranges s hs⟩
  have hlt : index + 1 ≤ stop := by
    obtain ⟨s, hs⟩ := List.exists_mem_of_ne_nil segments hne
    have hs := hwithin s hs
    omega
  match segments, hne, hpositions, hnodes with
  | [s], _, hpositions, hnodes =>
    exact ⟨hpositions.mono (Nat.le_succ _) (Nat.le_refl _), fun inner hinner =>
      hnodes inner (List.mem_append_left _ hinner)⟩
  | s :: t :: others, _, hpositions, hnodes =>
    refine ⟨?_, List.forall_mem_cons.mpr ⟨⟨index, hcolon.lt, rfl, .inr hcolon⟩, hnodes⟩⟩
    show settings.Increasing input index stop (Node.positions [.group _ _ _])
    rw [Node.positions_group]
    exact (Settings.Increasing.single (Nat.lt_succ_self index)).append hpositions (Nat.le_succ _) hlt

namespace Traced

variable {index stop : Nat} {f parent : Frame} {below frames : List Frame} {bracket : Bracket}

theorem mono (h : Traced settings input index frames) (hle : index ≤ stop) :
    Traced settings input stop frames :=
  ⟨h.increasing.mono (Nat.le_refl _) hle, h.identified⟩

theorem push (h : Traced settings input index (f :: below)) (hle : index ≤ stop) {node : Node}
    (hpositions : settings.Increasing input index stop (Node.positions [node]))
    (hnodes : ∀ inner ∈ node.preorder, settings.Identifies input inner) :
    Traced settings input stop (f.push node :: below) where
  increasing := by
    rw [marks_push]
    exact h.increasing.append hpositions (Nat.zero_le _) hle
  identified := by
    obtain ⟨htop, hbelow⟩ := List.forall_mem_cons.mp h.identified
    refine List.forall_mem_cons.mpr ⟨fun inner hinner => ?_, hbelow⟩
    rcases List.mem_append.mp hinner with hinner | hinner
    · exact hnodes inner hinner
    · exact htop inner hinner

theorem repeatLatest (h : Traced settings input index (f :: below)) {node : Node} {earlier : List Node}
    (hlatest : f.latest = node :: earlier) (count : Nat) (one_le : 1 ≤ count) :
    Traced settings input index ({ f with
      latest := node.withRepeatCount count one_le :: earlier
      lastRepeated := some earlier.length } :: below) := by
  obtain ⟨kind, start, latest, lastRepeated⟩ := f
  obtain rfl : latest = _ := hlatest
  obtain ⟨htop, hbelow⟩ := List.forall_mem_cons.mp h.identified
  refine ⟨?_, List.forall_mem_cons.mpr ⟨?_, hbelow⟩⟩
  · have hincreasing := h.increasing
    simp only [marks, Frame.children, List.reverse_cons, Node.positions_append,
      Node.positions_withRepeatCount] at hincreasing ⊢
    exact hincreasing
  · obtain ⟨inner, hnode, hrepeated⟩ := Node.preorder_withRepeatCount node count one_le
    simp only [Node.preorderAll, hnode, hrepeated, List.cons_append, List.forall_mem_cons] at htop ⊢
    exact ⟨htop.1.withRepeatCount count one_le, htop.2⟩

theorem enter (h : Traced settings input index frames) (hlt : index < stop) (bracket : Bracket) :
    Traced settings input stop (.opened (.bracket bracket) index :: frames) := by
  refine ⟨?_, List.forall_mem_cons.mpr ⟨nofun, h.identified⟩⟩
  have hmark : marks settings input (.opened (.bracket bracket) index :: frames) =
      marks settings input frames ++ [settings.at input index] := rfl
  exact hmark ▸ h.increasing.append (.single hlt) (Nat.zero_le _) (Nat.le_of_lt hlt)

theorem close (h : Traced settings input index (f :: parent :: below)) (hkind : f.kind = .bracket bracket)
    (hopener : input.HasAt f.start bracket.opener)
    (hfound : bracket.closing? input f.start = some index) (hcloser : input.HasAt index bracket.closer) :
    Traced settings input index
      (parent.push (.group (.once (settings.at input f.start)) bracket.groupKind f.children) :: below) := by
  obtain ⟨htop, hbelow⟩ := List.forall_mem_cons.mp h.identified
  obtain ⟨hparent, hbelow⟩ := List.forall_mem_cons.mp hbelow
  have hincreasing := h.increasing
  simp only [marks, hkind, reduceCtorEq, if_false, List.singleton_append] at hincreasing
  refine ⟨?_, List.forall_mem_cons.mpr ⟨?_, hbelow⟩⟩
  · rw [marks_push, Node.positions_group]
    simpa only [marks, List.append_assoc] using hincreasing
  · have hencloses : bracket.Encloses input f.start f.children :=
      ⟨hopener, index, hfound, hcloser, hincreasing.behind.standsIn⟩
    have hgroup : GroupStandsAt input f.start f.children bracket.groupKind := by
      cases bracket with
      | sequence => exact .inl hencloses
      | choice => exact hencloses
    intro node hnode
    rcases List.mem_append.mp hnode with hnode | hnode
    · rcases List.mem_cons.mp hnode with rfl | hinner
      · exact ⟨f.start, hopener.lt, rfl, hgroup⟩
      · exact htop node (Node.mem_preorderAll_reverse.mp hinner)
    · exact hparent node hnode

theorem moves {current : Nat} {p : Progress} {lexeme : Lexeme} {rest : List Lexeme}
    (h : Traced settings input current p.frames)
    (hreached : Reached settings input current p (lexeme :: rest))
    (hmoves : p.Moves settings input lexeme frames) : Traced settings input lexeme.stop frames := by
  obtain ⟨horderly, -, hscan⟩ := hreached.orderly
  obtain ⟨c, hmark, hindex, hlt, hstop, hbegins, hfirst, -⟩ := scan_drop_eq_cons hscan
  subst hindex
  have hmarked := Token.hasMark_of_first hfirst
  obtain ⟨index, token, stop⟩ := lexeme
  cases hmoves with
  | ignored => exact h.mono (Nat.le_of_lt hlt)
  | @atom a htoken =>
    have hatom := Token.standsAt_of_first hmark hfirst htoken
    refine h.push (Nat.le_of_lt hlt) (.single hlt) (List.forall_mem_singleton.mpr ?_)
    exact ⟨index, hmark.lt, rfl, hatom⟩
  | range htoken =>
    obtain ⟨hne, hpairwise, hranges⟩ := Token.range_of_first hmark hfirst htoken
    obtain rfl : token = _ := htoken
    obtain ⟨rfl, hwithin⟩ := hbegins
    obtain ⟨hpositions, hnodes⟩ := identifies_range hmark hstop hne hwithin hpairwise hranges
    exact h.push (Nat.le_of_lt hlt) hpositions hnodes
  | repeated htoken hlatest => exact (h.repeatLatest hlatest _ _).mono (Nat.le_of_lt hlt)
  | @opened bracket htoken => exact h.enter hlt bracket
  | @closed bracket parent below htoken hkind hbelow =>
    obtain rfl : token = _ := htoken
    obtain ⟨rfl, -⟩ : c = bracket.closer ∧ _ := hmarked
    have hopener := horderly.standing.hasAt_opener hkind
    rw [Progress.frames, hbelow] at h
    exact (h.close hkind hopener (hreached.closing?_eq hkind) hmark).mono (Nat.le_of_lt hlt)

end Traced

theorem Reached.traced {current : Nat} {p : Progress} {rest : List Lexeme}
    (h : Reached settings input current p rest) : Traced settings input current p.frames := by
  induction h with
  | start => exact ⟨.nil, List.forall_mem_singleton.mpr nofun⟩
  | token hreached hstep ih => exact ih.moves hreached (Progress.moves_of_step hstep)

/-- **Positions identify what nodes were read from.** The root of an accepted pattern stands at the
beginning. The positions of all other nodes, in reading order, are those of increasing indices of the
text, and at each of them stands the mark of the node; those inside of a bracket stand between its
mark and the place where it is closed. -/
theorem identifies_of_read {root : Node} (h : read settings input = .ok root) :
    ∃ children, root = .group (.once (settings.at input 0)) .root children ∧
      root.preorder = root :: Node.preorderAll children ∧
      settings.Increasing input 0 input.length (Node.positions children) ∧
      ∀ node ∈ Node.preorderAll children, settings.Identifies input node := by
  obtain ⟨p, -, hreached, hbelow, hkind, -, -, rfl⟩ := reached_of_read h
  have htraced := hreached.traced
  refine ⟨p.top.children, rfl, rfl, ?_, fun node hnode => ?_⟩
  · have hincreasing := htraced.increasing
    simpa only [Progress.frames, hbelow, marks, hkind, if_true, List.nil_append] using hincreasing
  · exact htraced.identified p.top List.mem_cons_self node (Node.mem_preorderAll_reverse.mp hnode)

/-- The theorem at a bracket with a closing mark in it that does not fit, which is ignored. -/
theorem identifies_of_read_stray :
    Bracket.sequence.closing? "(a\x7d:1-5:b-d;)" 0 = some 12 ∧
      ∃ root, read {} "(a\x7d:1-5:b-d;)" = .ok root ∧
        root.preorder.map (fun node => node.position.map Position.index) =
          [some 0, some 0, some 1, some 3, some 4, some 8] ∧
        ∀ node ∈ root.preorder.tail, Settings.Identifies {} "(a\x7d:1-5:b-d;)" node := by
  refine ⟨by decide +kernel, ?_⟩
  have hindices : (read {} "(a\x7d:1-5:b-d;)").toOption.map
      (fun root => root.preorder.map fun node => node.position.map Position.index) =
        some [some 0, some 0, some 1, some 3, some 4, some 8] := by decide +kernel
  cases hread : read {} "(a\x7d:1-5:b-d;)" with
  | error e =>
    rw [hread] at hindices
    cases hindices
  | ok root =>
    rw [hread] at hindices
    obtain ⟨children, -, hpreorder, -, hidentified⟩ := identifies_of_read hread
    refine ⟨root, rfl, Option.some.inj hindices, ?_⟩
    rw [hpreorder]
    exact hidentified

end Pattern

end RandomText
