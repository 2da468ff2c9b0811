import RandomText.Proofs.Numeral
import RandomText.Proofs.Pattern.Resume

/-!
# Well-formed trees

The trees that pattern text spells. The type of nodes leaves more room than the text does: a root
may stand anywhere in a tree, a range may have negative bounds, groups may be nested to any depth.
What is `WellFormed` beyond its type, reading returns (`wellFormed_of_read`), because every frame
on the stack holds such nodes only (`Frame.Sound`).
-/

namespace RandomText

namespace Atom

/-- The atoms that pattern text spells: the bounds of a range of numbers are read from digits, and a
digit as the first character makes a range one of numbers. -/
def Spellable : Atom → Prop
  | range first last _ => 0 ≤ first ∧ last.toNat < 10 ^ Numeral.maxDigits
  | charRange first _ _ => first.isDigit = false
  | _ => True

/-- A range of numbers or of characters. -/
def isRange : Atom → Bool
  | range _ _ _ => true
  | charRange _ _ _ => true
  | _ => false

end Atom

namespace Node

mutual

/-- Every leaf of the tree has an atom with the property `P`. -/
def EveryAtom (P : Atom → Prop) : Node → Prop
  | leaf _ atom => P atom
  | group _ _ children => EveryAtomAll P children

def EveryAtomAll (P : Atom → Prop) : List Node → Prop
  | [] => True
  | node :: rest => EveryAtom P node ∧ EveryAtomAll P rest

end

mutual

def decidableEveryAtom (P : Atom → Prop) [DecidablePred P] : (node : Node) → Decidable (node.EveryAtom P)
  | leaf _ atom => inferInstanceAs (Decidable (P atom))
  | group _ _ children => decidableEveryAtomAll P children

def decidableEveryAtomAll (P : Atom → Prop) [DecidablePred P] :
    (nodes : List Node) → Decidable (EveryAtomAll P nodes)
  | [] => inferInstanceAs (Decidable True)
  | node :: rest =>
    match decidableEveryAtom P node, decidableEveryAtomAll P rest with
    | isTrue hnode, isTrue hrest => isTrue ⟨hnode, hrest⟩
    | isFalse hnode, _ => isFalse fun h => hnode h.1
    | _, isFalse hrest => isFalse fun h => hrest h.2

end

instance (P : Atom → Prop) [DecidablePred P] (node : Node) : Decidable (node.EveryAtom P) :=
  decidableEveryAtom P node

theorem everyAtomAll_iff {P : Atom → Prop} {nodes : List Node} :
    EveryAtomAll P nodes ↔ ∀ node ∈ nodes, node.EveryAtom P := by
  induction nodes with
  | nil => simp [EveryAtomAll]
  | cons node rest ih => simp [EveryAtomAll, ih]

theorem everyAtom_withRepeatCount {P : Atom → Prop} {node : Node} (h : node.EveryAtom P) (n : Nat)
    (hpos : 1 ≤ n) : (node.withRepeatCount n hpos).EveryAtom P := by
  cases node <;> exact h

/-- The atom of a node that may be a segment of a range block. -/
def segment? : Node → Option Atom
  | leaf tag atom => if tag.repeatCount = 1 ∧ atom.isRange = true then some atom else none
  | group _ _ _ => none

/-- A sequence of two or more segments. -/
def isRangeBlock (kind : GroupKind) (children : List Node) : Bool :=
  kind = .sequence && 2 ≤ children.length && children.all fun child => child.segment?.isSome

mutual

/-- The most groups on a path through a node, range blocks aside. -/
def groupDepth : Node → Nat
  | leaf _ _ => 0
  | group _ kind children =>
    (if isRangeBlock kind children then 0 else 1) + groupDepthAll children

def groupDepthAll : List Node → Nat
  | [] => 0
  | node :: rest => max (groupDepth node) (groupDepthAll rest)

end

mutual

/-- A node that may stand below the root. -/
def Nested : Node → Prop
  | leaf tag atom => tag.repeatCount < 10 ^ Numeral.maxDigits ∧ atom.Spellable
  | group tag kind children =>
    tag.repeatCount < 10 ^ Numeral.maxDigits ∧ kind ≠ .root ∧ (kind = .choice → children ≠ []) ∧
      NestedAll children

def NestedAll : List Node → Prop
  | [] => True
  | node :: rest => Nested node ∧ NestedAll rest

end

/-- A root with at most `limit` groups on each path. -/
def WellFormed (limit : Nat) : Node → Prop
  | group tag .root children =>
    tag.repeatCount = 1 ∧ NestedAll children ∧ groupDepthAll children ≤ limit
  | _ => False

theorem nestedAll_iff {nodes : List Node} : NestedAll nodes ↔ ∀ node ∈ nodes, node.Nested := by
  induction nodes with
  | nil => simp [NestedAll]
  | cons node rest ih => simp [NestedAll, ih]

mutual

theorem everyAtom_of_nested (node : Node) (h : node.Nested) : node.EveryAtom Atom.Spellable := by
  match node, h with
  | .leaf tag atom, ⟨_, hatom⟩ => exact hatom
  | .group tag kind children, ⟨_, _, _, hchildren⟩ => exact everyAtomAll_of_nestedAll children hchildren

theorem everyAtomAll_of_nestedAll (nodes : List Node) (h : NestedAll nodes) :
    EveryAtomAll Atom.Spellable nodes := by
  match nodes, h with
  | [], _ => trivial
  | node :: rest, ⟨hnode, hrest⟩ =>
    exact ⟨everyAtom_of_nested node hnode, everyAtomAll_of_nestedAll rest hrest⟩

end

theorem everyAtom_of_wellFormed {root : Node} {limit : Nat} (h : root.WellFormed limit) :
    root.EveryAtom Atom.Spellable := by
  match root, h with
  | .group tag .root children, ⟨_, hnested, _⟩ => exact everyAtomAll_of_nestedAll children hnested

theorem groupDepthAll_le_iff {nodes : List Node} {k : Nat} :
    groupDepthAll nodes ≤ k ↔ ∀ node ∈ nodes, node.groupDepth ≤ k := by
  induction nodes with
  | nil => simp [groupDepthAll]
  | cons node rest ih => rw [groupDepthAll, Nat.max_le, ih, List.forall_mem_cons]

theorem groupDepth_group_le (tag : Tag) (kind : GroupKind) (children : List Node) :
    (group tag kind children).groupDepth ≤ 1 + groupDepthAll children := by
  rw [groupDepth]
  split <;> omega

theorem segments_of_isRangeBlock {kind : GroupKind} {children : List Node}
    (h : isRangeBlock kind children = true) :
    kind = .sequence ∧ 2 ≤ children.length ∧ ∀ child ∈ children, child.segment?.isSome = true := by
  simp only [isRangeBlock, Bool.and_eq_true, decide_eq_true_eq, List.all_eq_true] at h
  exact ⟨h.1.1, h.1.2, h.2⟩

theorem segment?_eq_some {node : Node} (h : node.segment?.isSome = true) :
    ∃ tag atom, node = .leaf tag atom ∧ tag.repeatCount = 1 ∧ atom.isRange = true ∧
      node.segment? = some atom := by
  cases node with
  | leaf tag atom =>
    rw [segment?] at h ⊢
    by_cases hsegment : tag.repeatCount = 1 ∧ atom.isRange = true
    · exact ⟨tag, atom, rfl, hsegment.1, hsegment.2, if_pos hsegment⟩
    · rw [if_neg hsegment] at h
      cases h
  | group tag kind children => cases h

theorem nested_withRepeatCount {node : Node} (h : node.Nested) {n : Nat} (hpos : 1 ≤ n)
    (hn : n < 10 ^ Numeral.maxDigits) : (node.withRepeatCount n hpos).Nested := by
  cases node with
  | leaf tag atom =>
    obtain ⟨-, hatom⟩ := h
    exact ⟨hn, hatom⟩
  | group tag kind children =>
    obtain ⟨-, hrest⟩ := h
    exact ⟨hn, hrest⟩

@[simp]
theorem groupDepth_withRepeatCount (node : Node) (n : Nat) (hpos : 1 ≤ n) :
    (node.withRepeatCount n hpos).groupDepth = node.groupDepth := by
  cases node <;> rfl

end Node

namespace Pattern

/-! ### Tokens -/

/-- The tokens that text spells. -/
def Token.Sound : Token → Prop
  | .atom a => a.Spellable
  | .range segments => segments ≠ [] ∧ ∀ s ∈ segments, s.2.isRange = true ∧ s.2.Spellable
  | .repetition count _ => count < 10 ^ Numeral.maxDigits
  | _ => True

theorem sound_of_numberRange {index : Nat} {first last : Text} {atom : Atom}
    (h : Token.numberRange index first last = .ok atom) :
    atom.isRange = true ∧ atom.Spellable := by
  rw [Token.numberRange] at h
  cases hfirst : Numeral.read first with
  | error error =>
    rw [hfirst] at h
    cases h
  | ok low =>
    cases hlast : Numeral.read last with
    | error error =>
      rw [hfirst, hlast] at h
      cases h
    | ok high =>
      rw [hfirst, hlast] at h
      change dite (high < low) _ _ = Except.ok atom at h
      split at h
      · cases h
      · obtain rfl := Except.ok.inj h
        have hhigh := Numeral.read_lt hlast
        refine ⟨rfl, Int.natCast_nonneg low, ?_⟩
        rw [Int.toNat_natCast]
        exact hhigh

theorem sound_of_charRange {index : Nat} {segment first last : Text} {atom : Atom}
    (hfirst : ¬Numeral.isDecimal first = true)
    (h : Token.charRange index segment first last = .ok atom) :
    atom.isRange = true ∧ atom.Spellable := by
  unfold Token.charRange at h
  split at h
  · split at h
    · cases h
    · obtain rfl := Except.ok.inj h
      rw [Numeral.isDecimal_singleton] at hfirst
      exact ⟨rfl, Bool.eq_false_iff.mpr hfirst⟩
  · cases h

theorem sound_of_segment {index : Nat} {text : Text} {atom : Atom}
    (h : Token.segment index text = .ok atom) : atom.isRange = true ∧ atom.Spellable := by
  unfold Token.segment at h
  split at h
  · cases h
  · next first last hdivide =>
    by_cases hfirst : Numeral.isDecimal first = true
    · rw [if_pos hfirst] at h
      split at h
      · exact sound_of_numberRange h
      · cases h
    · rw [if_neg hfirst] at h
      exact sound_of_charRange hfirst h

theorem sound_of_segments {index stop : Nat} {text : Text} {leaves : List (Nat × Atom)}
    (h : Token.segments index text = (leaves, .ok stop)) :
    leaves ≠ [] ∧ ∀ s ∈ leaves, s.2.isRange = true ∧ s.2.Spellable := by
  fun_induction Token.segments index text generalizing leaves with
  | case1 => simp at h
  | case2 => simp at h
  | case3 => simp at h
  | case4 index c rest e hupTo next leaf hleaf =>
    obtain ⟨rfl, -⟩ := Prod.mk.inj h
    have hsound := sound_of_segment hleaf
    refine ⟨List.cons_ne_nil _ _, fun s hs => ?_⟩
    rw [List.mem_singleton] at hs
    exact hs ▸ hsound
  | case5 index c rest e hupTo next leaf hleaf _ others =>
    rename_i ih
    obtain ⟨rfl, hothers⟩ := Prod.mk.inj h
    have hsound := sound_of_segment hleaf
    obtain ⟨-, hrest⟩ := ih (Prod.ext rfl hothers)
    refine ⟨List.cons_ne_nil _ _, fun s hs => ?_⟩
    cases hs with
    | head => exact hsound
    | tail _ hs => exact hrest s hs

theorem sound_of_enclosed {index : Nat} {stop : CodePoint} {make : Text → Except ReadError Token}
    (hmake : ∀ text token, make text = .ok token → token.Sound) {rest : Text} {lexeme : Lexeme}
    (h : Token.enclosed index stop make rest = .ok lexeme) : lexeme.token.Sound := by
  unfold Token.enclosed at h
  split at h
  · cases h
  · split at h
    · cases h
    · next token htoken =>
      obtain rfl := Except.ok.inj h
      exact hmake _ token htoken

theorem sound_of_repetitionOf {index : Nat} {text : Text} {token : Token}
    (h : Token.repetitionOf index text = .ok token) : token.Sound := by
  unfold Token.repetitionOf at h
  split at h
  · cases hread : Numeral.read text with
    | error error =>
      rw [hread] at h
      cases h
    | ok count =>
      rw [hread] at h
      change dite (count < 1) _ _ = Except.ok token at h
      split at h
      · cases h
      · obtain rfl := Except.ok.inj h
        exact Numeral.read_lt hread
  · cases h

theorem sound_of_sampleSetOf {index : Nat} {chars : Text} {token : Token}
    (h : Token.sampleSetOf index chars = .ok token) : token.Sound := by
  unfold Token.sampleSetOf at h
  split at h
  · cases h
  · obtain rfl := Except.ok.inj h
    exact trivial

theorem sound_of_rangeOf {index : Nat} {rest : Text} {lexeme : Lexeme}
    (h : Token.rangeOf index rest = .ok lexeme) : lexeme.token.Sound := by
  unfold Token.rangeOf at h
  split at h
  · cases h
  · next leaves stop hsegments =>
    obtain rfl := Except.ok.inj h
    exact sound_of_segments hsegments

theorem sound_single (c : CodePoint) : ((Token.single? c).getD (.other c)).Sound := by
  unfold Token.single?
  repeat' split
  all_goals trivial

theorem sound_of_first {index : Nat} {c : CodePoint} {rest : Text} {lexeme : Lexeme}
    (h : Token.first index c rest = .ok lexeme) : lexeme.token.Sound := by
  unfold Token.first at h
  split at h
  · refine sound_of_enclosed (fun text token htoken => ?_) h
    obtain rfl := Except.ok.inj htoken
    exact trivial
  split at h
  · exact sound_of_enclosed (fun _ _ => sound_of_sampleSetOf) h
  split at h
  · exact sound_of_enclosed (fun _ _ => sound_of_repetitionOf) h
  split at h
  · exact sound_of_rangeOf h
  · obtain rfl := Except.ok.inj h
    exact sound_single c

/-! ### Frames -/

/-- A frame with `depth` brackets open up to it. -/
def Frame.Sound (limit depth : Nat) (f : Frame) : Prop :=
  depth ≤ limit ∧ ∀ node ∈ f.latest, node.Nested ∧ node.groupDepth + depth ≤ limit

theorem Frame.Sound.push {limit depth : Nat} {f : Frame} (h : f.Sound limit depth) {node : Node}
    (hnested : node.Nested) (hdepth : node.groupDepth + depth ≤ limit) :
    (f.push node).Sound limit depth := by
  refine ⟨h.1, fun other hother => ?_⟩
  cases hother with
  | head => exact ⟨hnested, hdepth⟩
  | tail _ hother => exact h.2 other hother

theorem Frame.Sound.nestedAll {limit depth : Nat} {f : Frame} (h : f.Sound limit depth) :
    Node.NestedAll f.children ∧ Node.groupDepthAll f.children + depth ≤ limit := by
  obtain ⟨hle, hlatest⟩ := h
  have hdepth : Node.groupDepthAll f.children ≤ limit - depth := by
    rw [Node.groupDepthAll_le_iff]
    intro node hnode
    have := (hlatest node (List.mem_reverse.mp hnode)).2
    omega
  refine ⟨?_, by omega⟩
  rw [Node.nestedAll_iff]
  intro node hnode
  exact (hlatest node (List.mem_reverse.mp hnode)).1

theorem one_lt_limit : 1 < 10 ^ Numeral.maxDigits :=
  Nat.one_lt_pow (by decide) (by decide)

theorem nested_leaf (position : Option Position) {atom : Atom} (h : atom.Spellable) :
    (Node.leaf (.once position) atom).Nested := ⟨one_lt_limit, h⟩

section steps

variable {settings : Settings} {input : Text} {p q : Progress} {limit index : Nat}

/-- The frames of a reading, each with nodes that may stand below the root. -/
abbrev Progress.Sound (limit : Nat) (p : Progress) : Prop :=
  Stacked (Frame.Sound limit) p.top p.below

theorem Progress.Sound.push (h : p.Sound limit) {node : Node} (hnested : node.Nested)
    (hdepth : node.groupDepth + p.below.length ≤ limit) : (p.push node).Sound limit :=
  h.congr rfl (h.holds.push hnested hdepth)

theorem range_close (position : Option Position) {nodes : List Node} (hne : nodes ≠ [])
    (hnodes : ∀ node ∈ nodes, node.Nested ∧ node.segment?.isSome = true ∧ node.groupDepth = 0) :
    (FrameKind.range.close position nodes).Nested ∧
      (FrameKind.range.close position nodes).groupDepth = 0 := by
  match nodes with
  | [] => exact absurd rfl hne
  | [node] =>
    obtain ⟨hnested, -, hdepth⟩ := hnodes node (List.mem_singleton_self node)
    exact ⟨hnested, hdepth⟩
  | first :: second :: rest =>
    have hblock : Node.isRangeBlock .sequence (first :: second :: rest) = true := by
      have hall : (first :: second :: rest).all (fun child => child.segment?.isSome) = true :=
        List.all_eq_true.mpr fun node hnode => (hnodes node hnode).2.1
      simp only [Node.isRangeBlock, hall, List.length_cons]
      simp
    have hdepth : Node.groupDepthAll (first :: second :: rest) ≤ 0 :=
      Node.groupDepthAll_le_iff.mpr fun node hnode => Nat.le_of_eq (hnodes node hnode).2.2
    constructor
    · show (Node.group _ .sequence (first :: second :: rest)).Nested
      refine ⟨one_lt_limit, by decide, nofun, ?_⟩
      exact Node.nestedAll_iff.mpr fun node hnode => (hnodes node hnode).1
    · show (Node.group _ .sequence (first :: second :: rest)).groupDepth = 0
      rw [Node.groupDepth, if_pos hblock]
      omega

theorem Progress.Sound.addRange (h : p.Sound limit) {segments : List (Nat × Atom)}
    (hne : segments ≠ []) (hsegments : ∀ s ∈ segments, s.2.isRange = true ∧ s.2.Spellable) :
    (p.addRange settings input segments index).Sound limit := by
  have hbelow : p.below.length ≤ limit := h.holds.1
  have hnodes : ∀ node ∈ Progress.segmentNodes settings input segments,
      node.Nested ∧ node.segment?.isSome = true ∧ node.groupDepth = 0 := by
    intro node hnode
    obtain ⟨s, hs, rfl⟩ := List.mem_map.mp hnode
    obtain ⟨hrange, hspellable⟩ := hsegments s hs
    have hsegment : (Node.leaf (.once (settings.at input s.1)) s.2).segment? = some s.2 := by
      rw [Node.segment?, if_pos ⟨rfl, hrange⟩]
    exact ⟨nested_leaf _ hspellable, by rw [hsegment]; rfl, rfl⟩
  have hsegments_ne : Progress.segmentNodes settings input segments ≠ [] := by
    intro heq
    exact hne (List.map_eq_nil_iff.mp heq)
  obtain ⟨hnested, hdepth⟩ := range_close (settings.at input index) hsegments_ne hnodes
  exact h.push hnested (by rw [hdepth]; omega)

theorem Progress.Sound.ignore (h : p.Sound limit) {c : CodePoint}
    (hq : p.ignore settings c index = .ok q) : q.Sound limit := by
  unfold Progress.ignore at hq
  split at hq
  · cases hq
  · obtain rfl := Except.ok.inj hq
    exact h

theorem Progress.Sound.applyRepetition (h : p.Sound limit) {count : Nat} {hpos : 1 ≤ count}
    (hcount : count < 10 ^ Numeral.maxDigits)
    (hq : p.applyRepetition count hpos index = .ok q) : q.Sound limit := by
  obtain ⟨hle, hlatest⟩ := h.holds
  unfold Progress.applyRepetition at hq
  split at hq
  · cases hq
  · next node earlier htop =>
    split at hq
    · cases hq
    · obtain rfl := Except.ok.inj hq
      rw [htop] at hlatest
      refine h.congr rfl ⟨hle, fun other hother => ?_⟩
      cases hother with
      | head =>
        obtain ⟨hnested, hdepth⟩ := hlatest node List.mem_cons_self
        refine ⟨Node.nested_withRepeatCount hnested hpos hcount, ?_⟩
        rw [Node.groupDepth_withRepeatCount]
        exact hdepth
      | tail _ hother => exact hlatest other (List.mem_cons_of_mem _ hother)

theorem Progress.Sound.openBracket (h : p.Sound settings.maxDepth.toNat) {bracket : Bracket}
    (hq : p.openBracket settings bracket index = .ok q) : q.Sound settings.maxDepth.toNat := by
  unfold Progress.openBracket at hq
  rw [h.depth_eq p.noted] at hq
  split at hq
  · cases hq
  · next hdepth =>
    obtain rfl := Except.ok.inj hq
    refine .bracket rfl ⟨?_, ?_⟩ h
    · show p.below.length + 1 ≤ settings.maxDepth.toNat
      omega
    · intro node hnode
      cases hnode

theorem Frame.Sound.close {depth : Nat} {top parent : Frame} (htop : top.Sound limit (depth + 1))
    (hparent : parent.Sound limit depth) {bracket : Bracket}
    (hchoice : bracket = .choice → top.latest ≠ []) (position : Option Position) :
    (parent.push ((FrameKind.bracket bracket).close position top.children)).Sound limit depth := by
  obtain ⟨hnested, hdepth⟩ := htop.nestedAll
  have hne : bracket = .choice → top.children ≠ [] := by
    intro h heq
    exact hchoice h (List.reverse_eq_nil_iff.mp heq)
  have hkind : bracket.groupKind ≠ .root ∧ (bracket.groupKind = .choice → bracket = .choice) := by
    cases bracket <;> decide
  rw [close_bracket]
  refine hparent.push ⟨one_lt_limit, hkind.1, fun h => hne (hkind.2 h), hnested⟩ ?_
  have := Node.groupDepth_group_le (.once position) bracket.groupKind top.children
  omega

theorem Progress.Sound.closeBracket (h : p.Sound limit) {bracket : Bracket}
    (hq : p.closeBracket settings input bracket index = .ok q) :
    q.Sound limit := by
  by_cases hkind : p.top.kind = .bracket bracket
  · obtain ⟨top, below, noted⟩ := p
    have hkind : top.kind = .bracket bracket := hkind
    cases h with
    | root hroot _ => cases hkind.symm.trans hroot
    | @bracket b _ parent below hb hsound hbelow =>
      simp only [Progress.closeBracket] at hq
      rw [if_pos hkind] at hq
      split at hq
      · cases hq
      · next hchoice =>
        obtain rfl := Except.ok.inj hq
        rw [hkind]
        exact hbelow.congr rfl
          (hsound.close hbelow.holds (fun h hempty => hchoice ⟨h, hempty⟩) _)
  · rw [h.closeBracket_of_ne hkind] at hq
    exact h.ignore hq

theorem Progress.Sound.stepped (h : p.Sound settings.maxDepth.toNat) {lexeme : Lexeme}
    (hlexeme : lexeme.token.Sound) (hq : p.stepped settings input lexeme = .ok q) :
    q.Sound settings.maxDepth.toNat := by
  obtain ⟨index, token, stop⟩ := lexeme
  have hq := Progress.step_of_stepped hq
  cases token with
  | atom a =>
    obtain rfl := Except.ok.inj hq
    refine h.push (nested_leaf _ hlexeme) ?_
    rw [Node.groupDepth, Nat.zero_add]
    exact h.holds.1
  | range segments =>
    obtain rfl := Except.ok.inj hq
    exact h.addRange hlexeme.1 hlexeme.2
  | repetition count hpos =>
    exact h.applyRepetition hlexeme hq
  | opening bracket => exact h.openBracket hq
  | closing bracket => exact h.closeBracket hq
  | other c => exact h.ignore hq

theorem Progress.Sound.finish (h : p.Sound limit) {root : Node}
    (hroot : (p.finish settings input).mapError Halt.error = .ok root) : root.WellFormed limit := by
  obtain ⟨top, below, noted⟩ := p
  simp only [Progress.finish] at hroot
  cases h with
  | root hkind hsound =>
    have hkind : top.kind = .root := hkind
    rw [hkind] at hroot
    obtain rfl := Except.ok.inj hroot
    obtain ⟨hnested, hdepth⟩ := hsound.nestedAll
    exact ⟨rfl, hnested, hdepth⟩
  | bracket hkind _ _ =>
    have hkind : top.kind = _ := hkind
    rw [hkind] at hroot
    cases hroot

end steps

/-- A reading from sound frames returns well-formed trees only. -/
theorem wellFormed_of_resume {settings : Settings} {input : Text} {root : Node} (text : Text)
    {p : Progress} {index : Nat} (hp : p.Sound settings.maxDepth.toNat)
    (h : resume settings input p index text = .ok root) :
    root.WellFormed settings.maxDepth.toNat := by
  -- Soundness of the open frames is kept by each token and carried through the reading.
  induction hn : text.length using Nat.strongRecOn generalizing p index text with
  | ind n ih =>
    cases text with
    | nil =>
      rw [resume_nil] at h
      exact hp.finish h
    | cons c rest =>
      cases hfirst : Token.first index c rest with
      | error m =>
        rw [resume_of_error hfirst] at h
        cases h
      | ok lexeme =>
        rw [resume_of_ok hfirst] at h
        cases hstep : p.stepped settings input lexeme with
        | error error =>
          rw [hstep] at h
          cases h
        | ok q =>
          rw [hstep] at h
          refine ih _ ?_ _ (hp.stepped (sound_of_first hfirst) hstep) h rfl
          rw [← hn, List.length_drop, List.length_cons]
          omega


theorem wellFormed_of_read {settings : Settings} {text : Text} {root : Node}
    (h : read settings text = .ok root) : root.WellFormed settings.maxDepth.toNat := by
  have hstart : Progress.start.Sound settings.maxDepth.toNat := .root rfl ⟨Nat.zero_le _, nofun⟩
  exact wellFormed_of_resume text hstart h

end Pattern

end RandomText
