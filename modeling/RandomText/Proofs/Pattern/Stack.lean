import RandomText.Proofs.Pattern.Scanning

/-!
# The stack of frames

What holds of the open frames in every state of a reading and in the state that a failure leaves
behind. The root stands at the bottom and nowhere else; above it each frame begins behind the one
below, at its opening mark, and the children of a frame stand between its mark and that of the next
frame (`Standing`). One token keeps that (`Progress.Orderly.step`), so every state that is reached
has it (`Reached.orderly`). A range has a frame only in the state that a failure in its segments
leaves behind. `reading_coherent` puts it together.
-/

namespace RandomText

/-- The code point `c` stands at the index of the text. -/
def Text.HasAt (t : Text) (index : Nat) (c : CodePoint) : Prop := t[index]? = some c

namespace Text.HasAt

variable {t : Text} {index : Nat} {c : CodePoint}

theorem lt (h : t.HasAt index c) : index < t.length := (List.getElem?_eq_some_iff.mp h).1

theorem drop_eq (h : t.HasAt index c) : t.drop index = c :: t.drop (index + 1) := by
  obtain ⟨hlt, hc⟩ := List.getElem?_eq_some_iff.mp h
  rw [← hc, List.drop_eq_getElem_cons hlt]

theorem of_drop_eq {tail : Text} (h : t.drop index = c :: tail) :
    t.HasAt index c ∧ t.drop (index + 1) = tail := by
  refine ⟨?_, ?_⟩
  · rw [HasAt, ← List.head?_drop, h, List.head?_cons]
  · rw [← List.tail_drop, h, List.tail_cons]

end Text.HasAt

namespace Node

/-- The node stands at an index from `first` on and before `stop`. -/
def StandsIn (first stop : Nat) (node : Node) : Prop :=
  ∃ position, node.position = some position ∧ (first : Int) ≤ position.index ∧
    position.index < stop

theorem StandsIn.mono {first first' stop stop' : Nat} {node : Node} (h : node.StandsIn first stop)
    (hfirst : first' ≤ first) (hstop : stop ≤ stop') : node.StandsIn first' stop' := by
  obtain ⟨position, hposition, hle, hlt⟩ := h
  exact ⟨position, hposition, by omega, by omega⟩

end Node

namespace Pattern

/-- The code point that a frame begins with. -/
def FrameKind.opener? : FrameKind → Option CodePoint
  | root => none
  | bracket b => some b.opener
  | range => some ':'

namespace Frame

/-- The first index at which a child may stand. -/
def first (f : Frame) : Nat := if f.kind = .root then 0 else f.start + 1

/-- The children behind the latest one that a repetition was applied to. -/
def unrepeated (f : Frame) : List Node :=
  match f.lastRepeated with
  | none => f.children
  | some k => f.children.drop (k + 1)

/-- The children stand before `bound`, and those behind the one that was repeated last are not
repeated. -/
structure Holds (bound : Nat) (f : Frame) : Prop where
  children : ∀ node ∈ f.children, node.StandsIn f.first bound
  repeatedWithin : f.RepeatedWithin
  once : ∀ node ∈ f.unrepeated, node.repeatCount = 1

variable {f : Frame} {bound : Nat}

theorem holds_opened (kind : FrameKind) (start bound : Nat) : (opened kind start).Holds bound :=
  ⟨nofun, nofun, nofun⟩

theorem Holds.mono {bound' : Nat} (h : f.Holds bound) (hle : bound ≤ bound') : f.Holds bound' where
  children := fun node hnode => (h.children node hnode).mono (Nat.le_refl _) hle
  repeatedWithin := h.repeatedWithin
  once := h.once

theorem children_push (f : Frame) (node : Node) : (f.push node).children = f.children ++ [node] :=
  List.reverse_cons

theorem unrepeated_push (h : f.RepeatedWithin) (node : Node) :
    (f.push node).unrepeated = f.unrepeated ++ [node] := by
  have hlast : (f.push node).lastRepeated = f.lastRepeated := rfl
  unfold unrepeated
  rw [hlast, children_push]
  cases hk : f.lastRepeated with
  | none => rfl
  | some k =>
    have hlt := h k hk
    have hlength : f.children.length = f.latest.length := List.length_reverse
    exact List.drop_append_of_le_length (by omega)

theorem Holds.push (h : f.Holds bound) {node : Node} (hnode : node.StandsIn f.first bound)
    (honce : node.repeatCount = 1) : (f.push node).Holds bound where
  children := by
    intro other hother
    rw [children_push] at hother
    rcases List.mem_append.mp hother with hother | hother
    · exact h.children other hother
    · rw [List.mem_singleton.mp hother]
      exact hnode
  repeatedWithin := fun k hk => Nat.lt_succ_of_lt (h.repeatedWithin k hk)
  once := by
    intro other hother
    rw [unrepeated_push h.repeatedWithin] at hother
    rcases List.mem_append.mp hother with hother | hother
    · exact h.once other hother
    · rw [List.mem_singleton.mp hother]
      exact honce

theorem Holds.repeatLatest (h : f.Holds bound) {node : Node} {earlier : List Node}
    (hlatest : f.latest = node :: earlier) (count : Nat) (one_le : 1 ≤ count) :
    Holds bound { f with
      latest := node.withRepeatCount count one_le :: earlier, lastRepeated := some earlier.length } where
  children := by
    have hchildren : ∀ other ∈ node :: earlier, other.StandsIn f.first bound := by
      intro other hother
      exact h.children other (List.mem_reverse.mpr (hlatest ▸ hother))
    intro other hother
    rcases List.mem_cons.mp (List.mem_reverse.mp hother) with rfl | hother
    · obtain ⟨position, hposition, hplace⟩ := hchildren node List.mem_cons_self
      exact ⟨position, (Node.position_withRepeatCount count one_le node).trans hposition, hplace⟩
    · exact hchildren other (List.mem_cons_of_mem _ hother)
  repeatedWithin := by
    intro k hk
    cases hk
    exact Nat.lt_succ_self _
  once := by
    intro other hother
    have hnone : ((node.withRepeatCount count one_le :: earlier).reverse).drop (earlier.length + 1) =
        [] := List.drop_eq_nil_of_le (by simp)
    change other ∈ ((node.withRepeatCount count one_le :: earlier).reverse).drop _ at hother
    rw [hnone] at hother
    cases hother

end Frame

/-- The open frames, the innermost first, all of whose marks and children stand before `bound`. -/
inductive Standing (input : Text) : Nat → List Frame → Prop where
  | root {f : Frame} {bound : Nat} : f.kind = .root → f.start = 0 → f.Holds bound →
      Standing input bound [f]
  | inner {f : Frame} {below : List Frame} {bound : Nat} : f.kind ≠ .root →
      input[f.start]? = f.kind.opener? → f.start < bound → f.Holds bound →
      Standing input f.start below → Standing input bound (f :: below)

namespace Standing

variable {input : Text} {bound : Nat} {top : Frame} {below : List Frame}

theorem mono {bound' : Nat} {frames : List Frame} (h : Standing input bound frames)
    (hle : bound ≤ bound') : Standing input bound' frames := by
  cases h with
  | root hkind hstart hholds => exact .root hkind hstart (hholds.mono hle)
  | inner hkind hopener hlt hholds hbelow =>
    exact .inner hkind hopener (by omega) (hholds.mono hle) hbelow

theorem holds (h : Standing input bound (top :: below)) : top.Holds bound := by
  cases h with
  | root _ _ hholds => exact hholds
  | inner _ _ _ hholds _ => exact hholds

theorem kind_eq_root_iff (h : Standing input bound (top :: below)) :
    top.kind = .root ↔ below = [] := by
  cases h with
  | root hkind _ _ => exact iff_of_true hkind rfl
  | inner hne _ _ _ hbelow =>
    refine iff_of_false hne ?_
    rintro rfl
    cases hbelow

theorem start_eq_zero (h : Standing input bound (top :: below)) (hkind : top.kind = .root) :
    top.start = 0 := by
  cases h with
  | root _ hstart _ => exact hstart
  | inner hne _ _ _ _ => exact absurd hkind hne

theorem first_le (h : Standing input bound (top :: below)) : top.first ≤ bound := by
  unfold Frame.first
  split
  · exact Nat.zero_le _
  · next hkind =>
    cases h with
    | root hroot => exact absurd hroot hkind
    | inner _ _ hlt => exact hlt

theorem congr (h : Standing input bound (top :: below)) {top' : Frame} {bound' : Nat}
    (hkind : top'.kind = top.kind) (hstart : top'.start = top.start) (hle : bound ≤ bound')
    (hholds : top'.Holds bound') : Standing input bound' (top' :: below) := by
  cases h with
  | root hroot hzero _ => exact .root (hkind.trans hroot) (hstart.trans hzero) hholds
  | inner hne hopener hlt _ hbelow =>
    refine .inner (hkind ▸ hne) ?_ (by omega) hholds (hstart ▸ hbelow)
    rw [hkind, hstart, hopener]

theorem push (h : Standing input bound (top :: below)) {node : Node} {bound' : Nat}
    (hle : bound ≤ bound') (hnode : node.StandsIn bound bound') (honce : node.repeatCount = 1) :
    Standing input bound' (top.push node :: below) :=
  h.congr rfl rfl hle
    ((h.holds.mono hle).push (hnode.mono h.first_le (Nat.le_refl _)) honce)

end Standing

section steps

variable {settings : Settings} {input : Text} {p q : Progress} {index stop : Nat}

/-- The frames of a reading that has come up to `current`. -/
structure Progress.Orderly (settings : Settings) (input : Text) (current : Nat) (p : Progress) :
    Prop where
  standing : Standing input current p.frames
  no_range : ∀ f ∈ p.frames, f.kind ≠ .range
  depth_le : p.depth ≤ settings.maxDepth.toNat

/-- The frames that a step leaves, whether it fails or not. -/
def Progress.left : Except Halt Progress → Progress
  | .ok p => p
  | .error halt => halt.progress

theorem Progress.depth_congr (htop : q.top.kind = p.top.kind) (hbelow : q.below = p.below) :
    q.depth = p.depth := by
  simp only [Progress.depth, Progress.frames, List.filter_cons, htop, hbelow]
  split <;> rfl

namespace Progress.Orderly

theorem mono (h : p.Orderly settings input index) (hle : index ≤ stop) :
    p.Orderly settings input stop := ⟨h.standing.mono hle, h.no_range, h.depth_le⟩

theorem push (h : p.Orderly settings input index) {node : Node} (hle : index ≤ stop)
    (hnode : node.StandsIn index stop) (honce : node.repeatCount = 1) :
    (p.push node).Orderly settings input stop where
  standing := h.standing.push hle hnode honce
  no_range := by
    intro f hf
    rcases List.mem_cons.mp hf with rfl | hf
    · exact h.no_range p.top List.mem_cons_self
    · exact h.no_range f (List.mem_cons_of_mem _ hf)
  depth_le := by
    have hdepth : (p.push node).depth = p.depth := depth_congr rfl rfl
    rw [hdepth]
    exact h.depth_le

theorem ignore (h : p.Orderly settings input index) (c : CodePoint) (i : Nat) :
    (left (p.ignore settings c i)).Orderly settings input index := by
  unfold Progress.ignore
  split <;> exact ⟨h.standing, h.no_range, h.depth_le⟩

theorem openBracket (h : p.Orderly settings input index) {bracket : Bracket}
    (hopener : input[index]? = some bracket.opener) (hlt : index < stop) :
    (left (p.openBracket settings bracket index)).Orderly settings input stop := by
  unfold Progress.openBracket
  split
  · exact h.mono (Nat.le_of_lt hlt)
  · next hdepth =>
    refine ⟨?_, ?_, ?_⟩
    · exact .inner nofun hopener hlt (Frame.holds_opened _ _ _) h.standing
    · intro f hf
      rcases List.mem_cons.mp hf with rfl | hf
      · nofun
      · exact h.no_range f hf
    · show (p.enter (.bracket bracket) index).depth ≤ settings.maxDepth.toNat
      rw [depth_enter]
      omega

theorem standsIn_close (bracket : Bracket) (settings : Settings) (input : Text) {start stop : Nat}
    (hlt : start < stop) (children : List Node) :
    ((FrameKind.bracket bracket).close (settings.at input start) children).StandsIn start stop ∧
      ((FrameKind.bracket bracket).close (settings.at input start) children).repeatCount = 1 := by
  rw [close_bracket]
  exact ⟨⟨_, rfl, Int.le_refl _, Int.ofNat_lt.mpr hlt⟩, rfl⟩

theorem pop {top parent : Frame} {below : List Frame} {noted : List Event}
    (h : Progress.Orderly settings input index ⟨top, parent :: below, noted⟩) :
    top.start < index ∧ Progress.Orderly settings input top.start ⟨parent, below, noted⟩ := by
  have hdepth := h.depth_le
  cases h.standing with
  | inner _ _ hlt _ hbelow =>
    refine ⟨hlt, hbelow, fun f hf => h.no_range f (List.mem_cons_of_mem _ hf), ?_⟩
    simp only [depth, frames, List.filter_cons] at hdepth ⊢
    split at hdepth
    · rw [List.length_cons] at hdepth
      omega
    · exact hdepth

theorem closeBracket (h : p.Orderly settings input index) {bracket : Bracket} (hlt : index < stop) :
    (left (p.closeBracket settings input bracket index)).Orderly settings input stop := by
  obtain ⟨top, below, noted⟩ := p
  unfold Progress.closeBracket
  cases below with
  | nil => exact (h.ignore _ _).mono (Nat.le_of_lt hlt)
  | cons parent below =>
    obtain ⟨hstart, hpopped⟩ := h.pop
    show (left (if top.kind = .bracket bracket then _ else _)).Orderly settings input stop
    by_cases hkind : top.kind = .bracket bracket
    · rw [if_pos hkind]
      show (left (if bracket = .choice ∧ top.latest = [] then _ else _)).Orderly settings input stop
      split
      · exact hpopped.mono (by omega)
      · obtain ⟨hnode, honce⟩ := standsIn_close bracket settings input
          (Nat.lt_trans hstart hlt) top.children
        have hpushed := hpopped.push (Nat.le_of_lt (Nat.lt_trans hstart hlt)) hnode honce
        simp only [hkind]
        exact ⟨hpushed.standing, hpushed.no_range, hpushed.depth_le⟩
    · rw [if_neg hkind]
      exact (h.ignore _ _).mono (Nat.le_of_lt hlt)

theorem applyRepetition (h : p.Orderly settings input index) (count : Nat) (one_le : 1 ≤ count)
    (i : Nat) : (left (p.applyRepetition count one_le i)).Orderly settings input index := by
  unfold Progress.applyRepetition
  split
  · exact h
  · next node earlier hlatest =>
    split
    · exact h
    · let q : Progress := { p with
        top := { p.top with
          latest := node.withRepeatCount count one_le :: earlier
          lastRepeated := some earlier.length } }
      have hholds : q.top.Holds index := h.standing.holds.repeatLatest hlatest count one_le
      have hdepth : q.depth = p.depth := depth_congr rfl rfl
      have hq : q.Orderly settings input index := by
        refine ⟨h.standing.congr rfl rfl (Nat.le_refl _) hholds, ?_, hdepth ▸ h.depth_le⟩
        intro f hf
        rcases List.mem_cons.mp hf with rfl | hf
        · exact h.no_range p.top List.mem_cons_self
        · exact h.no_range f (List.mem_cons_of_mem _ hf)
      exact hq

theorem standsIn_segmentNodes (settings : Settings) (input : Text) {first stop : Nat}
    {segments : List (Nat × Atom)} (h : Token.SegmentsWithin first stop segments) :
    ∀ node ∈ segmentNodes settings input segments, node.StandsIn first stop ∧ node.repeatCount = 1 := by
  intro node hnode
  obtain ⟨s, hs, rfl⟩ := List.mem_map.mp hnode
  obtain ⟨hle, hlt⟩ := h s hs
  exact ⟨⟨_, rfl, Int.ofNat_le.mpr hle, Int.ofNat_lt.mpr hlt⟩, rfl⟩

theorem addRange (h : p.Orderly settings input index) {segments : List (Nat × Atom)}
    (hlt : index < stop) (hsegments : Token.SegmentsWithin (index + 1) stop segments) :
    (p.addRange settings input segments index).Orderly settings input stop := by
  have hnodes := standsIn_segmentNodes settings input hsegments
  have hnode : (FrameKind.range.close (settings.at input index)
      (segmentNodes settings input segments)).StandsIn index stop ∧
      (FrameKind.range.close (settings.at input index)
        (segmentNodes settings input segments)).repeatCount = 1 := by
    have hgroup : ∀ nodes, (Node.group (.once (settings.at input index)) .sequence nodes).StandsIn
        index stop := fun nodes => ⟨_, rfl, Int.le_refl _, Int.ofNat_lt.mpr hlt⟩
    match segmentNodes settings input segments, hnodes with
    | [], _ => exact ⟨hgroup [], rfl⟩
    | [node], hnodes =>
      obtain ⟨hnode, honce⟩ := hnodes node List.mem_cons_self
      exact ⟨hnode.mono (Nat.le_succ _) (Nat.le_refl _), honce⟩
    | first :: second :: rest, _ => exact ⟨hgroup _, rfl⟩
  have hpushed := h.push (Nat.le_of_lt hlt) hnode.1 hnode.2
  exact ⟨hpushed.standing, hpushed.no_range, hpushed.depth_le⟩

/-- One token keeps the frames orderly, also where it fails. -/
theorem step {c : CodePoint} {token : Token} (h : p.Orderly settings input index)
    (hmark : input[index]? = some c) (hlt : index < stop) (htoken : token.BeginsWith index c stop) :
    (left (p.step settings input ⟨index, token, stop⟩)).Orderly settings input stop := by
  cases token with
  | atom a =>
    have hnode : (Node.leaf (.once (settings.at input index)) a).StandsIn index stop :=
      ⟨_, rfl, Int.le_refl _, Int.ofNat_lt.mpr hlt⟩
    exact h.push (Nat.le_of_lt hlt) hnode rfl
  | range segments => exact h.addRange hlt htoken.2
  | repetition count one_le => exact (h.applyRepetition count one_le index).mono (Nat.le_of_lt hlt)
  | opening bracket => exact h.openBracket (htoken ▸ hmark) hlt
  | closing bracket => exact h.closeBracket hlt
  | other c => exact (h.ignore c index).mono (Nat.le_of_lt hlt)

end Progress.Orderly

end steps

/-! ### States of a reading -/

section reading

variable {settings : Settings} {input : Text} {p q : Progress} {current : Nat} {rest : List Lexeme}

/-- The states of a reading: the index up to which the text was read, the open frames, and the tokens
that are left. -/
inductive Reached (settings : Settings) (input : Text) : Nat → Progress → List Lexeme → Prop where
  | start : Reached settings input 0 .start (Token.scan 0 input).1
  | token {current : Nat} {p q : Progress} {lexeme : Lexeme} {rest : List Lexeme} :
      Reached settings input current p (lexeme :: rest) → p.step settings input lexeme = .ok q →
      Reached settings input lexeme.stop q rest

theorem Reached.reading_eq (h : Reached settings input current p rest) :
    reading settings input = readFrom settings input (Token.scan 0 input).2 current p rest := by
  induction h with
  | start => rfl
  | token _ hstep ih => rw [ih, readFrom, hstep]

theorem scan_drop_eq_cons {lexeme : Lexeme} {m : Option Misspelling}
    (h : Token.scan current (input.drop current) = (lexeme :: rest, m)) :
    ∃ c, input.HasAt current c ∧ lexeme.index = current ∧ current < lexeme.stop ∧
      lexeme.stop ≤ input.length ∧ lexeme.token.BeginsWith current c lexeme.stop ∧
      Token.first current c (input.drop (current + 1)) = .ok lexeme ∧
      Token.scan lexeme.stop (input.drop lexeme.stop) = (rest, m) := by
  cases htext : input.drop current with
  | nil =>
    rw [htext, Token.scan] at h
    cases h
  | cons c tail =>
    obtain ⟨hmark, htail⟩ := Text.HasAt.of_drop_eq htext
    have hcurrent : current < input.length := hmark.lt
    rw [htext, Token.scan] at h
    cases hfirst : Token.first current c tail with
    | error misspelling =>
      rw [hfirst] at h
      cases h
    | ok lexeme' =>
      rw [hfirst] at h
      obtain ⟨hlexemes, hmisspelling⟩ := Prod.mk.inj h
      obtain ⟨rfl, hrest⟩ := List.cons.inj hlexemes
      obtain ⟨hindex, hlt, hstop, hbegins⟩ := Token.first_place hfirst
      rw [← htail, List.length_drop] at hstop
      have hdrop : input.drop lexeme'.stop = tail.drop (lexeme'.stop - (current + 1)) := by
        rw [← htail, List.drop_drop]
        congr 1
        omega
      refine ⟨c, hmark, hindex, hlt, by omega, hbegins, htail ▸ hfirst, ?_⟩
      rw [hdrop]
      exact Prod.ext hrest hmisspelling

theorem scan_eq_nil {index : Nat} {text : Text} {m : Option Misspelling}
    (h : Token.scan index text = ([], m)) :
    text = [] ∧ m = none ∨
      ∃ c tail misspelling, text = c :: tail ∧ m = some misspelling ∧
        Token.first index c tail = .error misspelling := by
  cases text with
  | nil =>
    rw [Token.scan] at h
    cases h
    exact .inl ⟨rfl, rfl⟩
  | cons c tail =>
    rw [Token.scan] at h
    cases hfirst : Token.first index c tail with
    | error misspelling =>
      rw [hfirst] at h
      cases h
      exact .inr ⟨c, tail, misspelling, rfl, rfl, hfirst⟩
    | ok lexeme =>
      rw [hfirst] at h
      cases h

/-- In every state that is reached the frames are orderly, and what is left is what the rest of the
text is cut into. -/
theorem Reached.orderly (h : Reached settings input current p rest) :
    p.Orderly settings input current ∧ current ≤ input.length ∧
      Token.scan current (input.drop current) = (rest, (Token.scan 0 input).2) := by
  induction h with
  | start =>
    have hstanding : Standing input 0 [.opened .root 0] :=
      .root rfl rfl (Frame.holds_opened _ _ _)
    refine ⟨⟨hstanding, ?_, Nat.zero_le _⟩, Nat.zero_le _, rfl⟩
    intro f hf
    rw [List.mem_singleton.mp hf]
    nofun
  | @token current p q lexeme rest _ hstep ih =>
    obtain ⟨horderly, -, hscan⟩ := ih
    obtain ⟨c, hmark, rfl, hlt, hle, hbegins, -, hrest⟩ := scan_drop_eq_cons hscan
    have hnext := horderly.step hmark hlt hbegins
    rw [hstep] at hnext
    exact ⟨hnext, hle, hrest⟩

end reading

/-! ### Coherent states -/

/-- The frame is a bracket or a range and begins at its mark. -/
def Frame.OpenedIn (input : Text) (f : Frame) : Prop :=
  (f.kind = .bracket .sequence ∧ f.kind.closer? = some ')' ∧ input[f.start]? = some '(') ∨
    (f.kind = .bracket .choice ∧ f.kind.closer? = some '\x7d' ∧ input[f.start]? = some '\x7b') ∨
    (f.kind = .range ∧ f.kind.closer? = none ∧ input[f.start]? = some ':')

/-- The root at the bottom and the frames above it, the innermost first, with everything before
`bound`. -/
structure Lined (input : Text) (bound : Nat) (inner : List Frame) (root : Frame) : Prop where
  root_kind : root.kind = .root
  root_closer : root.kind.closer? = none
  root_start : root.start = 0
  opened : ∀ f ∈ inner, f.OpenedIn input
  starts_increase : inner.Pairwise fun above f => f.start < above.start
  starts_lt : ∀ f ∈ inner, f.start < bound
  children_lt_next : (inner ++ [root]).Pairwise fun above f =>
    ∀ node ∈ f.children, node.StandsIn f.first above.start
  children_lt : ∀ f ∈ inner ++ [root], ∀ node ∈ f.children, node.StandsIn f.first bound
  lastRepeated_lt : ∀ f ∈ inner ++ [root], ∀ k, f.lastRepeated = some k → k < f.children.length
  once : ∀ f ∈ inner ++ [root], ∀ node ∈ f.unrepeated, node.repeatCount = 1

/-- The state of a reading that has come up to `current`. -/
structure Progress.Coherent (settings : Settings) (input : Text) (current : Nat) (p : Progress) :
    Prop where
  current_le : current ≤ input.length
  depth_le : (p.depth : Int) ≤ max settings.maxDepth 0
  range_on_top : ∀ f ∈ p.below, f.kind ≠ .range
  lined : ∃ inner root, p.frames = inner ++ [root] ∧ Lined input current inner root

theorem openedIn_of_opener? {input : Text} {f : Frame} (hroot : f.kind ≠ .root)
    (h : input[f.start]? = f.kind.opener?) : f.OpenedIn input := by
  unfold Frame.OpenedIn
  cases hkind : f.kind with
  | root => exact absurd hkind hroot
  | range =>
    rw [hkind] at h
    exact .inr (.inr ⟨rfl, rfl, h⟩)
  | bracket b =>
    rw [hkind] at h
    cases b with
    | sequence => exact .inl ⟨rfl, rfl, h⟩
    | choice => exact .inr (.inl ⟨rfl, rfl, h⟩)

theorem Frame.Holds.lastRepeated_lt {f : Frame} {bound : Nat} (h : f.Holds bound) (k : Nat)
    (hk : f.lastRepeated = some k) : k < f.children.length := by
  rw [Frame.children, List.length_reverse]
  exact h.repeatedWithin k hk

theorem Standing.lined {input : Text} {bound : Nat} {frames : List Frame}
    (h : Standing input bound frames) :
    ∃ inner root, frames = inner ++ [root] ∧ Lined input bound inner root := by
  induction h with
  | @root f bound hkind hstart hholds =>
    refine ⟨[], f, rfl, ?_⟩
    have hclose : f.kind.closer? = none := by rw [hkind]; rfl
    refine ⟨hkind, hclose, hstart, nofun, .nil, nofun, List.pairwise_singleton _ _, ?_, ?_, ?_⟩
    · exact List.forall_mem_singleton.mpr hholds.children
    · exact List.forall_mem_singleton.mpr hholds.lastRepeated_lt
    · exact List.forall_mem_singleton.mpr hholds.once
  | @inner f below bound hkind hopener hlt hholds _ ih =>
    obtain ⟨inner, root, rfl, hlined⟩ := ih
    refine ⟨f :: inner, root, rfl, hlined.root_kind, hlined.root_closer, hlined.root_start, ?_, ?_, ?_,
      ?_, ?_, ?_, ?_⟩
    · exact List.forall_mem_cons.mpr ⟨openedIn_of_opener? hkind hopener, hlined.opened⟩
    · exact List.pairwise_cons.mpr ⟨hlined.starts_lt, hlined.starts_increase⟩
    · refine List.forall_mem_cons.mpr ⟨hlt, ?_⟩
      intro g hg
      exact Nat.lt_trans (hlined.starts_lt g hg) hlt
    · exact List.pairwise_cons.mpr ⟨hlined.children_lt, hlined.children_lt_next⟩
    · refine List.forall_mem_cons.mpr ⟨hholds.children, ?_⟩
      intro g hg node hnode
      exact (hlined.children_lt g hg node hnode).mono (Nat.le_refl _) (Nat.le_of_lt hlt)
    · exact List.forall_mem_cons.mpr ⟨hholds.lastRepeated_lt, hlined.lastRepeated_lt⟩
    · exact List.forall_mem_cons.mpr ⟨hholds.once, hlined.once⟩

section coherent

variable {settings : Settings} {input : Text} {p : Progress} {current : Nat} {rest : List Lexeme}

theorem Progress.Orderly.coherent (h : p.Orderly settings input current)
    (hle : current ≤ input.length) : p.Coherent settings input current where
  current_le := hle
  depth_le := by
    have hdepth := h.depth_le
    omega
  range_on_top := fun f hf => h.no_range f (List.mem_cons_of_mem _ hf)
  lined := h.standing.lined

theorem Progress.Orderly.misspelt {c : CodePoint} {tail : Text} {m : Misspelling}
    (h : p.Orderly settings input current) (htext : input.drop current = c :: tail)
    (hfirst : Token.first current c tail = .error m) :
    (p.misspelt settings input m).Coherent settings input m.stop := by
  obtain ⟨rfl, hlt, hstop, hsegments⟩ := Token.misspelling_place hfirst
  have hmark : input[m.index]? = some c := by
    rw [← List.head?_drop, htext, List.head?_cons]
  have hlength : (c :: tail).length = input.length - m.index := by rw [← htext, List.length_drop]
  rw [List.length_cons] at hlength
  have hle : m.stop ≤ input.length := by omega
  unfold Progress.misspelt
  rcases hsegments with hnone | ⟨rfl, leaves, hsome, hwithin⟩
  · rw [hnone]
    exact (h.mono (Nat.le_of_lt hlt)).coherent hle
  · rw [hsome]
    let top : Frame := ⟨.range, m.index, (segmentNodes settings input leaves).reverse, none⟩
    have hnodes := Progress.Orderly.standsIn_segmentNodes settings input hwithin
    have hchildren : top.children = segmentNodes settings input leaves := List.reverse_reverse _
    have hfirst : top.first = m.index + 1 := if_neg nofun
    have hholds : top.Holds m.stop := by
      refine ⟨?_, nofun, ?_⟩
      · intro node hnode
        rw [hchildren] at hnode
        rw [hfirst]
        exact (hnodes node hnode).1
      · intro node hnode
        have hnode : node ∈ top.children := hnode
        rw [hchildren] at hnode
        exact (hnodes node hnode).2
    have hstanding : Standing input m.stop (top :: p.frames) :=
      .inner nofun hmark hlt hholds h.standing
    have hdepth : (p.depth : Int) ≤ max settings.maxDepth 0 := by
      have hdepth := h.depth_le
      omega
    exact ⟨hle, hdepth, h.no_range, hstanding.lined⟩

theorem Progress.Orderly.finish (h : p.Orderly settings input current) {root : Node}
    (hroot : p.finish settings input = .ok root) :
    p.below = [] ∧ root = .group (.once (settings.at input 0)) .root p.top.children := by
  obtain ⟨top, below, noted⟩ := p
  have hrange : top.kind ≠ .range := h.no_range top List.mem_cons_self
  unfold Progress.finish at hroot
  cases h.standing with
  | root hkind _ _ =>
    have hkind : top.kind = .root := hkind
    rw [hkind] at hroot
    obtain rfl := Except.ok.inj hroot
    exact ⟨rfl, rfl⟩
  | inner hkind _ _ _ _ =>
    cases htop : top.kind with
    | root => exact absurd htop hkind
    | range => exact absurd htop hrange
    | bracket b =>
      simp only [htop] at hroot
      cases hroot

theorem Progress.progress_of_finish {halt : Halt} (h : p.finish settings input = .error halt) :
    halt.progress = p := by
  unfold Progress.finish at h
  split at h
  · obtain rfl := Except.error.inj h
    rfl
  · cases h

theorem Reached.left_coherent (h : Reached settings input current p rest) {r : Reading}
    (hr : readFrom settings input (Token.scan 0 input).2 current p rest = r) :
    r.progress.Coherent settings input r.current ∧
      ∀ root, r.result = .ok root → Reached settings input r.current r.progress [] ∧
        r.current = input.length ∧ r.progress.below = [] ∧
        root = .group (.once (settings.at input 0)) .root r.progress.top.children := by
  -- The tokens that are left are put on the stack one after the other.
  induction rest generalizing current p with
  | nil =>
    obtain ⟨horderly, hle, hscan⟩ := h.orderly
    rcases scan_eq_nil hscan with ⟨hnil, hnone⟩ | ⟨c, tail, m, htext, hsome, hfirst⟩
    · have hend : current = input.length := Nat.le_antisymm hle (List.drop_eq_nil_iff.mp hnil)
      simp only [hnone, readFrom] at hr
      cases hfinish : p.finish settings input with
      | error halt =>
        rw [hfinish] at hr
        subst hr
        have hhalt := Progress.progress_of_finish hfinish
        exact ⟨hhalt ▸ horderly.coherent hle, fun _ h => absurd h Except.error_ne_ok⟩
      | ok node =>
        rw [hfinish] at hr
        subst hr
        refine ⟨horderly.coherent hle, ?_⟩
        intro root hroot
        obtain rfl := Except.ok.inj hroot
        obtain ⟨hbelow, hnode⟩ := horderly.finish hfinish
        exact ⟨h, hend, hbelow, hnode⟩
    · simp only [hsome, readFrom] at hr
      subst hr
      exact ⟨horderly.misspelt htext hfirst, fun _ h => absurd h Except.error_ne_ok⟩
  | cons lexeme rest ih =>
    obtain ⟨horderly, -, hscan⟩ := h.orderly
    obtain ⟨c, hmark, rfl, hlt, hle, hbegins, -, -⟩ := scan_drop_eq_cons hscan
    have hnext := horderly.step hmark hlt hbegins
    rw [readFrom] at hr
    cases hstep : p.step settings input lexeme with
    | ok q =>
      rw [hstep] at hr
      exact ih (h.token hstep) hr
    | error halt =>
      rw [hstep] at hr hnext
      subst hr
      exact ⟨hnext.coherent hle, fun _ h => absurd h Except.error_ne_ok⟩

end coherent

theorem reached_of_read {settings : Settings} {input : Text} {root : Node}
    (h : read settings input = .ok root) :
    ∃ p, (reading settings input).progress = p ∧ Reached settings input input.length p [] ∧
      p.below = [] ∧ p.top.kind = .root ∧ p.top.start = 0 ∧ p.top.RepeatedWithin ∧
      root = .group (.once (settings.at input 0)) .root p.top.children := by
  have hstart : Reached settings input 0 .start (Token.scan 0 input).1 := .start
  obtain ⟨-, hsucceeded⟩ := hstart.left_coherent (r := reading settings input) rfl
  obtain ⟨hreached, hend, hbelow, hroot⟩ := hsucceeded root h
  rw [hend] at hreached
  have hstanding := hreached.orderly.1.standing
  have hkind := hstanding.kind_eq_root_iff.mpr hbelow
  exact ⟨_, rfl, hreached, hbelow, hkind, hstanding.start_eq_zero hkind,
    hstanding.holds.repeatedWithin, hroot⟩

/-- Every state of a reading is coherent and has no frame for a range; so is the state that is left
behind, in which a range may stand on top only if the reading failed. A reading that succeeds has come
to the end of the text and leaves the root as the only frame. -/
theorem reading_coherent (settings : Settings) (input : Text) :
    (∀ current p rest, Reached settings input current p rest →
      p.Coherent settings input current ∧ ∀ f ∈ p.frames, f.kind ≠ .range) ∧
    (reading settings input).progress.Coherent settings input (reading settings input).current ∧
    ∀ root, (reading settings input).result = .ok root →
      Reached settings input (reading settings input).current (reading settings input).progress [] ∧
      (reading settings input).current = input.length ∧
      (reading settings input).progress.below = [] ∧
      root = .group (.once (settings.at input 0)) .root (reading settings input).progress.top.children := by
  refine ⟨?_, Reached.start.left_coherent rfl⟩
  intro current p rest h
  obtain ⟨horderly, hle, -⟩ := h.orderly
  exact ⟨horderly.coherent hle, horderly.no_range⟩

/-- A range that fails in its second segment leaves its frame on top of that of a bracket. -/
theorem reading_coherent_range :
    ((reading {} "(a:0-9:x;").progress.frames.map Frame.kind =
        [.range, .bracket .sequence, .root]) ∧
      (reading {} "(a:0-9:x;").progress.Coherent {} "(a:0-9:x;" 9 ∧
      ∃ root, (reading {} "(a<2>)").result = .ok root ∧ (reading {} "(a<2>)").progress.below = [] ∧
        Progress.start.Coherent {} "(a<2>)" 0 := by
  have hkinds : (reading {} "(a:0-9:x;").progress.frames.map Frame.kind =
      [.range, .bracket .sequence, .root] := by decide +kernel
  have hcurrent : (reading {} "(a:0-9:x;").current = 9 := by decide +kernel
  have hfailed := (reading_coherent {} "(a:0-9:x;").2.1
  rw [hcurrent] at hfailed
  have hok : (reading {} "(a<2>)").result.isOk = true := by decide +kernel
  cases hroot : (reading {} "(a<2>)").result with
  | error error =>
    rw [hroot] at hok
    cases hok
  | ok root =>
    obtain ⟨hreached, -, hsucceeded⟩ := reading_coherent {} "(a<2>)"
    exact ⟨hkinds, hfailed, root, rfl, (hsucceeded root hroot).2.2.1, (hreached 0 .start _ .start).1⟩

end Pattern

end RandomText
