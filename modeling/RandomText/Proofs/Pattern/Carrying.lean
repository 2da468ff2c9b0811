import RandomText.Proofs.Pattern.Stack

/-!
# Readings carried to another text

The same tokens may stand in another text at other indices. What a token is depends on nothing but
the part of the text that was read for it, so it is found wherever this part stands, with its
indices carried along (`Token.first_carried`), and it does to the open frames what it did before,
also on top of nodes that were read earlier (`Progress.stepped_carriedOnto`). Only a misspelling that
misses something at the end of the text may be mended by more text. A map of states that goes along with
every token goes along with the whole reading (`Reached.mapped`), so a text that stands behind another,
or before one, is read as before up to its end (`Reached.carried`).
-/

namespace RandomText

namespace Pattern

/-- The error with the index of a fault carried along. -/
def ReadError.mapIndex (φ : Nat → Nat) : ReadError → ReadError
  | .fault f => .fault ⟨f.cause, φ f.index⟩
  | .numeral e => .numeral e

/-- Something is missing at the end of the text. -/
def ReadError.IsUnclosed (e : ReadError) : Prop :=
  ∃ closers index, e = .fault ⟨.unclosed closers, index⟩

/-! ### Tokens -/

namespace Token

/-- Segments with the indices where they begin carried along. -/
def mapSegments (φ : Nat → Nat) (segments : List (Nat × Atom)) : List (Nat × Atom) :=
  segments.map fun s => (φ s.1, s.2)

def mapIndex (φ : Nat → Nat) : Token → Token
  | .range segments => .range (mapSegments φ segments)
  | token => token

end Token

def Lexeme.mapIndex (φ : Nat → Nat) (lexeme : Lexeme) : Lexeme :=
  ⟨φ lexeme.index, lexeme.token.mapIndex φ, φ lexeme.stop⟩

def Misspelling.mapIndex (φ : Nat → Nat) (m : Misspelling) : Misspelling :=
  ⟨φ m.index, m.error.mapIndex φ, φ m.stop, m.segments.map (Token.mapSegments φ)⟩

namespace Token

/-- The index up to which a token was read. -/
def stopOf : Except Misspelling Lexeme → Nat
  | .ok lexeme => lexeme.stop
  | .error m => m.stop

/-- What was read is one part of the text, so that its indices keep their distances. -/
def Rigid (φ : Nat → Nat) (index stop : Nat) : Prop :=
  ∀ i, index ≤ i → i ≤ stop → φ i = φ index + (i - index)

theorem Rigid.of_le {φ : Nat → Nat} {index next stop : Nat} (h : Rigid φ index stop)
    (hle : index ≤ next) : Rigid φ next stop := by
  intro i hi hstop
  have hnext := h next hle (by omega)
  have hfar := h i (by omega) hstop
  omega

section carried

variable (φ : Nat → Nat) {index : Nat} {text rest : Text}

theorem upTo_take {stops : List CodePoint} {e : Enclosed} (h : upTo stops text = some e)
    (behind : Text) : upTo stops (text.take (e.width + 1) ++ behind) = some e := by
  fun_induction upTo stops text generalizing e with
  | case1 => cases h
  | case2 c rest hstop =>
    obtain rfl := Option.some.inj h
    exact upTo_stop hstop _
  | case3 => cases h
  | case4 d rest hstops ih =>
    obtain ⟨inner, hinner, rfl⟩ := Option.map_eq_some_iff.mp h
    rw [List.take_succ_cons, List.take_succ_cons, List.cons_append, List.cons_append,
      upTo_escaped hstops, ih hinner]
    rfl
  | case5 c rest hstops hslash ih =>
    obtain ⟨inner, hinner, rfl⟩ := Option.map_eq_some_iff.mp h
    rw [List.take_succ_cons, List.cons_append, upTo_plain hstops hslash, ih hinner]
    rfl

theorem numberRange_carried (index : Nat) (first last : Text) :
    numberRange (φ index) first last =
      (numberRange index first last).mapError (ReadError.mapIndex φ) := by
  unfold numberRange
  cases Numeral.read first with
  | error error => rfl
  | ok low =>
    cases Numeral.read last with
    | error error => rfl
    | ok high =>
      show dite (high < low) _ _ = (dite (high < low) _ _ : Except ReadError Atom).mapError _
      split <;> rfl

theorem charRange_carried (index : Nat) (segment first last : Text) :
    charRange (φ index) segment first last =
      (charRange index segment first last).mapError (ReadError.mapIndex φ) := by
  unfold charRange
  split
  · split <;> rfl
  · rfl

theorem segment_carried (index : Nat) (text : Text) :
    segment (φ index) text = (segment index text).mapError (ReadError.mapIndex φ) := by
  unfold segment
  split
  · rfl
  · split
    · split
      · exact numberRange_carried φ index _ _
      · rfl
    · exact charRange_carried φ index _ _ _

theorem sampleSetOf_carried (index : Nat) (text : Text) :
    sampleSetOf (φ index) text =
      (sampleSetOf index text).bimap (ReadError.mapIndex φ) (mapIndex φ) := by
  unfold sampleSetOf
  split <;> rfl

theorem repetitionOf_carried (index : Nat) (text : Text) :
    repetitionOf (φ index) text =
      (repetitionOf index text).bimap (ReadError.mapIndex φ) (mapIndex φ) := by
  unfold repetitionOf
  split
  · cases Numeral.read text with
    | error error => rfl
    | ok count =>
      show dite (count < 1) _ _ = (dite (count < 1) _ _ : Except ReadError Token).bimap _ _
      split <;> rfl
  · rfl

theorem take_append_eq {width n : Nat} (hle : width ≤ n) (behind : Text) :
    text.take n ++ behind = text.take width ++ ((text.drop width).take (n - width) ++ behind) := by
  rw [← List.append_assoc, ← List.take_add, Nat.add_sub_cancel' hle]

theorem segments_carried
    (hdecided : ∀ e last, (segments index text).2 = .error (e, last) → ¬e.IsUnclosed)
    (hrigid : Rigid φ index (segmentsStop (segments index text).2)) (behind : Text) :
    segments (φ index) (text.take (segmentsStop (segments index text).2 - index) ++ behind) =
      (mapSegments φ (segments index text).1,
        (segments index text).2.bimap (fun failure => (failure.1.mapIndex φ, φ failure.2)) φ) := by
  fun_induction segments index text with
  | case1 index => exact absurd ⟨_, _, rfl⟩ (hdecided _ _ rfl)
  | case2 index c rest hupTo last => exact absurd ⟨_, _, rfl⟩ (hdecided _ _ rfl)
  | case3 index c rest e hupTo next error hsegment =>
    have hwidth : next - index = e.width + 1 := by omega
    have hnext : φ index + e.width + 1 = φ next := by
      have hfar : φ next = φ index + (next - index) := hrigid next (by omega) (Nat.le_refl _)
      omega
    have hcarried := segment_carried φ index e.text
    rw [hsegment] at hcarried
    show segments (φ index) ((c :: rest).take (next - index) ++ behind) =
      ([], .error (error.mapIndex φ, φ next))
    rw [hwidth, segments_of_error (upTo_take hupTo behind) hcarried, hnext]
  | case4 index c rest e hupTo next leaf hsegment hend =>
    have hwidth : next - index = e.width + 1 := by omega
    have hnext : φ index + e.width + 1 = φ next := by
      have hfar : φ next = φ index + (next - index) := hrigid next (by omega) (Nat.le_refl _)
      omega
    have hcarried := segment_carried φ index e.text
    rw [hsegment] at hcarried
    show segments (φ index) ((c :: rest).take (next - index) ++ behind) =
      ([(φ index, leaf)], .ok (φ next))
    rw [hwidth, segments_of_upTo (upTo_take hupTo behind) hcarried, if_pos hend, hnext]
  | case5 index c rest e hupTo next leaf hsegment hend others ih =>
    obtain ⟨hle, -, -⟩ := segments_place next (rest.drop e.width)
    change next ≤ segmentsStop others.2 at hle
    change Rigid φ index (segmentsStop others.2) at hrigid
    have hnext : φ index + (e.width + 1) = φ next := by
      have hfar := hrigid next (by omega) hle
      omega
    have hcarried := segment_carried φ index e.text
    rw [hsegment] at hcarried
    have hwidth := Descent.upTo_width_lt hupTo
    have hpiece : ((c :: rest).take (e.width + 1)).length = e.width + 1 :=
      List.length_take_of_le hwidth
    have hrest : segmentsStop others.2 - index - (e.width + 1) = segmentsStop others.2 - next := by
      omega
    show segments (φ index) ((c :: rest).take (segmentsStop others.2 - index) ++ behind) =
      ((φ index, leaf) :: mapSegments φ others.1, others.2.bimap _ φ)
    rw [take_append_eq (show e.width + 1 ≤ segmentsStop others.2 - index by omega),
      segments_of_upTo (upTo_take hupTo _) hcarried,
      if_neg hend, List.drop_left' hpiece, hrest, Nat.add_assoc, hnext, List.drop_succ_cons]
    simp only [others, ih hdecided (hrigid.of_le (by omega))]

theorem enclosed_carried {stop : CodePoint} {make make' : Text → Except ReadError Token}
    (hmake : ∀ text, make' text = (make text).bimap (ReadError.mapIndex φ) (mapIndex φ))
    (hdecided : ∀ m, enclosed index stop make rest = .error m → ¬m.error.IsUnclosed)
    (hrigid : Rigid φ index (stopOf (enclosed index stop make rest))) (behind : Text) :
    enclosed (φ index) stop make'
        (rest.take (stopOf (enclosed index stop make rest) - (index + 1)) ++ behind) =
      (enclosed index stop make rest).bimap (Misspelling.mapIndex φ) (Lexeme.mapIndex φ) := by
  cases hupTo : upTo [stop] rest with
  | none =>
    have hunclosed : enclosed index stop make rest =
        .error ⟨index, .fault ⟨.unclosed [stop], index + 1 + rest.length⟩, index + 1 + rest.length,
          none⟩ := by
      simp only [enclosed, hupTo]
    exact absurd ⟨_, _, rfl⟩ (hdecided _ hunclosed)
  | some e =>
    have hmake' := hmake e.text
    have hstop : stopOf (enclosed index stop make rest) = index + 1 + e.width + 1 := by
      simp only [enclosed, hupTo]
      cases make e.text <;> rfl
    have hwidth : index + 1 + e.width + 1 - (index + 1) = e.width + 1 := by omega
    have hnext : φ index + 1 + e.width + 1 = φ (index + 1 + e.width + 1) := by
      have hfar := hrigid (index + 1 + e.width + 1) (by omega) (Nat.le_of_eq hstop.symm)
      omega
    rw [hstop, hwidth]
    simp only [enclosed, hupTo, upTo_take hupTo behind, hmake', hnext]
    cases make e.text <;> rfl

theorem rangeOf_carried (hdecided : ∀ m, rangeOf index rest = .error m → ¬m.error.IsUnclosed)
    (hrigid : Rigid φ index (stopOf (rangeOf index rest))) (behind : Text) :
    rangeOf (φ index) (rest.take (stopOf (rangeOf index rest) - (index + 1)) ++ behind) =
      (rangeOf index rest).bimap (Misspelling.mapIndex φ) (Lexeme.mapIndex φ) := by
  obtain ⟨hle, -, -⟩ := segments_place (index + 1) rest
  have hrange := rangeOf.eq_def index rest
  have hstop : stopOf (rangeOf index rest) = segmentsStop (segments (index + 1) rest).2 := by
    rw [hrange]
    rcases segments (index + 1) rest with ⟨leaves, ⟨error, last⟩ | last⟩ <;> rfl
  rw [hstop] at hrigid ⊢
  have hnext : φ index + 1 = φ (index + 1) := by
    have hfar := hrigid (index + 1) (Nat.le_succ _) hle
    omega
  have hsegmentsDecided : ∀ e last, (segments (index + 1) rest).2 = .error (e, last) →
      ¬e.IsUnclosed := by
    intro e last herror
    refine hdecided ⟨index, e, last, some (segments (index + 1) rest).1⟩ ?_
    rw [hrange]
    rcases hcut : segments (index + 1) rest with ⟨leaves, result⟩
    rw [hcut] at herror
    rw [show result = .error (e, last) from herror]
  have hsegments := segments_carried φ hsegmentsDecided (hrigid.of_le (Nat.le_succ _)) behind
  rw [rangeOf, hnext, hsegments, hrange]
  rcases segments (index + 1) rest with ⟨leaves, ⟨error, last⟩ | last⟩ <;> rfl

theorem mapIndex_single (c : CodePoint) :
    ((single? c).getD (.other c)).mapIndex φ = (single? c).getD (.other c) := by
  unfold single?
  repeat' split
  all_goals rfl

/-- A token, or a misspelling that more text does not mend, is found wherever the part of the text
that was read for it stands. -/
theorem first_carried {c : CodePoint}
    (hdecided : ∀ m, first index c rest = .error m → ¬m.error.IsUnclosed)
    (hrigid : Rigid φ index (stopOf (first index c rest))) (behind : Text) :
    first (φ index) c (rest.take (stopOf (first index c rest) - (index + 1)) ++ behind) =
      (first index c rest).bimap (Misspelling.mapIndex φ) (Lexeme.mapIndex φ) := by
  unfold first at hdecided hrigid ⊢
  by_cases hquote : c = '"'
  · simp only [if_pos hquote] at hdecided hrigid ⊢
    exact enclosed_carried φ (fun text => rfl) hdecided hrigid behind
  by_cases hset : c = '['
  · simp only [if_neg hquote, if_pos hset] at hdecided hrigid ⊢
    exact enclosed_carried φ (sampleSetOf_carried φ index) hdecided hrigid behind
  by_cases hrepeat : c = '<'
  · simp only [if_neg hquote, if_neg hset, if_pos hrepeat] at hdecided hrigid ⊢
    exact enclosed_carried φ (repetitionOf_carried φ index) hdecided hrigid behind
  by_cases hrange : c = ':'
  · simp only [if_neg hquote, if_neg hset, if_neg hrepeat, if_pos hrange] at hdecided hrigid ⊢
    exact rangeOf_carried φ hdecided hrigid behind
  simp only [if_neg hquote, if_neg hset, if_neg hrepeat, if_neg hrange] at hrigid ⊢
  have hnext : φ index + 1 = φ (index + 1) := by
    have hfar := hrigid (index + 1) (Nat.le_succ _) (Nat.le_refl _)
    omega
  rw [hnext]
  exact congrArg (fun token => Except.ok (⟨φ index, token, φ (index + 1)⟩ : Lexeme))
    (mapIndex_single φ c).symm

theorem first_carried_of_ok {c : CodePoint} {lexeme : Lexeme} (h : first index c rest = .ok lexeme)
    (hrigid : Rigid φ index lexeme.stop) (behind : Text) :
    first (φ index) c (rest.take (lexeme.stop - (index + 1)) ++ behind) =
      .ok (lexeme.mapIndex φ) := by
  have hcarried := first_carried φ (fun m hm => absurd (hm.symm.trans h) Except.error_ne_ok)
    (h ▸ hrigid) behind
  rw [h] at hcarried
  exact hcarried

theorem first_append {c : CodePoint}
    (hdecided : ∀ m, first index c rest = .error m → ¬m.error.IsUnclosed)
    (hrigid : ∀ i k, φ (i + k) = φ i + k) (behind : Text) :
    first (φ index) c (rest ++ behind) =
      (first index c rest).bimap (Misspelling.mapIndex φ) (Lexeme.mapIndex φ) := by
  have hfar : Rigid φ index (stopOf (first index c rest)) := by
    intro i hi _
    rw [← hrigid, Nat.add_sub_cancel' hi]
  have hcarried := first_carried φ hdecided hfar
    (rest.drop (stopOf (first index c rest) - (index + 1)) ++ behind)
  rw [← List.append_assoc, List.take_append_drop] at hcarried
  exact hcarried

theorem first_append_of_ok {c : CodePoint} {lexeme : Lexeme} (h : first index c rest = .ok lexeme)
    (hrigid : ∀ i k, φ (i + k) = φ i + k) (behind : Text) :
    first (φ index) c (rest ++ behind) = .ok (lexeme.mapIndex φ) := by
  have hcarried := first_append φ (fun m hm => absurd (hm.symm.trans h) Except.error_ne_ok)
    hrigid behind
  rw [h] at hcarried
  exact hcarried

theorem first_append_of_error {c : CodePoint} {m : Misspelling} (h : first index c rest = .error m)
    (hdecided : ¬m.error.IsUnclosed) (hrigid : ∀ i k, φ (i + k) = φ i + k) (behind : Text) :
    first (φ index) c (rest ++ behind) = .error (m.mapIndex φ) := by
  have hcarried := first_append φ (fun m' hm => Except.error.inj (h.symm.trans hm) ▸ hdecided)
    hrigid behind
  rw [h] at hcarried
  exact hcarried

end carried

end Token

end Pattern

/-! ### Nodes -/

def Tag.mapPosition (g : Position → Position) (tag : Tag) : Tag :=
  { tag with position := tag.position.map g }

namespace Node

mutual

/-- The node with every position carried along. -/
def mapPosition (g : Position → Position) : Node → Node
  | leaf tag atom => leaf (tag.mapPosition g) atom
  | group tag kind children => group (tag.mapPosition g) kind (mapPositionAll g children)

def mapPositionAll (g : Position → Position) : List Node → List Node
  | [] => []
  | node :: rest => mapPosition g node :: mapPositionAll g rest

end

variable (g : Position → Position)

theorem mapPositionAll_eq_map (nodes : List Node) :
    mapPositionAll g nodes = nodes.map (mapPosition g) := by
  induction nodes with
  | nil => rfl
  | cons node rest ih => rw [mapPositionAll, ih, List.map_cons]

theorem mapPositionAll_reverse (nodes : List Node) :
    mapPositionAll g nodes.reverse = (mapPositionAll g nodes).reverse := by
  rw [mapPositionAll_eq_map, mapPositionAll_eq_map, List.map_reverse]

theorem length_mapPositionAll (nodes : List Node) :
    (mapPositionAll g nodes).length = nodes.length := by
  rw [mapPositionAll_eq_map, List.length_map]

theorem mapPosition_withRepeatCount (node : Node) (n : Nat) (h : 1 ≤ n) :
    (node.withRepeatCount n h).mapPosition g = (node.mapPosition g).withRepeatCount n h := by
  cases node <;> rfl

mutual

theorem same_mapPosition (node : Node) : (node.mapPosition g).same node = true := by
  match node with
  | leaf tag atom => simp [mapPosition, Tag.mapPosition, same]
  | group tag kind children =>
    simp [mapPosition, Tag.mapPosition, same, sameAll_mapPositionAll children]

theorem sameAll_mapPositionAll (nodes : List Node) :
    sameAll (mapPositionAll g nodes) nodes = true := by
  match nodes with
  | [] => rfl
  | node :: rest =>
    rw [mapPositionAll, sameAll, same_mapPosition node, sameAll_mapPositionAll rest]
    rfl

end

end Node

namespace Pattern

/-! ### Frames -/

/-- How the places of a text are carried to another text. -/
structure Carry (settings : Settings) (input whole : Text) where
  index : Nat → Nat
  position : Position → Position
  at_index : ∀ i, (settings.at input i).map position = settings.at whole (index i)

def Event.mapIndex (φ : Nat → Nat) : Event → Event
  | .opened kind index => .opened kind (φ index)
  | .closed kind start => .closed kind (φ start)
  | .ignored c index => .ignored c (φ index)

section carry

variable {settings : Settings} {input whole : Text} (carry : Carry settings input whole)

/-- The frame with its nodes carried along; the root stands where the frame `base` stands, with its
nodes behind those of `base`. -/
def Frame.carriedOnto (f base : Frame) : Frame :=
  let latest := Node.mapPositionAll carry.position f.latest
  if f.kind = .root then
    { f with
      latest := latest ++ base.latest
      lastRepeated := (f.lastRepeated.map (· + base.latest.length)).or base.lastRepeated }
  else { f with start := carry.index f.start, latest := latest }

theorem Frame.carriedOnto_root {f : Frame} (base : Frame) (h : f.kind = .root) :
    f.carriedOnto carry base =
      { f with
        latest := Node.mapPositionAll carry.position f.latest ++ base.latest
        lastRepeated := (f.lastRepeated.map (· + base.latest.length)).or base.lastRepeated } :=
  if_pos h

theorem Frame.carriedOnto_inner {f : Frame} (base : Frame) (h : f.kind ≠ .root) :
    f.carriedOnto carry base =
      { f with
        start := carry.index f.start
        latest := Node.mapPositionAll carry.position f.latest } :=
  if_neg h

theorem Frame.kind_carriedOnto (base f : Frame) : (f.carriedOnto carry base).kind = f.kind := by
  unfold Frame.carriedOnto
  split <;> rfl

theorem Frame.children_carriedOnto (base : Frame) {f : Frame} (h : f.kind = .root) :
    (f.carriedOnto carry base).children =
      base.children ++ Node.mapPositionAll carry.position f.children := by
  rw [carriedOnto_root carry base h, children, List.reverse_append, ← Node.mapPositionAll_reverse]
  rfl

theorem Frame.push_carriedOnto (base f : Frame) (node : Node) :
    (f.push node).carriedOnto carry base =
      (f.carriedOnto carry base).push (node.mapPosition carry.position) := by
  by_cases h : f.kind = .root
  · rw [carriedOnto_root carry base h, carriedOnto_root (f := f.push node) carry base h]
    rfl
  · rw [carriedOnto_inner carry base h, carriedOnto_inner (f := f.push node) carry base h]
    rfl

namespace Progress

/-- The progress of a reading that is carried along, after the progress `base`, in which the root is
the only frame. -/
def carriedOnto (p base : Progress) : Progress where
  top := p.top.carriedOnto carry base.top
  below := p.below.map fun f => f.carriedOnto carry base.top
  noted := p.noted.map (Event.mapIndex carry.index) ++ base.noted

variable (base p : Progress)

/-- An outcome carried along. -/
def carriedOutcome : Except ReadError Progress → Except ReadError Progress :=
  Except.bimap (ReadError.mapIndex carry.index) fun p => p.carriedOnto carry base

theorem start_carriedOnto {base : Progress} (hbelow : base.below = [])
    (hkind : base.top.kind = .root) (hstart : base.top.start = 0) :
    Progress.start.carriedOnto carry base = base := by
  obtain ⟨⟨kind, start, latest, lastRepeated⟩, below, noted⟩ := base
  obtain rfl : below = [] := hbelow
  obtain rfl : kind = .root := hkind
  obtain rfl : start = 0 := hstart
  rfl

theorem push_carriedOnto (node : Node) :
    (p.push node).carriedOnto carry base =
      (p.carriedOnto carry base).push (node.mapPosition carry.position) := by
  unfold Progress.push Progress.carriedOnto
  simp only [Frame.push_carriedOnto]

theorem depth_carriedOnto : (p.carriedOnto carry base).depth = p.depth := by
  have hframes : (p.carriedOnto carry base).frames =
      p.frames.map fun f => f.carriedOnto carry base.top := rfl
  simp only [Progress.depth, hframes, List.filter_map, List.length_map, Function.comp_def,
    Frame.kind_carriedOnto]

theorem ignore_carriedOnto (c : CodePoint) (index : Nat) :
    ((p.carriedOnto carry base).ignore settings c (carry.index index)).mapError Halt.error =
      carriedOutcome carry base ((p.ignore settings c index).mapError Halt.error) := by
  unfold Progress.ignore
  split <;> rfl

theorem openBracket_carriedOnto (bracket : Bracket) (index : Nat) :
    ((p.carriedOnto carry base).openBracket settings bracket (carry.index index)).mapError Halt.error =
      carriedOutcome carry base ((p.openBracket settings bracket index).mapError Halt.error) := by
  unfold Progress.openBracket
  rw [depth_carriedOnto]
  split <;> rfl

theorem close_carried (kind : FrameKind) (index : Nat) (nodes : List Node) :
    kind.close (settings.at whole (carry.index index)) (Node.mapPositionAll carry.position nodes) =
      (kind.close (settings.at input index) nodes).mapPosition carry.position := by
  rw [← carry.at_index]
  match kind, nodes with
  | .root, _ => rfl
  | .bracket .sequence, _ => rfl
  | .bracket .choice, _ => rfl
  | .range, [] => rfl
  | .range, [_] => rfl
  | .range, _ :: _ :: _ => rfl

theorem closeBracket_carriedOnto (bracket : Bracket) (index : Nat) :
    ((p.carriedOnto carry base).closeBracket settings whole bracket (carry.index index)).mapError
        Halt.error =
      carriedOutcome carry base
        ((p.closeBracket settings input bracket index).mapError Halt.error) := by
  obtain ⟨top, below, noted⟩ := p
  cases below with
  | nil => exact ignore_carriedOnto carry base ⟨top, [], noted⟩ bracket.closer index
  | cons parent below =>
    by_cases hkind : top.kind = .bracket bracket
    · have hinner : top.kind ≠ .root := by
        rw [hkind]
        nofun
      have hnode : top.kind.close (settings.at whole (carry.index top.start))
          (Node.mapPositionAll carry.position top.latest).reverse =
          (top.kind.close (settings.at input top.start) top.children).mapPosition carry.position := by
        rw [← Node.mapPositionAll_reverse]
        exact close_carried carry top.kind top.start top.children
      have hempty : Node.mapPositionAll carry.position top.latest = [] ↔ top.latest = [] := by
        rw [Node.mapPositionAll_eq_map, List.map_eq_nil_iff]
      have hmoved : Progress.carriedOnto carry ⟨top, parent :: below, noted⟩ base =
          ⟨{ top with
              start := carry.index top.start
              latest := Node.mapPositionAll carry.position top.latest },
            (parent :: below).map fun f => f.carriedOnto carry base.top,
            noted.map (Event.mapIndex carry.index) ++ base.noted⟩ := by
        rw [Progress.carriedOnto, Frame.carriedOnto_inner carry base.top hinner]
      rw [hmoved]
      simp only [Progress.closeBracket, List.map_cons, hkind, if_true, hempty]
      rw [hkind] at hnode
      by_cases hchoice : bracket = .choice ∧ top.latest = []
      · rw [if_pos hchoice, if_pos hchoice]
        rfl
      · rw [if_neg hchoice, if_neg hchoice]
        have hpushed := push_carriedOnto carry base
          (Progress.note (.closed (.bracket bracket) top.start) ⟨parent, below, noted⟩)
          ((FrameKind.bracket bracket).close (settings.at input top.start) top.children)
        rw [← hnode] at hpushed
        exact congrArg Except.ok hpushed.symm
    · have hmoved : (top.carriedOnto carry base.top).kind ≠ .bracket bracket := by
        rw [Frame.kind_carriedOnto]
        exact hkind
      have hhere : Progress.closeBracket settings input bracket index ⟨top, parent :: below, noted⟩ =
          Progress.ignore settings bracket.closer index ⟨top, parent :: below, noted⟩ := if_neg hkind
      have hthere : Progress.closeBracket settings whole bracket (carry.index index)
          (Progress.carriedOnto carry ⟨top, parent :: below, noted⟩ base) =
          Progress.ignore settings bracket.closer (carry.index index)
            (Progress.carriedOnto carry ⟨top, parent :: below, noted⟩ base) := if_neg hmoved
      rw [hhere, hthere]
      exact ignore_carriedOnto carry base _ bracket.closer index

theorem lastRepeated_carried_eq_iff (hbase : base.top.RepeatedWithin) (lastRepeated : Option Nat)
    (k : Nat) :
    (lastRepeated.map (· + base.top.latest.length)).or base.top.lastRepeated =
        some (k + base.top.latest.length) ↔
      lastRepeated = some k := by
  cases lastRepeated with
  | none =>
    refine ⟨fun h => ?_, nofun⟩
    have hlt := hbase _ h
    omega
  | some j => simp

theorem applyRepetition_carriedOnto (hbase : base.top.RepeatedWithin)
    (hlatest : p.top.latest = [] → base.top.latest = []) (count : Nat) (one_le : 1 ≤ count)
    (index : Nat) :
    ((p.carriedOnto carry base).applyRepetition count one_le (carry.index index)).mapError
        Halt.error =
      carriedOutcome carry base ((p.applyRepetition count one_le index).mapError Halt.error) := by
  obtain ⟨⟨kind, start, latest, lastRepeated⟩, below, noted⟩ := p
  by_cases hroot : kind = .root
  · subst hroot
    cases latest with
    | nil =>
      have hnone : base.top.latest = [] := hlatest rfl
      simp only [Progress.carriedOnto, Frame.carriedOnto, Node.mapPositionAll, hnone, if_true,
        Progress.applyRepetition, List.append_nil]
      rfl
    | cons node earlier =>
      have hlength : (Node.mapPositionAll carry.position earlier ++ base.top.latest).length =
          earlier.length + base.top.latest.length := by
        rw [List.length_append, Node.length_mapPositionAll]
      simp only [Progress.carriedOnto, Frame.carriedOnto, Node.mapPositionAll, if_true,
        Progress.applyRepetition, List.cons_append, hlength,
        lastRepeated_carried_eq_iff base hbase]
      split
      · rfl
      · simp only [carriedOutcome, Except.mapError, Except.bimap, Progress.carriedOnto,
          Frame.carriedOnto, if_true, Node.mapPositionAll, Node.mapPosition_withRepeatCount,
          List.cons_append, Option.map_some, Option.some_or]
  · cases latest with
    | nil =>
      simp only [Progress.carriedOnto, Frame.carriedOnto, Node.mapPositionAll, hroot, if_false,
        Progress.applyRepetition]
      simp only [carriedOutcome, Progress.refuse, Except.mapError, Except.bimap, ReadError.mapIndex]
    | cons node earlier =>
      simp only [Progress.carriedOnto, Frame.carriedOnto, Node.mapPositionAll, hroot, if_false,
        Progress.applyRepetition, Node.length_mapPositionAll]
      split
      · rfl
      · simp only [carriedOutcome, Except.mapError, Except.bimap, Progress.carriedOnto,
          Frame.carriedOnto, hroot, if_false, Node.mapPositionAll, Node.mapPosition_withRepeatCount]

theorem segmentNodes_carried (segments : List (Nat × Atom)) :
    segmentNodes settings whole (Token.mapSegments carry.index segments) =
      Node.mapPositionAll carry.position (segmentNodes settings input segments) := by
  rw [segmentNodes, Token.mapSegments, List.map_map, Node.mapPositionAll_eq_map, segmentNodes,
    List.map_map]
  refine List.map_congr_left ?_
  intro s _
  simp only [Function.comp, Node.mapPosition, Tag.mapPosition, Tag.once, carry.at_index]

/-- A token does to the frames what it did where they were, also on top of `base`; only there may be
something to repeat where there was nothing before. -/
theorem stepped_carriedOnto (hbase : base.top.RepeatedWithin) (lexeme : Lexeme)
    (h : base.top.latest = [] ∨ ∃ q, p.stepped settings input lexeme = .ok q) :
    (p.carriedOnto carry base).stepped settings whole (lexeme.mapIndex carry.index) =
      carriedOutcome carry base (p.stepped settings input lexeme) := by
  obtain ⟨index, token, stop⟩ := lexeme
  cases token with
  | atom a =>
    have hnode : (Node.leaf (.once (settings.at whole (carry.index index))) a) =
        (Node.leaf (.once (settings.at input index)) a).mapPosition carry.position := by
      simp only [Node.mapPosition, Tag.mapPosition, Tag.once, carry.at_index]
    have hpushed := push_carriedOnto carry base p (.leaf (.once (settings.at input index)) a)
    rw [← hnode] at hpushed
    exact congrArg Except.ok hpushed.symm
  | range segments =>
    have hnode := close_carried carry .range index (segmentNodes settings input segments)
    rw [← segmentNodes_carried] at hnode
    show Except.ok ((p.carriedOnto carry base).addRange _ _ _ _) =
      Except.ok ((p.addRange _ _ _ _).carriedOnto carry base)
    rw [addRange, addRange, push_carriedOnto, ← hnode]
    rfl
  | repetition count one_le =>
    refine applyRepetition_carriedOnto carry base p hbase ?_ count one_le index
    intro hlatest
    rcases h with hempty | ⟨q, hq⟩
    · exact hempty
    · simp only [Progress.stepped, Progress.step, Progress.applyRepetition, hlatest] at hq
      cases hq
  | opening bracket => exact openBracket_carriedOnto carry base p bracket index
  | closing bracket => exact closeBracket_carriedOnto carry base p bracket index
  | other c => exact ignore_carriedOnto carry base p c index

end Progress

/-- A map of states that commutes with every accepted token carries a whole reading along: where the
part of the text that was read stands in another text, it leads from the image of the start to the image
of the state, whatever is behind it. -/
theorem Reached.mapped {settings' : Settings} {φ : Nat → Nat} {F : Progress → Progress} {current : Nat}
    {p : Progress} {rest : List Lexeme} (h : Reached settings input current p rest)
    (hrigid : ∀ i k, φ (i + k) = φ i + k)
    (hstep : ∀ {current p q lexeme rest}, Reached settings input current p (lexeme :: rest) →
      p.step settings input lexeme = .ok q →
        (F p).step settings' whole (lexeme.mapIndex φ) = .ok (F q))
    {behind : Text} (hstart : Reached settings' whole (φ 0) (F .start)
      (Token.scan (φ 0) (input.take current ++ behind)).1) :
    Reached settings' whole (φ current) (F p) (Token.scan (φ current) behind).1 := by
  -- What was read of the last token is a part of what is behind the tokens before it.
  induction h generalizing behind with
  | start =>
    rw [List.take_zero, List.nil_append] at hstart
    exact hstart
  | @token current p q lexeme rest hreached hlast ih =>
    obtain ⟨-, -, hscan⟩ := hreached.orderly
    obtain ⟨c, hmark, -, hlt, hle, -, hfirst, -⟩ := scan_drop_eq_cons hscan
    let width := lexeme.stop - (current + 1)
    let piece := (input.drop (current + 1)).take width
    have hpiece : piece.length = width := by
      apply List.length_take_of_le
      rw [List.length_drop]
      omega
    have hread : input.take lexeme.stop ++ behind = input.take current ++ (c :: (piece ++ behind)) := by
      rw [show lexeme.stop = current + (width + 1) by omega, List.take_add, hmark.drop_eq,
        List.take_succ_cons, List.append_assoc, List.cons_append]
    rw [hread] at hstart
    have hfar : Token.Rigid φ current lexeme.stop := by
      intro i hi _
      rw [← hrigid, Nat.add_sub_cancel' hi]
    have hmoved := Token.first_carried_of_ok φ hfirst hfar behind
    have hstop := hfar lexeme.stop (Nat.le_of_lt hlt) (Nat.le_refl _)
    have hwidth : φ lexeme.stop - (φ current + 1) = width := by omega
    have htokens : (Token.scan (φ current) (c :: (piece ++ behind))).1 =
        lexeme.mapIndex φ :: (Token.scan (φ lexeme.stop) behind).1 := by
      rw [Token.scan, hmoved]
      show _ :: (Token.scan (φ lexeme.stop)
        (List.drop (φ lexeme.stop - (φ current + 1)) (piece ++ behind))).1 = _
      rw [hwidth, List.drop_left' hpiece]
    have hnext := ih hstart
    rw [htokens] at hnext
    exact hnext.token (hstep hreached hlast)

theorem Reached.read_eq_resume {current : Nat} {p : Progress} {rest : List Lexeme}
    (h : Reached settings input current p rest) :
    read settings input = resume settings input p current (input.drop current) := by
  obtain ⟨-, -, hscan⟩ := h.orderly
  rw [read, resume, hscan, h.reading_eq]

theorem Reached.read_of_root {current : Nat} {p : Progress} {rest : List Lexeme}
    (h : Reached settings input current p rest) (hend : input.drop current = [])
    (hkind : p.top.kind = .root) :
    read settings input = .ok (.group (.once (settings.at input 0)) .root p.top.children) := by
  rw [h.read_eq_resume, hend, resume_nil, Progress.finish, hkind]
  rfl

/-- A text that stands behind `base` is read through the states of reading the text alone, whatever
is behind it. -/
theorem Reached.carried {current : Nat} {p : Progress} {rest : List Lexeme}
    (h : Reached settings input current p rest) {base : Progress} (hbase : base.top.RepeatedWithin)
    (hrigid : ∀ i k, carry.index (i + k) = carry.index i + k) {behind : Text}
    (hstart : Reached settings whole (carry.index 0) (Progress.start.carriedOnto carry base)
      (Token.scan (carry.index 0) (input.take current ++ behind)).1) :
    Reached settings whole (carry.index current) (p.carriedOnto carry base)
      (Token.scan (carry.index current) behind).1 := by
  let carried (p : Progress) : Progress := p.carriedOnto carry base
  have hstep : ∀ {current p q lexeme rest}, Reached settings input current p (lexeme :: rest) →
      p.step settings input lexeme = .ok q →
        (carried p).step settings whole (lexeme.mapIndex carry.index) = .ok (carried q) := by
    intro current p q lexeme rest _ hstep
    have hstepped := Progress.stepped_of_ok hstep
    have hnext := Progress.stepped_carriedOnto carry base p hbase lexeme (.inr ⟨q, hstepped⟩)
    rw [hstepped] at hnext
    exact Progress.step_of_stepped hnext
  exact h.mapped hrigid hstep hstart

end carry

end Pattern

end RandomText
