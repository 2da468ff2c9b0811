import RandomText.Proofs.Pattern.Strictness

/-!
# Where brackets are closed

Which closing bracket belongs to an opening one can be said of the tokens alone: brackets are counted
behind it, and a closing bracket that does not fit the innermost open one has no meaning (`closing?`).
The reader agrees with that. In every state it reaches, the searches behind the marks of all its open
frames have come up to the same token, each with the frames above as what it has found open (`Sought`),
so the token that closes a frame is the one that the search behind its mark finds
(`Reached.closing?_eq`).

What a token that is accepted makes of the open frames is said once (`Progress.Moves`), so that an
invariant of the stack has one case for each kind of token.
-/

namespace RandomText.Pattern

namespace Token

variable {index : Nat} {c : CodePoint} {rest : Text} {lexeme : Lexeme}

theorem first_cases (h : first index c rest = .ok lexeme) :
    (c = '"' ∧ ∃ text, lexeme.token = .atom (.literal text)) ∨
    (c = '[' ∧ ∃ chars nonempty, lexeme.token = .atom (.sampleSet chars nonempty)) ∨
    (c = '<' ∧ ∃ count pos, lexeme.token = .repetition count pos) ∨
    (c = ':' ∧ ∃ leaves, lexeme.token = .range leaves ∧
      segments (index + 1) rest = (leaves, .ok lexeme.stop)) ∨
    lexeme = ⟨index, (single? c).getD (.other c), index + 1⟩ := by
  unfold first at h
  split at h
  · next hmark =>
    obtain ⟨-, -, -, text, htoken⟩ := enclosed_place h
    exact .inl ⟨hmark, text, (Except.ok.inj htoken).symm⟩
  split at h
  · next hmark =>
    obtain ⟨-, -, -, chars, htoken⟩ := enclosed_place h
    unfold sampleSetOf at htoken
    split at htoken
    · cases htoken
    · next hne => exact .inr (.inl ⟨hmark, chars, hne, (Except.ok.inj htoken).symm⟩)
  split at h
  · next hmark =>
    obtain ⟨-, -, -, text, htoken⟩ := enclosed_place h
    unfold repetitionOf at htoken
    split at htoken
    · obtain ⟨count, -, htoken⟩ := Except.bind_eq_ok.mp htoken
      split at htoken
      · cases htoken
      · exact .inr (.inr (.inl ⟨hmark, count, _, (Except.ok.inj htoken).symm⟩))
    · cases htoken
  split at h
  · next hmark =>
    unfold rangeOf at h
    split at h
    · cases h
    · next leaves last hsegments =>
      obtain rfl := Except.ok.inj h
      exact .inr (.inr (.inr (.inl ⟨hmark, leaves, rfl, hsegments⟩)))
  · exact .inr (.inr (.inr (.inr (Except.ok.inj h).symm)))

theorem stop_of_opening {bracket : Bracket} (h : first index c rest = .ok lexeme)
    (htoken : lexeme.token = .opening bracket) : lexeme.stop = index + 1 := by
  rcases first_cases h with ⟨-, _, hother⟩ | ⟨-, _, _, hother⟩ | ⟨-, _, _, hother⟩ |
    ⟨-, _, hother, -⟩ | rfl
  · cases htoken.symm.trans hother
  · cases htoken.symm.trans hother
  · cases htoken.symm.trans hother
  · cases htoken.symm.trans hother
  · rfl

end Token

/-! ### What a token does -/

/-- What a token that is accepted makes of the open frames. -/
inductive Progress.Moves (settings : Settings) (input : Text) (p : Progress) (lexeme : Lexeme) :
    List Frame → Prop where
  /-- A character without meaning changes nothing. -/
  | ignored {c : CodePoint} : p.stray? lexeme.token = some c → p.Moves settings input lexeme p.frames
  | atom {a : Atom} : lexeme.token = .atom a →
      p.Moves settings input lexeme
        (p.top.push (.leaf (.once (settings.at input lexeme.index)) a) :: p.below)
  | range {segments : List (Nat × Atom)} : lexeme.token = .range segments →
      p.Moves settings input lexeme (p.top.push (FrameKind.range.close (settings.at input lexeme.index)
        (segmentNodes settings input segments)) :: p.below)
  | repeated {node : Node} {earlier : List Node} {count : Nat} {one_le : 1 ≤ count} :
      lexeme.token = .repetition count one_le → p.top.latest = node :: earlier →
      p.Moves settings input lexeme ({ p.top with
        latest := node.withRepeatCount count one_le :: earlier
        lastRepeated := some earlier.length } :: p.below)
  | opened {bracket : Bracket} : lexeme.token = .opening bracket →
      p.Moves settings input lexeme (.opened (.bracket bracket) lexeme.index :: p.frames)
  | closed {bracket : Bracket} {parent : Frame} {below : List Frame} :
      lexeme.token = .closing bracket → p.top.kind = .bracket bracket → p.below = parent :: below →
      p.Moves settings input lexeme (parent.push
        (.group (.once (settings.at input p.top.start)) bracket.groupKind p.top.children) :: below)

/-- A token that is accepted does one of these. -/
theorem Progress.moves_of_step {settings : Settings} {input : Text} {p q : Progress} {lexeme : Lexeme}
    (h : p.step settings input lexeme = .ok q) : p.Moves settings input lexeme q.frames := by
  cases hstray : p.stray? lexeme.token with
  | some c =>
    rw [step_of_stray hstray, ignore] at h
    split at h
    · cases h
    · obtain rfl := Except.ok.inj h
      exact .ignored hstray
  | none =>
    obtain ⟨index, token, stop⟩ := lexeme
    cases token with
    | atom a =>
      obtain rfl := Except.ok.inj h
      exact .atom rfl
    | range segments =>
      obtain rfl := Except.ok.inj h
      exact .range rfl
    | repetition count one_le =>
      simp only [step, applyRepetition] at h
      split at h
      · cases h
      next node earlier hlatest =>
      split at h
      · cases h
      obtain rfl := Except.ok.inj h
      exact .repeated rfl hlatest
    | opening bracket =>
      simp only [step, openBracket] at h
      split at h
      · cases h
      obtain rfl := Except.ok.inj h
      exact .opened rfl
    | closing bracket =>
      obtain ⟨top, below, noted⟩ := p
      obtain ⟨hkind, parent, below, rfl⟩ := closing_of_meant hstray
      change top.kind = .bracket bracket at hkind
      simp only [step, closeBracket, hkind, if_true, close_bracket] at h
      split at h
      · cases h
      obtain rfl := Except.ok.inj h
      exact .closed rfl hkind rfl
    | other c => cases hstray

/-! ### Closing brackets -/

/-- Where the outermost of some open brackets is closed, of which the innermost comes first. -/
def closing? : List Bracket → List Lexeme → Option Nat
  | [], _ => none
  | _, [] => none
  | top :: outer, ⟨index, token, _⟩ :: rest =>
    match token with
    | .opening bracket => closing? (bracket :: top :: outer) rest
    | .closing bracket =>
      if bracket ≠ top then closing? (top :: outer) rest
      else if outer = [] then some index
      else closing? outer rest
    | _ => closing? (top :: outer) rest

/-- Where the bracket that opens at the index of the input is closed. -/
def Bracket.closing? (input : Text) (index : Nat) (bracket : Bracket) : Option Nat :=
  Pattern.closing? [bracket] (Token.scan (index + 1) (input.drop (index + 1))).1

variable {settings : Settings} {input : Text} {p q : Progress} {index stop current : Nat}
  {top : Frame} {below : List Frame} {bracket : Bracket} {rest : List Lexeme}

theorem closing?_closing (index stop : Nat) {outer : List Bracket} (h : outer ≠ []) :
    closing? (bracket :: outer) (⟨index, .closing bracket, stop⟩ :: rest) = closing? outer rest := by
  simp only [closing?, ne_eq, not_true_eq_false, if_false, if_neg h]

theorem closing?_stray (index stop : Nat) {other : Bracket} (h : bracket ≠ other)
    (outer : List Bracket) :
    closing? (other :: outer) (⟨index, .closing bracket, stop⟩ :: rest) =
      closing? (other :: outer) rest := by
  simp only [closing?, if_pos h]

/-- For every open bracket, of which the innermost comes first, the search behind its mark has come up
to the tokens `rest` with the brackets above it open. -/
def Sought (input : Text) (rest : List Lexeme) : List Bracket → List Frame → Prop
  | _, [] => True
  | above, f :: below =>
    match f.kind with
    | .bracket b =>
      b.closing? input f.start = closing? (above ++ [b]) rest ∧
        Sought input rest (above ++ [b]) below
    | _ => Sought input rest above below

namespace Sought

theorem mono {above above' : List Bracket} {rest' : List Lexeme} {frames : List Frame}
    (h : Sought input rest above frames)
    (hrest : ∀ outer ≠ [], closing? (above ++ outer) rest = closing? (above' ++ outer) rest') :
    Sought input rest' above' frames := by
  induction frames generalizing above above' with
  | nil => trivial
  | cons f below ih =>
    unfold Sought at h ⊢
    cases hkind : f.kind with
    | root =>
      rw [hkind] at h
      exact ih h hrest
    | range =>
      rw [hkind] at h
      exact ih h hrest
    | bracket b =>
      simp only [hkind] at h ⊢
      obtain ⟨hfound, hbelow⟩ := h
      refine ⟨hfound.trans (hrest [b] (List.cons_ne_nil _ _)), ih hbelow fun outer hne => ?_⟩
      simp only [List.append_assoc]
      exact hrest _ (List.append_ne_nil_of_right_ne_nil _ hne)

theorem top_bracket (h : Sought input rest [] (top :: below)) (hkind : top.kind = .bracket bracket) :
    bracket.closing? input top.start = closing? [bracket] rest ∧ Sought input rest [bracket] below := by
  unfold Sought at h
  simp only [hkind] at h
  exact h

theorem skip {lexeme : Lexeme} (h : Sought input (lexeme :: rest) [] p.frames)
    (horderly : p.Orderly settings input current)
    (hskip : ∀ b, p.top.kind = .bracket b → ∀ outer,
      closing? (b :: outer) (lexeme :: rest) = closing? (b :: outer) rest) :
    Sought input rest [] p.frames := by
  obtain ⟨top, below, noted⟩ := p
  change Sought input _ [] (top :: below) at h
  show Sought input rest [] (top :: below)
  cases hkind : top.kind with
  | bracket b =>
    obtain ⟨hfound, hbelow⟩ := h.top_bracket hkind
    unfold Sought
    simp only [hkind]
    exact ⟨hfound.trans (hskip b hkind []), hbelow.mono fun outer _ => hskip b hkind outer⟩
  | range => exact absurd hkind (horderly.no_range top List.mem_cons_self)
  | root =>
    cases horderly.standing with
    | root =>
      unfold Sought
      simp only [hkind]
      trivial
    | inner hne => exact absurd hkind hne

theorem stray {lexeme : Lexeme} {c : CodePoint} (h : Sought input (lexeme :: rest) [] p.frames)
    (horderly : p.Orderly settings input current) (hstray : p.stray? lexeme.token = some c) :
    Sought input rest [] p.frames := by
  refine h.skip horderly fun b hkind outer => ?_
  obtain ⟨index, token, stop⟩ := lexeme
  cases token with
  | other d => rfl
  | closing bracket =>
    refine closing?_stray index stop (fun hfits => ?_) outer
    have hbelow : p.below ≠ [] := by
      intro hempty
      cases (horderly.standing.kind_eq_root_iff.mpr hempty).symm.trans hkind
    have hmeant : p.stray? (.closing bracket) = none := if_pos ⟨hbelow, hfits ▸ hkind⟩
    cases hmeant.symm.trans hstray
  | atom | range | repetition | opening => cases hstray

theorem moves {lexeme : Lexeme} {frames : List Frame} (h : Sought input (lexeme :: rest) [] p.frames)
    (horderly : p.Orderly settings input current)
    (hopening : ∀ b, lexeme.token = .opening b →
      (Token.scan (lexeme.index + 1) (input.drop (lexeme.index + 1))).1 = rest)
    (hmoves : p.Moves settings input lexeme frames) : Sought input rest [] frames := by
  obtain ⟨index, token, stop⟩ := lexeme
  cases hmoves with
  | ignored hstray => exact h.stray horderly hstray
  | atom htoken =>
    obtain rfl : token = _ := htoken
    exact h.skip horderly fun _ _ _ => rfl
  | range htoken =>
    obtain rfl : token = _ := htoken
    exact h.skip horderly fun _ _ _ => rfl
  | repeated htoken hlatest =>
    obtain rfl : token = _ := htoken
    exact h.skip horderly fun _ _ _ => rfl
  | @opened bracket htoken =>
    -- The search for the closing bracket of a new frame begins behind its mark.
    obtain rfl : token = _ := htoken
    refine ⟨congrArg (Pattern.closing? [bracket]) (hopening bracket rfl), h.mono fun outer hne => ?_⟩
    obtain ⟨b, outer, rfl⟩ := List.exists_cons_of_ne_nil hne
    rfl
  | closed htoken hkind hbelow =>
    -- The searches below a frame that is closed go on without it.
    obtain rfl : token = _ := htoken
    obtain ⟨-, hsought⟩ := h.top_bracket hkind
    rw [hbelow] at hsought
    exact hsought.mono fun outer hne => closing?_closing index stop hne

end Sought

theorem Reached.sought (h : Reached settings input current p rest) : Sought input rest [] p.frames := by
  induction h with
  | start =>
    unfold Sought
    trivial
  | @token current p q lexeme rest hreached hstep ih =>
    obtain ⟨horderly, -, hscan⟩ := hreached.orderly
    obtain ⟨c, -, rfl, -, -, -, hfirst, hbehind⟩ := scan_drop_eq_cons hscan
    refine ih.moves horderly (fun b htoken => ?_) (Progress.moves_of_step hstep)
    rw [← Token.stop_of_opening hfirst htoken, hbehind]

/-- The token that closes a frame is the one that the search behind its mark finds. -/
theorem Reached.closing?_eq
    (h : Reached settings input current p (⟨index, .closing bracket, stop⟩ :: rest))
    (hkind : p.top.kind = .bracket bracket) : bracket.closing? input p.top.start = some index := by
  obtain ⟨hfound, -⟩ := h.sought.top_bracket hkind
  rw [hfound, closing?]
  simp

end RandomText.Pattern
