import RandomText.Pattern.Reader

/-!
# Reading on

Reading a pattern cuts the whole text into tokens before the first of them is put on the stack.
Here the two go together: `resume` reads a text on from a progress, one token after the other
(`resume_of_ok`), so that a statement about readings is an induction on the text. What was noted on
the way has no influence on the outcome (`resume_congr`), and below the top frame stand only
brackets and the root (`Stacked`).
-/

namespace RandomText.Pattern

variable {settings : Settings} {input : Text}

/-- The outcome of reading `text`, which begins at `index`, after the progress `p`. -/
def resume (settings : Settings) (input : Text) (p : Progress) (index : Nat) (text : Text) :
    Except ReadError Node :=
  (readFrom settings input (Token.scan index text).2 index p (Token.scan index text).1).result

theorem read_eq_resume (settings : Settings) (input : Text) :
    read settings input = resume settings input .start 0 input := rfl

/-- The outcome of a step, with the progress left out of a failure. -/
def Progress.stepped (settings : Settings) (input : Text) (lexeme : Lexeme) (p : Progress) :
    Except ReadError Progress :=
  (p.step settings input lexeme).mapError Halt.error

theorem Progress.stepped_of_ok {lexeme : Lexeme} {p q : Progress}
    (h : p.step settings input lexeme = .ok q) : p.stepped settings input lexeme = .ok q := by
  rw [Progress.stepped, h]
  rfl

theorem Progress.stepped_of_error {lexeme : Lexeme} {p : Progress} {halt : Halt}
    (h : p.step settings input lexeme = .error halt) :
    p.stepped settings input lexeme = .error halt.error := by
  rw [Progress.stepped, h]
  rfl

theorem Progress.step_of_stepped {lexeme : Lexeme} {p q : Progress}
    (h : p.stepped settings input lexeme = .ok q) : p.step settings input lexeme = .ok q := by
  unfold Progress.stepped at h
  cases hstep : p.step settings input lexeme with
  | error halt =>
    rw [hstep] at h
    cases h
  | ok q' =>
    rw [hstep] at h
    obtain rfl := Except.ok.inj h
    rfl

theorem resume_nil (p : Progress) (index : Nat) :
    resume settings input p index [] = (p.finish settings input).mapError Halt.error := by
  rw [resume, Token.scan, readFrom]
  cases p.finish settings input <;> rfl

theorem resume_of_error {p : Progress} {index : Nat} {c : CodePoint} {rest : Text}
    {m : Misspelling} (h : Token.first index c rest = .error m) :
    resume settings input p index (c :: rest) = .error m.error := by
  rw [resume, Token.scan, h]
  rfl

/-- Reading on puts the first token on the stack and reads on behind it. -/
theorem resume_of_ok {p : Progress} {index : Nat} {c : CodePoint} {rest : Text} {lexeme : Lexeme}
    (h : Token.first index c rest = .ok lexeme) :
    resume settings input p index (c :: rest) =
      (p.stepped settings input lexeme).bind fun q =>
        resume settings input q lexeme.stop (rest.drop (lexeme.stop - (index + 1))) := by
  rw [resume, Token.scan, h]
  simp only [readFrom, Progress.stepped]
  cases p.step settings input lexeme <;> rfl

/-! ### Segments -/

theorem segments_of_upTo {index : Nat} {text : Text} {e : Token.Enclosed} {atom : Atom}
    (hupTo : Token.upTo Token.segmentStops text = some e)
    (hsegment : Token.segment index e.text = .ok atom) :
    Token.segments index text =
      if e.stop = ';' then ([(index, atom)], .ok (index + e.width + 1))
      else
        let others := Token.segments (index + e.width + 1) (text.drop (e.width + 1))
        ((index, atom) :: others.1, others.2) := by
  cases text with
  | nil => cases hupTo
  | cons c rest =>
    rw [Token.segments, hupTo]
    simp only [hsegment]
    rfl

theorem segments_of_error {index : Nat} {text : Text} {e : Token.Enclosed} {error : ReadError}
    (hupTo : Token.upTo Token.segmentStops text = some e)
    (hsegment : Token.segment index e.text = .error error) :
    Token.segments index text = ([], .error (error, index + e.width + 1)) := by
  cases text with
  | nil => cases hupTo
  | cons c rest =>
    rw [Token.segments, hupTo]
    simp only [hsegment]

theorem segments_of_unclosed {index : Nat} {text : Text}
    (hupTo : Token.upTo Token.segmentStops text = none) :
    Token.segments index text =
      ([], .error (.fault ⟨.unclosed Token.segmentStops, index + text.length⟩,
        index + text.length)) := by
  cases text with
  | nil => rw [Token.segments, List.length_nil, Nat.add_zero]
  | cons c rest =>
    rw [Token.segments, hupTo]
    rfl

/-! ### Notes -/

/-- The same frames are open. -/
def Progress.Alike (p q : Progress) : Prop := p.top = q.top ∧ p.below = q.below

/-- Both fail with the same error or both go on with the same frames. -/
def AlikeOutcomes : Except ReadError Progress → Except ReadError Progress → Prop
  | .ok p, .ok q => p.Alike q
  | .error e, .error f => e = f
  | _, _ => False

theorem AlikeOutcomes.exists_ok {x : Except ReadError Progress} {q : Progress}
    (h : AlikeOutcomes x (.ok q)) : ∃ p, x = .ok p ∧ p.Alike q := by
  cases x with
  | ok p => exact ⟨p, rfl, h⟩
  | error e => exact h.elim

theorem Progress.Alike.stepped {p q : Progress} (h : p.Alike q) (lexeme : Lexeme) :
    AlikeOutcomes (p.stepped settings input lexeme) (q.stepped settings input lexeme) := by
  obtain ⟨top, below, noted⟩ := p
  obtain ⟨top', below', noted'⟩ := q
  obtain ⟨rfl, rfl⟩ : top = top' ∧ below = below' := h
  obtain ⟨index, token, stop⟩ := lexeme
  have hignore : ∀ c, AlikeOutcomes
      ((Progress.ignore settings c index ⟨top, below, noted⟩).mapError Halt.error)
      ((Progress.ignore settings c index ⟨top, below, noted'⟩).mapError Halt.error) := by
    intro c
    simp only [Progress.ignore]
    split
    · rfl
    · exact ⟨rfl, rfl⟩
  cases token with
  | atom atom => exact ⟨rfl, rfl⟩
  | range segments => exact ⟨rfl, rfl⟩
  | repetition count pos =>
    simp only [Progress.stepped, Progress.step, Progress.applyRepetition]
    split
    · rfl
    · split
      · rfl
      · exact ⟨rfl, rfl⟩
  | opening bracket =>
    simp only [Progress.stepped, Progress.step, Progress.openBracket]
    have hdepth : Progress.depth ⟨top, below, noted⟩ = Progress.depth ⟨top, below, noted'⟩ := rfl
    rw [hdepth]
    split
    · rfl
    · exact ⟨rfl, rfl⟩
  | closing bracket =>
    simp only [Progress.stepped, Progress.step, Progress.closeBracket]
    split
    · exact hignore _
    · split
      · split
        · rfl
        · exact ⟨rfl, rfl⟩
      · exact hignore _
  | other c => exact hignore c

/-- The outcome depends on the open frames only. -/
theorem resume_congr {p q : Progress} (h : p.Alike q) (index : Nat) (text : Text) :
    resume settings input p index text = resume settings input q index text := by
  -- A token may take many code points at once, so the induction is on the length of the text.
  induction hn : text.length using Nat.strongRecOn generalizing p q index text with
  | ind n ih =>
    cases text with
    | nil =>
      obtain ⟨htop, hbelow⟩ := h
      rw [resume_nil, resume_nil]
      simp only [Progress.finish, htop]
      split <;> rfl
    | cons c rest =>
      cases hfirst : Token.first index c rest with
      | error m => rw [resume_of_error hfirst, resume_of_error hfirst]
      | ok lexeme =>
        rw [resume_of_ok hfirst, resume_of_ok hfirst]
        have hstepped : AlikeOutcomes (p.stepped settings input lexeme)
          (q.stepped settings input lexeme) := h.stepped lexeme
        revert hstepped
        cases p.stepped settings input lexeme <;> cases q.stepped settings input lexeme <;>
          intro hstepped
        · exact congrArg Except.error hstepped
        · exact hstepped.elim
        · exact hstepped.elim
        · refine ih _ ?_ hstepped _ _ rfl
          rw [← hn, List.length_drop, List.length_cons]
          omega

/-! ### Frames -/

/-- The kind of the group between brackets. -/
def Bracket.groupKind : Bracket → GroupKind
  | sequence => .sequence
  | choice => .choice

theorem close_bracket (b : Bracket) (position : Option Position) (children : List Node) :
    (FrameKind.bracket b).close position children =
      .group (.once position) b.groupKind children := by
  cases b <;> rfl

theorem depth_enter (p : Progress) (b : Bracket) (index : Nat) :
    (p.enter (.bracket b) index).depth = p.depth + 1 := by
  have hcloser : (Frame.opened (.bracket b) index).kind.closer?.isSome = true := rfl
  simp only [Progress.depth, Progress.enter, Progress.frames, List.filter_cons, hcloser, if_pos,
    List.length_cons]

/-- If a repetition was applied to a child, that child is there. -/
def Frame.RepeatedWithin (top : Frame) : Prop :=
  ∀ k, top.lastRepeated = some k → k < top.latest.length

/-- The root stands below brackets only, and each frame has the property `P` of it and of the
number of brackets that are open up to it. -/
inductive Stacked (P : Nat → Frame → Prop) : Frame → List Frame → Prop where
  | root {top : Frame} : top.kind = .root → P 0 top → Stacked P top []
  | bracket {b : Bracket} {top parent : Frame} {below : List Frame} : top.kind = .bracket b →
      P (below.length + 1) top → Stacked P parent below → Stacked P top (parent :: below)

namespace Stacked

variable {P : Nat → Frame → Prop} {top : Frame} {below : List Frame}

theorem holds (h : Stacked P top below) : P below.length top := by
  cases h with
  | root _ hP => exact hP
  | bracket _ hP _ => exact hP

theorem congr (h : Stacked P top below) {top' : Frame} (hkind : top'.kind = top.kind)
    (hP : P below.length top') : Stacked P top' below := by
  cases h with
  | root hroot _ => exact .root (hkind.trans hroot) hP
  | bracket hbracket _ hbelow => exact .bracket (hkind.trans hbracket) hP hbelow

theorem depth_eq (h : Stacked P top below) (noted : List Event) :
    Progress.depth ⟨top, below, noted⟩ = below.length := by
  rw [Progress.depth, Progress.frames]
  induction h with
  | root hroot _ => simp [hroot, FrameKind.closer?]
  | bracket hbracket _ _ ih =>
    rw [List.filter_cons_of_pos (by simp [hbracket, FrameKind.closer?]), List.length_cons, ih,
      List.length_cons]

theorem closeBracket_of_ne (h : Stacked P top below) {b : Bracket} (hne : top.kind ≠ .bracket b)
    (noted : List Event) (index : Nat) :
    Progress.closeBracket settings input b index ⟨top, below, noted⟩ =
      Progress.ignore settings b.closer index ⟨top, below, noted⟩ := by
  cases h with
  | root => rfl
  | bracket => exact if_neg hne

end Stacked

end RandomText.Pattern
