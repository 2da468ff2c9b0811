import RandomText.Console.Session
import RandomText.Proofs.Lowering

/-!
# Every legible pattern is answered

Compiling and running a legible pattern ends in one of three answers: the caret under a fault, the lowered
text with what the tree generates, or, where the call stack has no room for the lowered text, the lowered
text with the message about it (`answered_of_legible`). A session over legible lines therefore answers
each of them and ends with status zero (`run_of_lines`). A pattern that is not legible may have no answer,
and then its session breaks off. An answer is the text that is shown; the streams it is written to take
every text.
-/

namespace RandomText

/-! ### One pattern -/

/-- The columns of all places of a text that stands behind a prompt of the given width. -/
def Fits (width : Int) (text : Text) : Prop :=
  -columnLimit ≤ width ∧ text.length + width < columnLimit

instance (width : Int) (text : Text) : Decidable (Fits width text) :=
  inferInstanceAs (Decidable (_ ∧ _))

theorem caret_of_fits {fault : Pattern.Fault} {width : Int} {text : Text} (h : Fits width text)
    (hindex : fault.index ≤ text.length) :
    fault.caret width = .ok (caret (fault.index + width) fault.message) := by
  obtain ⟨hlow, hhigh⟩ := h
  have hcolumn : ¬((fault.index : Int) + width < -columnLimit ∨
      columnLimit ≤ (fault.index : Int) + width) := by
    omega
  exact if_neg hcolumn

mutual

theorem writable_of_nested (node : Node) (h : node.Nested) (hatoms : node.EveryAtom Atom.Writable) :
    node.Writable := by
  match node, h with
  | .leaf tag atom, ⟨hcount, _⟩ => exact ⟨hcount, hatoms⟩
  | .group tag kind children, ⟨hcount, _, _, hchildren⟩ =>
    exact ⟨hcount, writableAll_of_nested children hchildren hatoms⟩

theorem writableAll_of_nested (nodes : List Node) (h : Node.NestedAll nodes)
    (hatoms : Node.EveryAtomAll Atom.Writable nodes) : Node.WritableAll nodes := by
  match nodes, h, hatoms with
  | [], _, _ => trivial
  | node :: rest, ⟨hnode, hrest⟩, ⟨hatom, hatoms⟩ =>
    exact ⟨writable_of_nested node hnode hatom, writableAll_of_nested rest hrest hatoms⟩

end

theorem writable_of_wellFormed {root : Node} {limit : Nat} (h : root.WellFormed limit)
    (hatoms : root.EveryAtom Atom.Writable) : root.Writable := by
  match root, h with
  | .group tag .root children, ⟨honce, hnested, _⟩ =>
    refine ⟨?_, writableAll_of_nested children hnested hatoms⟩
    rw [honce]
    exact Pattern.one_lt_limit

section pattern

variable {σ : Type} [Expr.CallStack]

/-- The answer shows the fault of the pattern, or the lowered text and what it generates, or the lowered
text and that it is nested too deeply for the call stack, without a draw. -/
inductive Answered (settings : Pattern.Settings) (width : Int) (source : Source σ) (pattern : Text)
    (d : Draws σ) : Answer → Draws σ → Prop where
  | faulty {fault : Pattern.Fault} (hread : Pattern.read settings pattern = .error (.fault fault)) :
    Answered settings width source pattern d ⟨caret (fault.index + width) fault.message, false⟩ d
  | sound {root : Node} {lowered text : Text} {d' : Draws σ}
    (hread : Pattern.read settings pattern = .ok root) (hlower : root.lower = .ok lowered)
    (hroom : Expr.demand lowered ≤ Expr.CallStack.room)
    (hgenerate : (root.generate source).outcome d = (.ok text, d')) :
    Answered settings width source pattern d ⟨lowered ++ "\n" ++ text, true⟩ d'
  | deep {root : Node} {lowered : Text}
    (hread : Pattern.read settings pattern = .ok root) (hlower : root.lower = .ok lowered)
    (hroom : Expr.CallStack.room < Expr.demand lowered) :
    Answered settings width source pattern d
      ⟨lowered ++ "\n" ++ "Source nested too deeply to evaluate", true⟩ d

theorem compileAndRun_of_lower {settings : Pattern.Settings} (width : Int) {source : Source σ}
    {pattern lowered text : Text} {root : Node} {d d' : Draws σ}
    (hread : Pattern.read settings pattern = .ok root) (hlower : root.lower = .ok lowered)
    (hrun : (Expr.run source lowered).outcome d = (.ok text, d')) :
    (compileAndRun settings width source pattern d).1.outcome = .ok ⟨lowered ++ "\n" ++ text, true⟩ ∧
      (compileAndRun settings width source pattern d).2 = d' := by
  rw [Pattern.read] at hread
  simp only [compileAndRun, hread, hlower, answerLowered, hrun, and_self]

theorem compileAndRun_of_deep {settings : Pattern.Settings} (width : Int) {source : Source σ}
    {pattern lowered : Text} {root : Node} {d : Draws σ}
    (hread : Pattern.read settings pattern = .ok root) (hlower : root.lower = .ok lowered)
    (hrun : (Expr.run source lowered).outcome d = (.error (.unreadable .nestedTooDeeply), d)) :
    (compileAndRun settings width source pattern d).1.outcome =
        .ok ⟨lowered ++ "\n" ++ "Source nested too deeply to evaluate", true⟩ ∧
      (compileAndRun settings width source pattern d).2 = d := by
  rw [Pattern.read] at hread
  simp only [compileAndRun, hread, hlower, answerLowered, hrun, and_true]
  rfl

theorem compileAndRun_of_fault {settings : Pattern.Settings} {width : Int} {pattern shown : Text}
    {fault : Pattern.Fault} (source : Source σ) (d : Draws σ)
    (hread : Pattern.read settings pattern = .error (.fault fault))
    (hcaret : fault.caret width = .ok shown) :
    (compileAndRun settings width source pattern d).1.outcome = .ok ⟨shown, false⟩ ∧
      (compileAndRun settings width source pattern d).2 = d := by
  rw [Pattern.read] at hread
  simp only [compileAndRun, hread, hcaret, and_true]
  rfl

/-- Compiling and running a legible pattern gives an answer. -/
theorem answered_of_legible (settings : Pattern.Settings) {pattern : Text} {width : Int}
    (h : pattern.Legible) (hfits : Fits width pattern) (source : Source σ) (d : Draws σ) :
    ∃ a d', (compileAndRun settings width source pattern d).1.outcome = .ok a ∧
      (compileAndRun settings width source pattern d).2 = d' ∧
      Answered settings width source pattern d a d' := by
  obtain ⟨hatoms, hfault⟩ := Pattern.read_of_legible settings h
  cases hread : Pattern.read settings pattern with
  | error e =>
    obtain ⟨fault, rfl, hindex⟩ := hfault e hread
    obtain ⟨houtcome, hdraws⟩ := compileAndRun_of_fault source d hread (caret_of_fits hfits hindex)
    exact ⟨_, _, houtcome, hdraws, .faulty hread⟩
  | ok root =>
    have hroot := Pattern.wellFormed_of_read hread
    obtain ⟨lowered, hlower⟩ := lower_of_writable root (writable_of_wellFormed hroot (hatoms root hread))
    obtain ⟨text, d', hgenerate, hrun⟩ :=
      outcome_run_lower (runnable_of_wellFormed hroot) hlower source d
    by_cases hroom : Expr.demand lowered ≤ Expr.CallStack.room
    · rw [if_pos hroom] at hrun
      obtain ⟨houtcome, hdraws⟩ := compileAndRun_of_lower width hread hlower hrun
      exact ⟨_, _, houtcome, hdraws, .sound hread hlower hroom hgenerate⟩
    · rw [if_neg hroom] at hrun
      obtain ⟨houtcome, hdraws⟩ := compileAndRun_of_deep width hread hlower hrun
      exact ⟨_, _, houtcome, hdraws, .deep hread hlower (Nat.lt_of_not_le hroom)⟩

end pattern

/-! ### Sessions -/

namespace Console.Session

/-- Where an answer is shown. -/
def piece (a : Answer) : Piece :=
  if a.succeeded then .output (a.text ++ "\n") else .errors (a.text ++ "\n")

/-- What a session shows that gave the answers, its log left out. -/
def shown (settings : SessionSettings) : List Answer → Transcript
  | [] => .output prompt :: farewell settings .ended
  | a :: rest => .output prompt :: piece a :: shown settings rest

/-- Whether a piece belongs to the log. -/
def isLog : Piece → Bool
  | .log _ => true
  | _ => false

/-- A transcript without the lines of the log. -/
def withoutLog (t : Transcript) : Transcript := t.filter fun piece => !isLog piece

theorem withoutLog_logged (debug : Bool) (records : List Record) :
    withoutLog (logged debug records) = [] := by
  refine List.filter_eq_nil_iff.mpr fun piece hpiece => ?_
  unfold logged at hpiece
  split at hpiece
  · obtain ⟨record, -, rfl⟩ := List.mem_map.mp hpiece
    simp [isLog]
  · cases hpiece

theorem not_isLog_piece (a : Answer) : isLog (piece a) = false := by
  unfold piece
  split <;> rfl

theorem withoutLog_farewell (settings : SessionSettings) (last : Attempt) :
    withoutLog (farewell settings last) = farewell settings last := by
  unfold farewell
  split
  · rfl
  · split <;> rfl

section answers

variable {σ : Type} [Expr.CallStack]

/-- The answers to the lines, one after the other, with the state of the source handed on. -/
inductive Answers (settings : SessionSettings) (source : Source σ) :
    List Text → Draws σ → List Answer → Draws σ → Prop where
  | nil (d : Draws σ) : Answers settings source [] d [] d
  | cons {line : Text} {lines : List Text} {a : Answer} {answers : List Answer} {d d' d'' : Draws σ}
    (hfirst : Answered { strict := settings.strict } prompt.length source (stripped line) d a d')
    (hrest : Answers settings source lines d' answers d'') :
    Answers settings source (line :: lines) d (a :: answers) d''

theorem answer_of_outcome {settings : SessionSettings} {source : Source σ} {line : Text} {a : Answer}
    {d d' : Draws σ}
    (houtcome : (compileAndRun { strict := settings.strict } prompt.length source (stripped line)
      d).1.outcome = .ok a)
    (hdraws : (compileAndRun { strict := settings.strict } prompt.length source (stripped line)
      d).2 = d') :
    ∃ records, answer settings source line d =
      (.ok (logged settings.debug records ++ [piece a]), d') := by
  rcases hcompiled : compileAndRun { strict := settings.strict } prompt.length source (stripped line) d
    with ⟨⟨records, outcome⟩, rest⟩
  rw [hcompiled] at houtcome hdraws
  cases houtcome
  cases hdraws
  exact ⟨records, by simp only [answer, hcompiled, Except.map, piece]⟩

/-- A session over lines that are all legible answers each of them. -/
theorem run_of_lines {settings : SessionSettings} {source : Source σ} {lines : List Text}
    (h : ∀ line ∈ lines, (stripped line).Legible ∧ Fits prompt.length (stripped line)) (d : Draws σ) :
    ∃ answers transcript d', Answers settings source lines d answers d' ∧
      run settings source (lines.map Attempt.line ++ [.ended]) d = (.ok ⟨transcript, 0⟩, d') ∧
      withoutLog transcript = shown settings answers := by
  -- The draws vary, since each line goes on with what the lines before it left.
  induction lines generalizing d with
  | nil =>
    refine ⟨[], _, d, .nil d, rfl, ?_⟩
    have hprompt : isLog (.output prompt) = false := rfl
    rw [withoutLog, List.filter_cons_of_pos (by rw [hprompt]; rfl)]
    exact congrArg _ (withoutLog_farewell settings .ended)
  | cons line rest ih =>
    obtain ⟨hlegible, hfits⟩ := h line List.mem_cons_self
    obtain ⟨a, d', houtcome, hdraws, hanswered⟩ :=
      answered_of_legible { strict := settings.strict } hlegible hfits source d
    obtain ⟨answers, transcript, d'', hanswers, hrun, hshown⟩ :=
      ih (fun other hother => h other (List.mem_cons_of_mem _ hother)) d'
    obtain ⟨records, hanswer⟩ := answer_of_outcome houtcome hdraws
    refine ⟨a :: answers, .output prompt :: (logged settings.debug records ++ [piece a]) ++ transcript,
      d'', .cons hanswered hanswers, ?_, ?_⟩
    · rw [List.map_cons, List.cons_append]
      simp only [run, hanswer, hrun]
    · have hlog := withoutLog_logged settings.debug records
      have hprompt : isLog (.output prompt) = false := rfl
      unfold withoutLog at hlog hshown ⊢
      simp only [List.cons_append, List.filter_cons, List.filter_append, hlog, hprompt,
        not_isLog_piece, hshown, List.filter_nil, List.nil_append, Bool.not_false, if_true, shown]

end answers

/-! ### Lines of an input -/

theorem flatten_lines (input : Text) : (lines input).flatten = input := by
  induction input with
  | nil => rfl
  | cons c rest ih =>
    rw [lines]
    split
    · rw [List.flatten_cons, ih]
      rfl
    · split
      · next hlines =>
        rw [hlines] at ih
        rw [← ih]
        rfl
      · next line others hlines =>
        rw [hlines] at ih
        rw [← ih]
        rfl

theorem stripped_isInfix (line : Text) : stripped line <:+: line := by
  rw [stripped, ← List.reverse_infix, List.reverse_reverse]
  exact (List.dropWhile_suffix _).isInfix

theorem isInfix_of_mem_lines {input line : Text} (h : line ∈ lines input) :
    stripped line <:+: input := by
  have hline : line <:+: (lines input).flatten := List.infix_of_mem_flatten h
  rw [flatten_lines] at hline
  exact (stripped_isInfix line).trans hline

end Console.Session

/-! ### Whole inputs -/

open Console Session in
/-- A legible pattern is answered, on any call stack: with the caret under the fault of the pattern, with
the lowered text and what the tree generates, or, if the stack has no room for the lowered text, with that
text and the message about it. A session over an input of legible lines shows a prompt and an answer for
each line and ends with status zero. -/
theorem compileAndRun_answers [Expr.CallStack] (text : Text) {σ : Type} (source : Source σ) (d : Draws σ) :
    (text.Legible → ∀ (origin : Text) (strict : Bool) (width : Int), Fits width text →
      ∃ a d', Answered { origin := origin, strict := strict } width source text d a d' ∧
        (compileAndRun { origin := origin, strict := strict } width source text d).1.outcome = .ok a ∧
        (compileAndRun { origin := origin, strict := strict } width source text d).2 = d') ∧
    ((∀ line ∈ lines text, (stripped line).Legible) → ∀ settings : SessionSettings,
      Fits prompt.length text →
      ∃ answers transcript d', Answers settings source (lines text) d answers d' ∧
        run settings source (attempts text none) d = (.ok ⟨transcript, 0⟩, d') ∧
        withoutLog transcript = shown settings answers) := by
  refine ⟨fun h origin strict width hfits => ?_, fun h settings hfits => ?_⟩
  · obtain ⟨a, d', houtcome, hdraws, hanswered⟩ :=
      answered_of_legible { origin := origin, strict := strict } h hfits source d
    exact ⟨a, d', hanswered, houtcome, hdraws⟩
  · refine run_of_lines (fun line hline => ⟨h line hline, hfits.1, ?_⟩) d
    have hlength := (isInfix_of_mem_lines hline).length_le
    have hinput := hfits.2
    omega

open Console Session in
/-- The theorem at a pattern behind a prompt, and at an input of two lines, one of them faulty. -/
theorem compileAndRun_answers_lines :
    Text.Legible "a<3>" ∧ Fits 4 "a<3>" ∧ (∀ line ∈ lines "(\n.\n", (stripped line).Legible) ∧
    Fits prompt.length "(\n.\n" ∧
    (∃ a d', Answered {} 4 Replay.source "a<3>" (.start (.start [] 0)) a d' ∧
      (compileAndRun {} 4 Replay.source "a<3>" (.start (.start [] 0))).1.outcome = .ok a ∧
      (compileAndRun {} 4 Replay.source "a<3>" (.start (.start [] 0))).2 = d') ∧
    ∃ answers transcript d',
      Answers ⟨false, false, false⟩ Replay.source (lines "(\n.\n") (.start (.start [] 0)) answers d' ∧
      run ⟨false, false, false⟩ Replay.source (attempts "(\n.\n" none) (.start (.start [] 0)) =
        (.ok ⟨transcript, 0⟩, d') ∧
      withoutLog transcript = shown ⟨false, false, false⟩ answers := by
  have hpattern : Text.Legible "a<3>" := Text.legible_of_length (by decide) (by decide)
  have hinput : ∀ line ∈ lines "(\n.\n", (stripped line).Legible := by
    have hlines : lines "(\n.\n" = ["(\n", ".\n"] := by decide
    rw [hlines]
    refine List.forall_mem_cons.mpr ⟨?_, List.forall_mem_singleton.mpr ?_⟩
    · exact Text.legible_of_length (by decide) (by decide)
    · exact Text.legible_of_length (by decide) (by decide)
  have hpatternFits : Fits 4 "a<3>" := by decide
  have hinputFits : Fits prompt.length "(\n.\n" := by decide
  exact ⟨hpattern, hpatternFits, hinput, hinputFits,
    (compileAndRun_answers "a<3>" Replay.source _).1 hpattern _ false 4 hpatternFits,
    (compileAndRun_answers "(\n.\n" Replay.source _).2 hinput ⟨false, false, false⟩ hinputFits⟩

open Console Session in
/-- A repeat count with an information separator beside its digits passes for decimal and then is no
number: the pattern has no answer, and a session breaks off at its line. -/
theorem compileAndRun_breaks_off :
    (compileAndRun {} 0 Replay.source "a<\x1c5>" (.start (.start [] 0))).1.outcome =
      .error (.numeral (.notANumeral "\x1c5")) ∧
    (run ⟨false, false, false⟩ Replay.source (attempts "a<\x1c5>\n.\n" none)
      (.start (.start [] 0))).1.toOption = none := by
  decide +kernel

end RandomText
