import RandomText.Proofs.Pattern.Carrying
import RandomText.Proofs.Pattern.FaultPlaces

/-!
# Continued texts

A reading decides on a fault as soon as it has read far enough, so more text behind it does not change
the fault, unless the fault is that the text ended too early (`Stuck.continued`). Reading on from a
progress finds faults only at the indices that are still to be read (`le_index_of_resume`, by induction
on the text that is left), so a fault of a continued pattern is a fault of the continuation
(`read_continued`).
-/

namespace RandomText.Pattern

variable {settings : Settings} {input : Text}

theorem ReadError.mapIndex_id (e : ReadError) : e.mapIndex id = e := by
  cases e <;> rfl

/-- The text is continued. -/
def Carry.continued (settings : Settings) (input behind : Text) :
    Carry settings input (input ++ behind) where
  index := id
  position := fun position => { position with input := input ++ behind }
  at_index := fun _ => rfl

section continued

variable (behind : Text)

/-- Reading a continued text goes through the states of reading the text. -/
theorem Reached.continued {current : Nat} {p : Progress} {rest : List Lexeme}
    (h : Reached settings input current p rest) :
    Reached settings (input ++ behind) current
      (p.carriedOnto (.continued settings input behind) .start)
      (Token.scan current (input.drop current ++ behind)).1 := by
  have hnone : Progress.start.top.RepeatedWithin := nofun
  apply h.carried (.continued settings input behind) hnone (fun _ _ => rfl)
  rw [← List.append_assoc, List.take_append_drop, Progress.start_carriedOnto _ rfl rfl rfl]
  exact .start

theorem Reached.resume_continued {current : Nat} {p : Progress} {rest : List Lexeme}
    (h : Reached settings input current p rest) :
    read settings (input ++ behind) =
      resume settings (input ++ behind) (p.carriedOnto (.continued settings input behind) .start)
        current (input.drop current ++ behind) := by
  obtain ⟨-, hle, -⟩ := h.orderly
  rw [(h.continued behind).read_eq_resume, List.drop_append_of_le_length hle]

/-- A reading that is stuck stays stuck, unless more text may help. -/
theorem Stuck.continued {e : ReadError} (h : Stuck settings input e) (hdecided : ¬e.IsUnclosed) :
    read settings (input ++ behind) = .error e := by
  let carry : Carry settings input (input ++ behind) := .continued settings input behind
  cases h with
  | @token current p lexeme rest halt hreached hstep =>
    obtain ⟨-, -, hscan⟩ := hreached.orderly
    obtain ⟨c, hmark, -, -, -, -, hfirst, -⟩ := scan_drop_eq_cons hscan
    have hmoved := Token.first_append_of_ok id hfirst (fun _ _ => rfl) behind
    change Token.first current c _ = .ok (lexeme.mapIndex id) at hmoved
    have hnext := Progress.stepped_carriedOnto carry .start p nofun lexeme (.inl rfl)
    rw [Progress.stepped_of_error hstep] at hnext
    rw [hreached.resume_continued behind, hmark.drop_eq, List.cons_append, resume_of_ok hmoved]
    exact (congrArg (Except.bind · _) hnext).trans (congrArg Except.error halt.error.mapIndex_id)
  | @misspelling current p c m hreached hmark hfirst =>
    have hmoved := Token.first_append_of_error id hfirst hdecided (fun _ _ => rfl) behind
    change Token.first current c _ = .error (m.mapIndex id) at hmoved
    rw [hreached.resume_continued behind, hmark.drop_eq, List.cons_append, resume_of_error hmoved]
    exact congrArg Except.error m.error.mapIndex_id
  | unclosed => exact absurd ⟨_, _, rfl⟩ hdecided

end continued

/-- Reading on finds faults no earlier than where it begins. -/
theorem le_index_of_resume {p : Progress} {index : Nat} {f : Fault} (hle : index ≤ input.length)
    (h : resume settings input p index (input.drop index) = .error (.fault f)) : index ≤ f.index := by
  -- A token may take many code points at once, so the induction is on the number of those left.
  induction hn : input.length - index using Nat.strongRecOn generalizing p index with
  | ind n ih =>
    rcases Nat.lt_or_ge index input.length with hlt | hend
    · have hmark : input.HasAt index input[index] := List.getElem?_eq_getElem hlt
      rw [hmark.drop_eq] at h
      cases hfirst : Token.first index input[index] (input.drop (index + 1)) with
      | error m =>
        rw [resume_of_error hfirst] at h
        obtain ⟨hindex, -⟩ : index ≤ f.index ∧ f.Marks settings input :=
          Token.marks_of_misspelling hmark rfl hfirst (Except.error.inj h)
        exact hindex
      | ok lexeme =>
        rw [resume_of_ok hfirst] at h
        obtain ⟨rfl, hnext, hstop, -⟩ := Token.first_place hfirst
        rw [List.length_drop] at hstop
        cases hstep : p.step settings input lexeme with
        | error halt =>
          rw [Progress.stepped_of_error hstep] at h
          have hfault : halt.error = .fault f := Except.error.inj h
          exact Nat.le_of_eq (marks_of_step hmark (Token.hasMark_of_first hfirst) hstep hfault).1.symm
        | ok q =>
          rw [Progress.stepped_of_ok hstep] at h
          change resume settings input q lexeme.stop _ = _ at h
          rw [List.drop_drop, show lexeme.index + 1 + (lexeme.stop - (lexeme.index + 1)) = lexeme.stop
            by omega] at h
          have hbehind := ih (input.length - lexeme.stop) (by omega) (by omega) h rfl
          omega
    · obtain rfl : index = input.length := Nat.le_antisymm hle hend
      rw [List.drop_length, resume_nil] at h
      unfold Progress.finish at h
      split at h
      · exact Nat.le_of_eq (congrArg Fault.index (ReadError.fault.inj (Except.error.inj h)))
      · cases h

/-- Faults are decided by what was read. An error of a text is the error of every continuation of the
text, unless something was missing at the end of the text; and a fault of a continued pattern, also
one about something missing, does not point into the pattern. -/
theorem read_continued (settings : Settings) (text behind : Text) :
    (∀ e, read settings text = .error e → ¬e.IsUnclosed →
      read settings (text ++ behind) = .error e) ∧
    ∀ root f, read settings text = .ok root →
      read settings (text ++ behind) = .error (.fault f) → text.length ≤ f.index := by
  refine ⟨fun e h => (stuck_of_read h).continued behind, ?_⟩
  intro root f hroot hfault
  obtain ⟨p, -, hreached, -⟩ := reached_of_read hroot
  have hresume := hreached.resume_continued behind
  have hbehind : (text ++ behind).drop text.length = behind := List.drop_left
  have hle : text.length ≤ (text ++ behind).length := by
    rw [List.length_append]
    exact Nat.le_add_right _ _
  rw [List.drop_length, List.nil_append, hfault] at hresume
  exact le_index_of_resume hle ((congrArg _ hbehind).trans hresume.symm)

/-- A second repetition of an element is refused whatever follows, and the fault of a choice that is
left open behind a pattern does not point into the pattern. -/
theorem read_continued_repetition :
    read {} "a<2><3>)(" = .error (.fault ⟨.repeatedTwice, 4⟩) ∧
      ∃ root f, read {} "(a)" = .ok root ∧ read {} "(a)\x7b" = .error (.fault f) ∧
        3 ≤ f.index := by
  have htwice : read {} "a<2><3>" = .error (.fault ⟨.repeatedTwice, 4⟩) :=
    Except.error?_eq_some.mp (by decide +kernel)
  have hopen : read {} "(a)\x7b" = .error (.fault ⟨.unclosed [CodePoint.ofChar '\x7d'], 4⟩) :=
    Except.error?_eq_some.mp (by decide +kernel)
  have hok : (read {} "(a)").isOk = true := by decide +kernel
  refine ⟨(read_continued {} "a<2><3>" ")(").1 _ htwice (by rintro ⟨_, _, h⟩; cases h), ?_⟩
  cases hroot : read {} "(a)" with
  | error e =>
    rw [hroot] at hok
    cases hok
  | ok root => exact ⟨root, _, rfl, hopen, (read_continued {} "(a)" "\x7b").2 _ _ hroot hopen⟩

end RandomText.Pattern
