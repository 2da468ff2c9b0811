import RandomText.Proofs.Pattern.FaultPlaces

/-!
# Characters without meaning

Whether a character has a meaning depends on the frames that are open when it is met
(`Progress.stray?`). One that has none is noted and does nothing else; any other token does the same
in strict reading and in lenient reading, and nothing is noted as ignored for it
(`Progress.step_of_stray`, `Progress.step_of_meant`). The characters that a reading notes as ignored are
therefore those that it meets without a meaning (`mem_ignored_iff`). So, as long as only blanks are
ignored, the two readings go through the same states, and the first other character that the lenient
reading ignores is the one that the strict reading refuses, whatever comes behind it (`reading_strict`).
-/

namespace RandomText.Pattern

/-- A character that was ignored, and where it stands. -/
def Event.ignored? : Event → Option (CodePoint × Nat)
  | .ignored c index => some (c, index)
  | _ => none

namespace Progress

variable {settings : Settings} {input : Text} {p : Progress} {lexeme : Lexeme} {c : CodePoint}

/-- The characters that were ignored, in the order in which they were met. -/
def ignored (p : Progress) : List (CodePoint × Nat) := p.events.filterMap Event.ignored?

theorem ignored_note (event : Event) (p : Progress) :
    (p.note event).ignored = p.ignored ++ event.ignored?.toList := by
  rw [ignored, events, note, List.reverse_cons, List.filterMap_append]
  cases event <;> rfl

/-- The character that the token is, if it has no meaning for the open frames. -/
def stray? (p : Progress) : Token → Option CodePoint
  | .other c => some c
  | .closing bracket =>
    if p.below ≠ [] ∧ p.top.kind = .bracket bracket then none else some bracket.closer
  | _ => none

theorem stray?_congr {q : Progress} (hkind : q.top.kind = p.top.kind)
    (hbelow : q.below = [] ↔ p.below = []) (token : Token) : q.stray? token = p.stray? token := by
  cases token <;> simp only [stray?, hkind, hbelow, ne_eq]

/-- A character without meaning is ignored or refused. -/
theorem step_of_stray (h : p.stray? lexeme.token = some c) :
    p.step settings input lexeme = p.ignore settings c lexeme.index := by
  obtain ⟨index, token, stop⟩ := lexeme
  cases token with
  | other d =>
    obtain rfl := Option.some.inj h
    rfl
  | closing bracket =>
    obtain ⟨top, below, noted⟩ := p
    simp only [stray?] at h
    split at h
    · cases h
    · next hmeant =>
      obtain rfl := Option.some.inj h
      cases below with
      | nil => rfl
      | cons parent below => exact if_neg fun hkind => hmeant ⟨List.cons_ne_nil _ _, hkind⟩
  | atom | range | repetition | opening => cases h

theorem closing_of_meant {bracket : Bracket} (h : p.stray? (.closing bracket) = none) :
    p.top.kind = .bracket bracket ∧ ∃ parent below, p.below = parent :: below := by
  simp only [stray?] at h
  split at h
  · next hmeant => exact ⟨hmeant.2, List.exists_cons_of_ne_nil hmeant.1⟩
  · cases h

/-- A token that has a meaning does the same in strict reading, and nothing is ignored for it. -/
theorem step_of_meant (settings : Settings) (input : Text) (h : p.stray? lexeme.token = none)
    (strict : Bool) :
    p.step { settings with strict := strict } input lexeme = p.step settings input lexeme ∧
      (left (p.step settings input lexeme)).ignored = p.ignored := by
  obtain ⟨index, token, stop⟩ := lexeme
  have hnoted : ∀ event (q : Progress), event.ignored? = none →
      (q.note event).ignored = q.ignored := by
    intro event q hevent
    rw [ignored_note, hevent]
    exact List.append_nil _
  cases token with
  | other d => cases h
  | atom a => exact ⟨rfl, rfl⟩
  | range segments =>
    refine ⟨rfl, ?_⟩
    exact (hnoted (.closed .range index) _ rfl).trans (hnoted (.opened .range index) p rfl)
  | repetition count one_le =>
    refine ⟨rfl, ?_⟩
    simp only [step, applyRepetition]
    split
    · rfl
    · split <;> rfl
  | opening bracket =>
    refine ⟨rfl, ?_⟩
    simp only [step, openBracket]
    split
    · rfl
    · exact hnoted (.opened (.bracket bracket) index) p rfl
  | closing bracket =>
    obtain ⟨top, below, noted⟩ := p
    obtain ⟨hkind, parent, below, rfl⟩ := closing_of_meant h
    change top.kind = .bracket bracket at hkind
    simp only [step, closeBracket, hkind, if_true]
    split
    · exact ⟨rfl, rfl⟩
    · exact ⟨rfl, hnoted (.closed (.bracket bracket) top.start) _ rfl⟩

theorem ignore_of_noted (index : Nat) (h : settings.strict = true → c.isBlank = true) :
    p.ignore settings c index = .ok (p.note (.ignored c index)) := by
  refine if_neg ?_
  rw [Bool.and_eq_true, Bool.not_eq_true']
  rintro ⟨hstrict, hblank⟩
  rw [h hstrict] at hblank
  cases hblank

/-- What a token adds to the ignored characters: itself, if it has no meaning and is not refused. -/
theorem mem_ignored_step {s : CodePoint × Nat} :
    s ∈ (left (p.step settings input lexeme)).ignored ↔
      s ∈ p.ignored ∨ p.stray? lexeme.token = some s.1 ∧ lexeme.index = s.2 ∧
        (settings.strict = true → s.1.isBlank = true) := by
  cases hstray : p.stray? lexeme.token with
  | none =>
    rw [(step_of_meant settings input hstray settings.strict).2]
    simp
  | some c =>
    rw [step_of_stray hstray]
    by_cases hnoted : settings.strict = true → c.isBlank = true
    · rw [ignore_of_noted lexeme.index hnoted, left, ignored_note, List.mem_append]
      refine or_congr_right ?_
      simp only [Event.ignored?, Option.toList_some, List.mem_singleton]
      constructor
      · rintro rfl
        exact ⟨rfl, rfl, hnoted⟩
      · rintro ⟨hc, hindex, -⟩
        rw [hindex, Option.some.inj hc]
    · have hrefused : p.ignore settings c lexeme.index = p.refuse (.unexpected c) lexeme.index :=
        if_pos (by simpa using hnoted)
      rw [hrefused]
      refine ⟨.inl, fun h => h.resolve_right ?_⟩
      rintro ⟨hc, -, hs⟩
      exact hnoted (Option.some.inj hc ▸ hs)

theorem ignored_misspelt (m : Misspelling) (p : Progress) :
    (p.misspelt settings input m).ignored = p.ignored := by
  unfold misspelt
  split
  · rfl
  · exact (ignored_note _ p).trans (List.append_nil _)

end Progress

section reading

variable {settings : Settings} {input : Text} {p : Progress} {current : Nat} {rest : List Lexeme}

/-! ### What is ignored -/

/-- The characters stand in the text in this order, before `bound`. -/
structure StandInOrder (input : Text) (bound : Nat) (characters : List (CodePoint × Nat)) : Prop where
  ordered : characters.Pairwise fun s t => s.2 < t.2
  placed : ∀ s ∈ characters, s.2 < bound ∧ input.HasAt s.2 s.1

theorem StandInOrder.mono {characters : List (CodePoint × Nat)} {bound bound' : Nat}
    (h : StandInOrder input bound characters) (hle : bound ≤ bound') :
    StandInOrder input bound' characters :=
  ⟨h.ordered, fun s hs => ⟨Nat.lt_of_lt_of_le (h.placed s hs).1 hle, (h.placed s hs).2⟩⟩

theorem StandInOrder.concat {characters : List (CodePoint × Nat)} {index : Nat} {c : CodePoint}
    (h : StandInOrder input index characters) (hmark : input.HasAt index c) :
    StandInOrder input (index + 1) (characters ++ [(c, index)]) where
  ordered := by
    refine List.pairwise_append.mpr ⟨h.ordered, List.pairwise_singleton _ _, ?_⟩
    intro s hs t ht
    rw [List.mem_singleton.mp ht]
    exact (h.placed s hs).1
  placed := by
    intro s hs
    rcases List.mem_append.mp hs with hs | hs
    · exact ⟨Nat.lt_succ_of_lt (h.placed s hs).1, (h.placed s hs).2⟩
    · rw [List.mem_singleton.mp hs]
      exact ⟨Nat.lt_succ_self _, hmark⟩

theorem StandInOrder.le_of_find? {characters : List (CodePoint × Nat)} {bound : Nat}
    {P : CodePoint × Nat → Bool} {s t : CodePoint × Nat} (h : StandInOrder input bound characters)
    (hfind : characters.find? P = some s) (ht : t ∈ characters) (hP : P t = true) : s.2 ≤ t.2 := by
  obtain ⟨-, before, behind, rfl, hbefore⟩ := List.find?_eq_some_iff_append.mp hfind
  obtain ⟨-, hbehind, -⟩ := List.pairwise_append.mp h.ordered
  rcases List.mem_append.mp ht with ht | ht
  · have hnot := hbefore t ht
    rw [hP] at hnot
    cases hnot
  · rcases List.mem_cons.mp ht with rfl | ht
    · exact Nat.le_refl _
    · exact Nat.le_of_lt ((List.pairwise_cons.mp hbehind).1 t ht)

theorem Lexeme.HasMark.of_stray {c d : CodePoint} {lexeme : Lexeme} (h : lexeme.HasMark c)
    (hstray : p.stray? lexeme.token = some d) : d = c ∧ lexeme.stop = lexeme.index + 1 := by
  obtain ⟨index, token, stop⟩ := lexeme
  cases token with
  | other e =>
    obtain rfl := Option.some.inj hstray
    exact ⟨h.1.symm, h.2⟩
  | closing bracket =>
    simp only [Progress.stray?] at hstray
    split at hstray
    · cases hstray
    · obtain rfl := Option.some.inj hstray
      exact ⟨h.1.symm, h.2⟩
  | atom | range | repetition | opening => cases hstray

theorem Progress.ignored_step (settings : Settings) {c : CodePoint} {lexeme : Lexeme}
    (hmark : input.HasAt lexeme.index c) (htoken : lexeme.HasMark c) (hlt : lexeme.index < lexeme.stop)
    (h : StandInOrder input lexeme.index p.ignored) :
    ∃ new, (left (p.step settings input lexeme)).ignored = p.ignored ++ new ∧
      (∀ s ∈ new, lexeme.index ≤ s.2) ∧
      StandInOrder input lexeme.stop (left (p.step settings input lexeme)).ignored := by
  cases hstray : p.stray? lexeme.token with
  | none =>
    rw [(step_of_meant settings input hstray settings.strict).2]
    exact ⟨[], (List.append_nil _).symm, nofun, h.mono (Nat.le_of_lt hlt)⟩
  | some d =>
    obtain ⟨rfl, hstop⟩ := htoken.of_stray hstray
    rw [step_of_stray hstray, hstop]
    unfold Progress.ignore
    split
    · exact ⟨[], (List.append_nil _).symm, nofun, h.mono (Nat.le_succ _)⟩
    · refine ⟨[(d, lexeme.index)], ignored_note _ _, ?_, ?_⟩
      · intro s hs
        rw [List.mem_singleton.mp hs]
      · rw [left, ignored_note]
        exact h.concat hmark

theorem Reached.ignored (h : Reached settings input current p rest) :
    StandInOrder input current p.ignored := by
  induction h with
  | start => exact ⟨.nil, nofun⟩
  | @token current p q lexeme rest hreached hstep ih =>
    obtain ⟨-, -, hscan⟩ := hreached.orderly
    obtain ⟨c, hmark, rfl, hlt, -, -, hfirst, -⟩ := scan_drop_eq_cons hscan
    obtain ⟨-, -, -, hnext⟩ :=
      Progress.ignored_step settings hmark (Token.hasMark_of_first hfirst) hlt ih
    rw [hstep] at hnext
    exact hnext

theorem ignored_readFrom_nil (settings : Settings) (input : Text) (misspelling : Option Misspelling)
    (current : Nat) (p : Progress) :
    (readFrom settings input misspelling current p []).progress.ignored = p.ignored := by
  unfold readFrom
  split
  · exact Progress.ignored_misspelt _ p
  · split
    · rfl
    · next hfinish => rw [Progress.progress_of_finish hfinish]

theorem Reached.left_ignored (h : Reached settings input current p rest) :
    ∃ new, (reading settings input).progress.ignored = p.ignored ++ new ∧
      (∀ s ∈ new, current ≤ s.2) ∧
      StandInOrder input input.length (reading settings input).progress.ignored := by
  rw [h.reading_eq]
  induction rest generalizing current p with
  | nil =>
    obtain ⟨-, hle, -⟩ := h.orderly
    rw [ignored_readFrom_nil]
    exact ⟨[], (List.append_nil _).symm, nofun, h.ignored.mono hle⟩
  | cons lexeme rest ih =>
    obtain ⟨-, -, hscan⟩ := h.orderly
    obtain ⟨c, hmark, rfl, hlt, hle, -, hfirst, -⟩ := scan_drop_eq_cons hscan
    obtain ⟨new, hnew, hplaced, hnext⟩ :=
      Progress.ignored_step settings hmark (Token.hasMark_of_first hfirst) hlt h.ignored
    rw [readFrom]
    cases hstep : p.step settings input lexeme with
    | error halt =>
      rw [hstep] at hnew hnext
      exact ⟨new, hnew, hplaced, hnext.mono hle⟩
    | ok q =>
      rw [hstep] at hnew
      obtain ⟨others, hothers, hbehind, hordered⟩ := ih (h.token hstep)
      refine ⟨new ++ others, ?_, ?_, hordered⟩
      · rw [hothers, show q.ignored = p.ignored ++ new from hnew, List.append_assoc]
      · intro s hs
        rcases List.mem_append.mp hs with hs | hs
        · exact hplaced s hs
        · exact Nat.le_trans (Nat.le_of_lt hlt) (hbehind s hs)

theorem standInOrder_ignored (settings : Settings) (input : Text) :
    StandInOrder input input.length (reading settings input).progress.ignored := by
  have hstart : Reached settings input 0 .start (Token.scan 0 input).1 := .start
  obtain ⟨-, -, -, hordered⟩ := hstart.left_ignored
  exact hordered

/-- The character stands at the index as a token without a meaning for the frames that are open when the
reading meets it. -/
def StraysAt (settings : Settings) (input : Text) (c : CodePoint) (index : Nat) : Prop :=
  ∃ current p lexeme rest, Reached settings input current p (lexeme :: rest) ∧
    lexeme.index = index ∧ p.stray? lexeme.token = some c

theorem Reached.straysAt_of_mem (h : Reached settings input current p rest) {s : CodePoint × Nat}
    (hs : s ∈ (reading settings input).progress.ignored) :
    s ∈ p.ignored ∨
      StraysAt settings input s.1 s.2 ∧ (settings.strict = true → s.1.isBlank = true) := by
  rw [h.reading_eq] at hs
  induction rest generalizing current p with
  | nil =>
    rw [ignored_readFrom_nil] at hs
    exact .inl hs
  | cons lexeme rest ih =>
    -- What the token left is in `p`, or it is the token itself.
    have hleft : s ∈ (Progress.left (p.step settings input lexeme)).ignored → s ∈ p.ignored ∨
        StraysAt settings input s.1 s.2 ∧ (settings.strict = true → s.1.isBlank = true) := by
      intro hmem
      obtain hmem | ⟨hstray, hindex, hnoted⟩ := Progress.mem_ignored_step.mp hmem
      · exact .inl hmem
      · exact .inr ⟨⟨current, p, lexeme, rest, h, hindex, hstray⟩, hnoted⟩
    rw [readFrom] at hs
    cases hstep : p.step settings input lexeme with
    | error halt =>
      rw [hstep] at hs hleft
      exact hleft hs
    | ok q =>
      rw [hstep] at hs hleft
      exact (ih (h.token hstep) hs).elim hleft .inr

/-- The characters that a reading notes as ignored are those that it meets without a meaning; a strict
reading notes only the blanks among them. -/
theorem mem_ignored_iff {c : CodePoint} {index : Nat} :
    (c, index) ∈ (reading settings input).progress.ignored ↔
      StraysAt settings input c index ∧ (settings.strict = true → c.isBlank = true) := by
  constructor
  · intro hmem
    have hstart : Reached settings input 0 .start (Token.scan 0 input).1 := .start
    exact (hstart.straysAt_of_mem hmem).resolve_left List.not_mem_nil
  · rintro ⟨⟨current, p, lexeme, rest, hreached, hindex, hstray⟩, hnoted⟩
    have hmem : (c, index) ∈ (Progress.left (p.step settings input lexeme)).ignored :=
      Progress.mem_ignored_step.mpr (.inr ⟨hstray, hindex, hnoted⟩)
    have hstep : p.step settings input lexeme = .ok (p.note (.ignored c lexeme.index)) :=
      (Progress.step_of_stray hstray).trans (Progress.ignore_of_noted lexeme.index hnoted)
    rw [hstep] at hmem
    obtain ⟨new, hnew, -⟩ := (hreached.token hstep).left_ignored
    rw [hnew]
    exact List.mem_append_left _ hmem

/-! ### Strict and lenient reading -/

theorem readFrom_strict (settings : Settings) (input : Text) (misspelling : Option Misspelling)
    (current : Nat) (p : Progress) (lexemes : List Lexeme) :
    ∃ new,
      (readFrom { settings with strict := false } input misspelling current p lexemes).progress.ignored =
        p.ignored ++ new ∧
      match new.find? fun s => !s.1.isBlank with
      | none =>
        readFrom { settings with strict := true } input misspelling current p lexemes =
          readFrom { settings with strict := false } input misspelling current p lexemes
      | some (c, index) =>
        (readFrom { settings with strict := true } input misspelling current p lexemes).result =
          .error (.fault ⟨.unexpected c, index⟩) := by
  induction lexemes generalizing current p with
  | nil =>
    refine ⟨[], ?_, rfl⟩
    rw [ignored_readFrom_nil, List.append_nil]
  | cons lexeme rest ih =>
    simp only [readFrom]
    cases hstray : p.stray? lexeme.token with
    | none =>
      obtain ⟨hsame, hignored⟩ :=
        Progress.step_of_meant { settings with strict := false } input hstray true
      rw [hsame]
      cases hstep : p.step { settings with strict := false } input lexeme with
      | error halt =>
        rw [hstep] at hignored
        exact ⟨[], hignored.trans (List.append_nil _).symm, rfl⟩
      | ok q =>
        rw [hstep] at hignored
        obtain ⟨new, hnew, houtcome⟩ := ih lexeme.stop q
        exact ⟨new, hnew.trans (congrArg (· ++ new) hignored), houtcome⟩
    | some c =>
      -- The lenient reading goes on in any case, the strict one only behind a blank.
      obtain ⟨new, hnew, houtcome⟩ := ih lexeme.stop (p.note (.ignored c lexeme.index))
      rw [Progress.step_of_stray hstray, Progress.step_of_stray hstray]
      refine ⟨(c, lexeme.index) :: new, ?_, ?_⟩
      · refine hnew.trans ?_
        rw [Progress.ignored_note, List.append_assoc]
        rfl
      · cases hblank : c.isBlank with
        | true =>
          rw [List.find?_cons_of_neg (by simp [hblank])]
          simpa [Progress.ignore, hblank] using houtcome
        | false =>
          rw [List.find?_cons_of_pos (by simp [hblank])]
          simp [Progress.ignore, hblank, Progress.refuse]

end reading

/-- Strict reading is lenient reading with one more check. If the lenient reading ignores only blanks
before it ends or fails, the strict reading is the same, with the same tree or the same error. Otherwise
the strict reading refuses the first other character that the lenient one ignores, whatever that does
afterwards. -/
theorem reading_strict (settings : Settings) (input : Text) :
    let lenient := reading { settings with strict := false } input
    match lenient.progress.ignored.find? fun s => !s.1.isBlank with
    | none => reading { settings with strict := true } input = lenient
    | some (c, index) =>
      input.HasAt index c ∧
        (∀ s ∈ lenient.progress.ignored, s.1.isBlank = false → index ≤ s.2) ∧
        read { settings with strict := true } input = .error (.fault ⟨.unexpected c, index⟩) ∧
        Fault.message ⟨.unexpected c, index⟩ = "Unexpected character '" ++ [c] ++ "'" := by
  intro lenient
  obtain ⟨new, hnew, houtcome⟩ :=
    readFrom_strict settings input (Token.scan 0 input).2 0 .start (Token.scan 0 input).1
  obtain rfl : lenient.progress.ignored = new := hnew
  have hordered := standInOrder_ignored { settings with strict := false } input
  cases hfind : lenient.progress.ignored.find? fun s => !s.1.isBlank with
  | none =>
    rw [hfind] at houtcome
    exact houtcome
  | some s =>
    obtain ⟨c, index⟩ := s
    rw [hfind] at houtcome
    refine ⟨(hordered.placed _ (List.mem_of_find?_eq_some hfind)).2, ?_, houtcome, rfl⟩
    intro s hs hblank
    exact hordered.le_of_find? hfind hs (by rw [hblank]; rfl)

/-- A closing bracket that does not fit is refused, although the choice behind it is empty. -/
theorem reading_strict_closing :
    (reading {} "(a \x7d\x7b\x7d").progress.ignored =
      [(CodePoint.ofChar ' ', 2), (CodePoint.ofChar '\x7d', 3)] ∧
    (read {} "(a \x7d\x7b\x7d").error? = some (.fault ⟨.emptyChoice, 5⟩) ∧
    read { strict := true } "(a \x7d\x7b\x7d" = .error (.fault ⟨.unexpected '\x7d', 3⟩) := by
  have hignored : (reading {} "(a \x7d\x7b\x7d").progress.ignored =
      [(CodePoint.ofChar ' ', 2), (CodePoint.ofChar '\x7d', 3)] := by
    decide +kernel
  have hfault : (read {} "(a \x7d\x7b\x7d").error? = some (.fault ⟨.emptyChoice, 5⟩) := by decide +kernel
  have hstrict := reading_strict {} "(a \x7d\x7b\x7d"
  simp only [hignored] at hstrict
  obtain ⟨-, -, hread, -⟩ := hstrict
  exact ⟨hignored, hfault, hread⟩

end RandomText.Pattern
