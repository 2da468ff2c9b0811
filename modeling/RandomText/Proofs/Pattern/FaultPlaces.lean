import RandomText.Compile
import RandomText.Proofs.Pattern.Stack

/-!
# Where faults point

A reading gets stuck at a token that cannot be put on the stack, at a stretch of text that spells no
token, or at the end of the text with a bracket open (`stuck_of_read`). In each of these cases the
index of the fault was saved before a varying amount of text was consumed; it still is the index of
the code point that the failed check is about (`Fault.Marks`), and the end of the text only where
something is missing there. So the caret stands under the pattern or right behind it
(`marks_of_read`).
-/

namespace RandomText

namespace Pattern

/-- A segment of a range stands at the index of the fault, behind a colon, and is refused for the
cause of the fault. -/
structure Fault.MarksSegment (input : Text) (f : Fault) : Prop where
  behind_colon : ∃ i, f.index = i + 1 ∧ input.HasAt i ':'
  refused : ∃ e, Token.upTo Token.segmentStops (input.drop f.index) = some e ∧
    Token.segment f.index e.text = .error (.fault f)

/-- At the index of the fault stands what the failed check is about. -/
def Fault.Marks (settings : Settings) (input : Text) (f : Fault) : Prop :=
  match f.cause with
  | .unclosed _ => f.index = input.length
  | .emptySampleSet => input.HasAt f.index '['
  | .repeatNotANumber | .repeatZero | .nothingToRepeat | .repeatedTwice => input.HasAt f.index '<'
  | .nestedTooDeeply => input.HasAt f.index '(' ∨ input.HasAt f.index '\x7b'
  | .emptyChoice => input.HasAt f.index '\x7d'
  | .unexpected c => settings.strict = true ∧ c.isBlank = false ∧ input.HasAt f.index c
  | .segmentWithoutDash _ | .rangeEndNotANumber _ | .rangeReversed _ _ | .charRangeBounds _
  | .charRangeReversed _ _ => f.MarksSegment input

variable {settings : Settings} {input : Text}

theorem Fault.Marks.index_lt {f : Fault} (h : f.Marks settings input)
    (hclosed : ∀ closers, f.cause ≠ .unclosed closers) : f.index < input.length := by
  have hsegment : f.MarksSegment input → f.index < input.length := by
    rintro ⟨-, e, hupTo, -⟩
    have hwidth := Descent.upTo_width_lt hupTo
    rw [List.length_drop] at hwidth
    omega
  obtain ⟨cause, index⟩ := f
  cases cause with
  | unclosed closers => exact absurd rfl (hclosed closers)
  | nestedTooDeeply => exact h.elim Text.HasAt.lt Text.HasAt.lt
  | unexpected c => exact h.2.2.lt
  | segmentWithoutDash | rangeEndNotANumber | rangeReversed | charRangeBounds | charRangeReversed =>
    exact hsegment h
  | emptySampleSet | repeatNotANumber | repeatZero | nothingToRepeat | repeatedTwice | emptyChoice =>
    exact Text.HasAt.lt h

/-! ### Faults of tokens -/

/-- The mark of a token that is checked against the open frames. A character that may be without
meaning is its own mark and nothing more. -/
def Lexeme.HasMark (c : CodePoint) (lexeme : Lexeme) : Prop :=
  match lexeme.token with
  | .repetition _ _ => c = '<'
  | .opening bracket => c = bracket.opener
  | .closing bracket => c = bracket.closer ∧ lexeme.stop = lexeme.index + 1
  | .other d => c = d ∧ lexeme.stop = lexeme.index + 1
  | _ => True

namespace Token

theorem hasMark_single (index : Nat) (c : CodePoint) :
    Lexeme.HasMark c ⟨index, (single? c).getD (.other c), index + 1⟩ := by
  unfold single?
  repeat' split
  all_goals first | exact ⟨by assumption, rfl⟩ | assumption | exact ⟨rfl, rfl⟩ | trivial

section errors

variable {index : Nat} {c stop : CodePoint} {rest text : Text} {lexeme : Lexeme} {m : Misspelling}
  {f : Fault}

theorem hasMark_of_first (h : first index c rest = .ok lexeme) : lexeme.HasMark c := by
  unfold first at h
  split at h
  · obtain ⟨-, -, -, text, htoken⟩ := enclosed_place h
    rw [Lexeme.HasMark, ← Except.ok.inj htoken]
    trivial
  split at h
  · obtain ⟨-, -, -, text, htoken⟩ := enclosed_place h
    unfold sampleSetOf at htoken
    split at htoken
    · cases htoken
    · rw [Lexeme.HasMark, ← Except.ok.inj htoken]
      trivial
  split at h
  · next hmark =>
    obtain ⟨-, -, -, text, htoken⟩ := enclosed_place h
    unfold repetitionOf at htoken
    split at htoken
    · obtain ⟨count, -, htoken⟩ := Except.bind_eq_ok.mp htoken
      split at htoken
      · cases htoken
      · rw [Lexeme.HasMark, ← Except.ok.inj htoken]
        exact hmark
    · cases htoken
  split at h
  · unfold rangeOf at h
    split at h
    · cases h
    · obtain rfl := Except.ok.inj h
      trivial
  · obtain rfl := Except.ok.inj h
    exact hasMark_single index c

theorem enclosed_error {make : Text → Except ReadError Token}
    (h : enclosed index stop make rest = .error m) :
    m.error = .fault ⟨.unclosed [stop], index + 1 + rest.length⟩ ∨
      ∃ text, make text = .error m.error := by
  unfold enclosed at h
  split at h
  · obtain rfl := Except.error.inj h
    exact .inl rfl
  · next e hupTo =>
    split at h
    · next error hmake =>
      obtain rfl := Except.error.inj h
      exact .inr ⟨e.text, hmake⟩
    · cases h

theorem sampleSetOf_error (h : sampleSetOf index text = .error (.fault f)) :
    f = ⟨.emptySampleSet, index⟩ := by
  unfold sampleSetOf at h
  split at h
  · exact (ReadError.fault.inj (Except.error.inj h)).symm
  · cases h

theorem repetitionOf_error (h : repetitionOf index text = .error (.fault f)) :
    f = ⟨.repeatZero, index⟩ ∨ f = ⟨.repeatNotANumber, index⟩ := by
  unfold repetitionOf at h
  split at h
  · cases hcount : Numeral.read text with
    | error error =>
      rw [hcount] at h
      cases h
    | ok count =>
      rw [hcount] at h
      change dite (count < 1) _ _ = _ at h
      split at h
      · exact .inl (ReadError.fault.inj (Except.error.inj h)).symm
      · cases h
  · exact .inr (ReadError.fault.inj (Except.error.inj h)).symm

theorem stop_of_upTo {stops : List CodePoint} {e : Enclosed} (h : upTo stops text = some e) :
    e.stop ∈ stops ∧ text[e.width]? = some e.stop := by
  fun_induction upTo stops text generalizing e with
  | case1 => cases h
  | case2 c rest hstop =>
    obtain rfl := Option.some.inj h
    exact ⟨hstop, rfl⟩
  | case3 => cases h
  | case4 d rest _ ih =>
    obtain ⟨inner, hinner, rfl⟩ := Option.map_eq_some_iff.mp h
    exact ih hinner
  | case5 c rest _ _ ih =>
    obtain ⟨inner, hinner, rfl⟩ := Option.map_eq_some_iff.mp h
    exact ih hinner

theorem colon_of_upTo {e : Enclosed} (htext : c :: rest = input.drop index)
    (hupTo : upTo segmentStops (c :: rest) = some e) (hstop : ¬e.stop = ';') :
    input.HasAt (index + e.width) ':' ∧ rest.drop e.width = input.drop (index + e.width + 1) := by
  obtain ⟨hmem, hmark⟩ := stop_of_upTo hupTo
  have hcolon : e.stop = ':' := by
    rcases List.mem_cons.mp hmem with hcolon | hmem
    · exact hcolon
    · exact absurd (List.mem_singleton.mp hmem) hstop
  refine ⟨?_, ?_⟩
  · rw [Text.HasAt, ← hcolon, ← hmark, htext, List.getElem?_drop]
  · rw [← List.drop_succ_cons (a := c), htext, List.drop_drop]
    rfl

theorem segments_error {error : ReadError} {last : Nat} (htext : text = input.drop index)
    (hcolon : ∃ i, index = i + 1 ∧ input.HasAt i ':')
    (h : (segments index text).2 = .error (error, last)) :
    error = .fault ⟨.unclosed segmentStops, index + text.length⟩ ∨
      ∃ place e, index ≤ place ∧ (∃ i, place = i + 1 ∧ input.HasAt i ':') ∧
        upTo segmentStops (input.drop place) = some e ∧ segment place e.text = .error error := by
  fun_induction segments index text with
  | case1 index =>
    obtain ⟨rfl, -⟩ := Prod.mk.inj (Except.error.inj h)
    exact .inl rfl
  | case2 index c rest hupTo stop =>
    obtain ⟨rfl, -⟩ := Prod.mk.inj (Except.error.inj h)
    exact .inl rfl
  | case3 index c rest e hupTo next error' hsegment =>
    obtain ⟨rfl, -⟩ := Prod.mk.inj (Except.error.inj h)
    exact .inr ⟨index, e, Nat.le_refl _, hcolon, htext ▸ hupTo, hsegment⟩
  | case4 => cases h
  | case5 index c rest e hupTo next leaf hsegment hstop others ih =>
    have hwidth := Descent.upTo_width_lt hupTo
    obtain ⟨hbehind, hnext⟩ := colon_of_upTo htext hupTo hstop
    have hlength : next + (rest.drop e.width).length = index + (c :: rest).length := by
      rw [List.length_drop, List.length_cons] at *
      omega
    rcases ih hnext ⟨_, rfl, hbehind⟩ h with hunclosed | ⟨place, e', hle, hrefused⟩
    · rw [hlength] at hunclosed
      exact .inl hunclosed
    · exact .inr ⟨place, e', by omega, hrefused⟩

theorem numberRange_error {first last : Text}
    (h : numberRange index first last = .error (.fault f)) :
    ∃ low high, f = ⟨.rangeReversed low high, index⟩ := by
  unfold numberRange at h
  cases hlow : Numeral.read first with
  | error error =>
    rw [hlow] at h
    cases h
  | ok low =>
    cases hhigh : Numeral.read last with
    | error error =>
      rw [hlow, hhigh] at h
      cases h
    | ok high =>
      rw [hlow, hhigh] at h
      change dite (high < low) _ _ = _ at h
      split at h
      · exact ⟨low, high, (ReadError.fault.inj (Except.error.inj h)).symm⟩
      · cases h

theorem charRange_error {first last : Text}
    (h : charRange index text first last = .error (.fault f)) :
    (∃ a b, f = ⟨.charRangeReversed a b, index⟩) ∨ f = ⟨.charRangeBounds text, index⟩ := by
  unfold charRange at h
  split at h
  · next a b =>
    split at h
    · exact .inl ⟨a, b, (ReadError.fault.inj (Except.error.inj h)).symm⟩
    · cases h
  · exact .inr (ReadError.fault.inj (Except.error.inj h)).symm

theorem marks_of_segment (hcolon : ∃ i, index = i + 1 ∧ input.HasAt i ':') {e : Enclosed}
    (hupTo : upTo segmentStops (input.drop index) = some e)
    (h : segment index e.text = .error (.fault f)) : f.index = index ∧ f.Marks settings input := by
  have hmarks : f.index = index → f.MarksSegment input := by
    rintro rfl
    exact ⟨hcolon, e, hupTo, h⟩
  unfold segment at h
  split at h
  · obtain rfl := ReadError.fault.inj (Except.error.inj h)
    exact ⟨rfl, hmarks rfl⟩
  · next first last hdivide =>
    split at h
    · split at h
      · obtain ⟨low, high, rfl⟩ := numberRange_error h
        exact ⟨rfl, hmarks rfl⟩
      · obtain rfl := ReadError.fault.inj (Except.error.inj h)
        exact ⟨rfl, hmarks rfl⟩
    · rcases charRange_error h with ⟨a, b, rfl⟩ | rfl
      · exact ⟨rfl, hmarks rfl⟩
      · exact ⟨rfl, hmarks rfl⟩

theorem marks_of_misspelling (hmark : input.HasAt index c) (hrest : rest = input.drop (index + 1))
    (h : first index c rest = .error m) (hfault : m.error = .fault f) :
    index ≤ f.index ∧ f.Marks settings input := by
  have hlength : index + 1 + rest.length = input.length := by
    have hlt := hmark.lt
    rw [hrest, List.length_drop]
    omega
  have hunclosed : ∀ closers, m.error = .fault ⟨.unclosed closers, index + 1 + rest.length⟩ →
      index ≤ f.index ∧ f.Marks settings input := by
    intro closers herror
    obtain rfl := ReadError.fault.inj (hfault.symm.trans herror)
    exact ⟨by simp only; omega, hlength⟩
  unfold first at h
  split at h
  · rcases enclosed_error h with herror | ⟨text, htext⟩
    · exact hunclosed _ herror
    · cases htext
  split at h
  · next hset =>
    subst hset
    rcases enclosed_error h with herror | ⟨text, htext⟩
    · exact hunclosed _ herror
    · rw [hfault] at htext
      obtain rfl := sampleSetOf_error htext
      exact ⟨Nat.le_refl _, hmark⟩
  split at h
  · next hrepeat =>
    subst hrepeat
    rcases enclosed_error h with herror | ⟨text, htext⟩
    · exact hunclosed _ herror
    · rw [hfault] at htext
      rcases repetitionOf_error htext with rfl | rfl
      · exact ⟨Nat.le_refl _, hmark⟩
      · exact ⟨Nat.le_refl _, hmark⟩
  split at h
  · next hcolon =>
    subst hcolon
    unfold rangeOf at h
    split at h
    · next leaves error last hsegments =>
      obtain rfl := Except.error.inj h
      obtain rfl : error = .fault f := hfault
      have hfailed : (segments (index + 1) rest).2 = .error (.fault f, last) := by rw [hsegments]
      rcases segments_error hrest ⟨index, rfl, hmark⟩ hfailed with
        herror | ⟨place, e, hle, hbehind, hupTo, hrefused⟩
      · exact hunclosed _ herror
      · obtain ⟨hplace, hmarks⟩ := marks_of_segment hbehind hupTo hrefused
        exact ⟨by omega, hmarks⟩
    · cases h
  · cases h

end errors

end Token

/-! ### Faults of readings -/

section reading

variable {p : Progress} {lexeme : Lexeme} {c : CodePoint} {f : Fault} {halt : Halt}

theorem marks_of_ignore {index : Nat} (hmark : input.HasAt index c)
    (h : p.ignore settings c index = .error halt) (hfault : halt.error = .fault f) :
    f.index = index ∧ f.Marks settings input := by
  unfold Progress.ignore at h
  split at h
  · next hstrict =>
    obtain rfl := Except.error.inj h
    obtain rfl := ReadError.fault.inj hfault
    obtain ⟨hsettings, hblank⟩ := Bool.and_eq_true_iff.mp hstrict
    exact ⟨rfl, hsettings, Bool.not_eq_true' _ ▸ hblank, hmark⟩
  · cases h

theorem marks_of_step (hmark : input.HasAt lexeme.index c) (htoken : lexeme.HasMark c)
    (h : p.step settings input lexeme = .error halt) (hfault : halt.error = .fault f) :
    f.index = lexeme.index ∧ f.Marks settings input := by
  obtain ⟨index, token, stop⟩ := lexeme
  cases token with
  | atom a => cases h
  | range segments => cases h
  | repetition count one_le =>
    obtain rfl : c = '<' := htoken
    simp only [Progress.step, Progress.applyRepetition] at h
    split at h
    · obtain rfl := Except.error.inj h
      obtain rfl := ReadError.fault.inj hfault
      exact ⟨rfl, hmark⟩
    · split at h
      · obtain rfl := Except.error.inj h
        obtain rfl := ReadError.fault.inj hfault
        exact ⟨rfl, hmark⟩
      · cases h
  | opening bracket =>
    obtain rfl : c = bracket.opener := htoken
    simp only [Progress.step, Progress.openBracket] at h
    split at h
    · obtain rfl := Except.error.inj h
      obtain rfl := ReadError.fault.inj hfault
      cases bracket with
      | sequence => exact ⟨rfl, .inl hmark⟩
      | choice => exact ⟨rfl, .inr hmark⟩
    · cases h
  | closing bracket =>
    obtain ⟨rfl, -⟩ : c = bracket.closer ∧ _ := htoken
    simp only [Progress.step, Progress.closeBracket] at h
    split at h
    · exact marks_of_ignore hmark h hfault
    · split at h
      · split at h
        · next hempty =>
          obtain ⟨rfl, -⟩ := hempty
          obtain rfl := Except.error.inj h
          obtain rfl := ReadError.fault.inj hfault
          exact ⟨rfl, hmark⟩
        · cases h
      · exact marks_of_ignore hmark h hfault
  | other d =>
    obtain ⟨rfl, -⟩ : c = d ∧ _ := htoken
    exact marks_of_ignore hmark h hfault

/-- The ways in which a reading fails. -/
inductive Stuck (settings : Settings) (input : Text) : ReadError → Prop where
  | token {current : Nat} {p : Progress} {lexeme : Lexeme} {rest : List Lexeme} {halt : Halt} :
      Reached settings input current p (lexeme :: rest) →
      p.step settings input lexeme = .error halt → Stuck settings input halt.error
  | misspelling {current : Nat} {p : Progress} {c : CodePoint} {m : Misspelling} :
      Reached settings input current p [] → input.HasAt current c →
      Token.first current c (input.drop (current + 1)) = .error m → Stuck settings input m.error
  | unclosed {p : Progress} {bracket : Bracket} : Reached settings input input.length p [] →
      p.top.kind = .bracket bracket →
      Stuck settings input (.fault ⟨.unclosed [bracket.closer], input.length⟩)

/-- From every state that is reached, a failing reading gets stuck. -/
theorem Reached.stuck {current : Nat} {rest : List Lexeme} {e : ReadError}
    (h : Reached settings input current p rest)
    (hfailed : (readFrom settings input (Token.scan 0 input).2 current p rest).result = .error e) :
    Stuck settings input e := by
  induction rest generalizing current p with
  | nil =>
    obtain ⟨-, hle, hscan⟩ := h.orderly
    rcases scan_eq_nil hscan with ⟨hnil, hnone⟩ | ⟨c, tail, m, htext, hsome, hfirst⟩
    · obtain rfl : current = input.length := Nat.le_antisymm hle (List.drop_eq_nil_iff.mp hnil)
      simp only [hnone, readFrom, Progress.finish] at hfailed
      cases hkind : p.top.kind with
      | bracket bracket =>
        simp only [hkind, FrameKind.closer?] at hfailed
        obtain rfl := Except.error.inj hfailed
        exact .unclosed h hkind
      | root =>
        simp only [hkind, FrameKind.closer?] at hfailed
        cases hfailed
      | range =>
        simp only [hkind, FrameKind.closer?] at hfailed
        cases hfailed
    · simp only [hsome, readFrom] at hfailed
      obtain rfl := Except.error.inj hfailed
      obtain ⟨hmark, rfl⟩ := Text.HasAt.of_drop_eq htext
      exact .misspelling h hmark hfirst
  | cons lexeme rest ih =>
    rw [readFrom] at hfailed
    cases hstep : p.step settings input lexeme with
    | ok q =>
      rw [hstep] at hfailed
      exact ih (h.token hstep) hfailed
    | error halt =>
      rw [hstep] at hfailed
      obtain rfl := Except.error.inj hfailed
      exact .token h hstep

theorem stuck_of_read {e : ReadError} (h : read settings input = .error e) :
    Stuck settings input e := Reached.start.stuck h

theorem Stuck.marks {e : ReadError} (h : Stuck settings input e) (hfault : e = .fault f) :
    f.Marks settings input := by
  cases h with
  | token hreached hstep =>
    obtain ⟨-, -, hscan⟩ := hreached.orderly
    obtain ⟨c, hmark, rfl, -, -, -, hfirst, -⟩ := scan_drop_eq_cons hscan
    exact (marks_of_step hmark (Token.hasMark_of_first hfirst) hstep hfault).2
  | misspelling hreached hmark hfirst => exact (Token.marks_of_misspelling hmark rfl hfirst hfault).2
  | unclosed hreached hkind =>
    obtain rfl := ReadError.fault.inj hfault
    rfl

end reading

/-- A fault points at the code point that the failed check is about. Where something is missing at
the end of the text, and only there, it points right behind the text. So, behind a prompt of any
width, the caret stands under the text or right behind it. -/
theorem marks_of_read {f : Fault} (h : read settings input = .error (.fault f)) :
    f.Marks settings input ∧ f.index ≤ input.length ∧
      (f.index = input.length ↔ ∃ closers, f.cause = .unclosed closers) ∧
      ∀ width : Nat, f.caret width =
        if (f.index + width : Int) < columnLimit then
          .ok (List.replicate width (CodePoint.ofChar ' ') ++
            (List.replicate f.index (CodePoint.ofChar ' ') ++ "^\n" ++ f.message))
        else .error .tooFar := by
  have hmarks : f.Marks settings input := (stuck_of_read h).marks rfl
  have hend : ∀ closers, f.cause = .unclosed closers → f.index = input.length := by
    intro closers hcause
    rw [Fault.Marks, hcause] at hmarks
    exact hmarks
  refine ⟨hmarks, ?_, ⟨?_, ?_⟩, ?_⟩
  · by_cases hclosed : ∃ closers, f.cause = .unclosed closers
    · obtain ⟨closers, hcause⟩ := hclosed
      exact Nat.le_of_eq (hend closers hcause)
    · exact Nat.le_of_lt (hmarks.index_lt (not_exists.mp hclosed))
  · intro hindex
    by_contra hclosed
    exact Nat.ne_of_lt (hmarks.index_lt (not_exists.mp hclosed)) hindex
  · rintro ⟨closers, hcause⟩
    exact hend closers hcause
  · intro width
    have hnonneg : ¬(f.index + width : Int) < -columnLimit := by
      unfold columnLimit
      omega
    have hcolumn : (f.index + width : Int).toNat = width + f.index := by omega
    simp only [Fault.caret, RandomText.Fault.rendered, hnonneg, false_or]
    by_cases hfits : (f.index + width : Int) < columnLimit
    · rw [if_neg (Int.not_le.mpr hfits), if_pos hfits, caret, hcolumn,
        ← List.replicate_append_replicate]
      simp only [List.append_assoc]
    · rw [if_pos (Int.not_lt.mp hfits), if_neg hfits]

/-- The second segment of a range inside a bracket has no dash. -/
theorem marks_of_read_segment :
    read {} "(a:0-9:x;" = .error (.fault ⟨.segmentWithoutDash "x", 7⟩) ∧
      Fault.Marks {} "(a:0-9:x;" ⟨.segmentWithoutDash "x", 7⟩ := by
  have hread : read {} "(a:0-9:x;" = .error (.fault ⟨.segmentWithoutDash "x", 7⟩) :=
    Except.error?_eq_some.mp (by decide +kernel)
  exact ⟨hread, (marks_of_read hread).1⟩

end Pattern

end RandomText
