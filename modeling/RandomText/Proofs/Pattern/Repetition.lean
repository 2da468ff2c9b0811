import RandomText.Proofs.Pattern.Closing
import RandomText.Proofs.Pattern.Coordinates
import RandomText.Proofs.Pattern.Extension
import RandomText.Proofs.Pattern.Places

/-!
# A repetition behind a pattern

A repetition at the end of a text applies to the last element of the pattern before it, whatever this
element is, and to nothing else (`read_repeated`). Whether the element is repeated already is kept by the
reader as an index; here it is said of the text: up to some repetition mark the text is a pattern with as
many elements as the whole (`LastRepeated`). The two agree because the root notes a repetition only in a
state in which it stands alone, up to which the text is a pattern (`Reached.repeatedAt`), and keeps it as
long as it gets no more children (`Reached.final`).
-/

namespace RandomText

namespace Position

/-- The same place in another text. -/
def within (whole : Text) (position : Position) : Position := { position with input := whole }

theorem coordinates_within (origin : Text) {front : Text} {i : Nat} (h : i ≤ front.length)
    (behind : Text) :
    (within (front ++ behind) ⟨origin, i, front⟩).line = line ⟨origin, i, front⟩ ∧
      (within (front ++ behind) ⟨origin, i, front⟩).column = column ⟨origin, i, front⟩ := by
  have hwhole : i ≤ (front ++ behind).length := by
    rw [List.length_append]
    omega
  have htake : (front ++ behind).take i = front.take i := List.take_append_of_le_length h
  unfold within
  rw [line_eq hwhole, column_eq hwhole, line_eq h, column_eq h, htake]
  exact ⟨rfl, rfl⟩

end Position

namespace Pattern

variable {settings : Settings} {input : Text} {p q : Progress} {current : Nat} {rest : List Lexeme}

/-! ### The root on the way -/

theorem Progress.Moves.root {P : Frame → Prop} {lexeme : Lexeme} {frames : List Frame}
    (h : p.Moves settings input lexeme frames) (hroot : ∀ f ∈ p.frames, f.kind = .root → P f)
    (hpush : ∀ f node, P f → P (f.push node))
    (hrepeat : ∀ node earlier count one_le, p.top.kind = .root →
      lexeme.token = .repetition count one_le → p.top.latest = node :: earlier → P p.top →
      P { p.top with
        latest := node.withRepeatCount count one_le :: earlier, lastRepeated := some earlier.length }) :
    ∀ f ∈ frames, f.kind = .root → P f := by
  obtain ⟨htop, hbelow⟩ := List.forall_mem_cons.mp hroot
  cases h with
  | ignored _ => exact hroot
  | atom _ => exact List.forall_mem_cons.mpr ⟨fun hkind => hpush _ _ (htop hkind), hbelow⟩
  | range _ => exact List.forall_mem_cons.mpr ⟨fun hkind => hpush _ _ (htop hkind), hbelow⟩
  | repeated htoken hlatest =>
    exact List.forall_mem_cons.mpr
      ⟨fun hkind => hrepeat _ _ _ _ hkind htoken hlatest (htop hkind), hbelow⟩
  | opened _ => exact List.forall_mem_cons.mpr ⟨nofun, hroot⟩
  | closed _ _ hframes =>
    rw [hframes] at hbelow
    obtain ⟨hparent, hothers⟩ := List.forall_mem_cons.mp hbelow
    exact List.forall_mem_cons.mpr ⟨fun hkind => hpush _ _ (hparent hkind), hothers⟩

/-- What holds in a state that is reached, and is kept by every token from there on, holds at the end of
a reading that succeeds. -/
theorem Reached.final {I : Progress → Prop} (h : Reached settings input current p rest) (hp : I p)
    (hstep : ∀ {p q lexeme}, p.step settings input lexeme = .ok q → I p → I q) {root : Node}
    (hread : read settings input = .ok root) : I (reading settings input).progress := by
  rw [read, h.reading_eq] at hread
  rw [h.reading_eq]
  -- The tokens that are left are put on the stack one after the other.
  induction rest generalizing current p with
  | nil =>
    unfold readFrom at hread ⊢
    split at hread
    · cases hread
    · split at hread
      · exact hp
      · cases hread
  | cons lexeme rest ih =>
    unfold readFrom at hread ⊢
    cases hlexeme : p.step settings input lexeme with
    | error halt =>
      rw [hlexeme] at hread
      cases hread
    | ok q =>
      rw [hlexeme] at hread
      exact ih (h.token hlexeme) (hstep hlexeme hp) hread

theorem Reached.exists_step (h : Reached settings input current p rest) {c : CodePoint}
    (hmark : input.HasAt current c) {root : Node} (hread : read settings input = .ok root) :
    ∃ lexeme q others, Token.first current c (input.drop (current + 1)) = .ok lexeme ∧
      p.step settings input lexeme = .ok q ∧ Reached settings input lexeme.stop q others := by
  obtain ⟨-, -, hscan⟩ := h.orderly
  rw [h.read_eq_resume, hmark.drop_eq] at hread
  rw [hmark.drop_eq, Token.scan] at hscan
  cases hfirst : Token.first current c (input.drop (current + 1)) with
  | error m =>
    rw [resume_of_error hfirst] at hread
    cases hread
  | ok lexeme =>
    rw [resume_of_ok hfirst] at hread
    rw [hfirst] at hscan
    obtain ⟨rfl, -⟩ := Prod.mk.inj hscan
    cases hstep : p.step settings input lexeme with
    | error halt =>
      rw [Progress.stepped_of_error hstep] at hread
      cases hread
    | ok q => exact ⟨lexeme, q, _, rfl, hstep, h.token hstep⟩

/-- In some state the root stood alone with `k + 1` children, and behind it stands the mark of a
repetition. -/
def RepeatedAt (settings : Settings) (input : Text) (k : Nat) : Prop :=
  ∃ current p rest, Reached settings input current p rest ∧ p.below = [] ∧
    p.top.latest.length = k + 1 ∧ input.HasAt current '<'

/-- What the root notes as repeated was repeated when the root stood alone. -/
theorem Reached.repeatedAt (h : Reached settings input current p rest) :
    ∀ f ∈ p.frames, f.kind = .root → ∀ k, f.lastRepeated = some k → RepeatedAt settings input k := by
  induction h with
  | start =>
    intro f hf
    rw [List.mem_singleton.mp hf]
    nofun
  | @token current p q lexeme rest hreached hstep ih =>
    obtain ⟨horderly, -, hscan⟩ := hreached.orderly
    obtain ⟨c, hmark, -, -, -, -, hfirst, -⟩ := scan_drop_eq_cons hscan
    apply (Progress.moves_of_step hstep).root ih
    · intro f node hf
      exact hf
    · intro node earlier count one_le hkind htoken hlatest _ k hk
      obtain rfl : earlier.length = k := Option.some.inj hk
      have hbegins := Token.hasMark_of_first hfirst
      rw [Lexeme.HasMark, htoken] at hbegins
      have hbelow := horderly.standing.kind_eq_root_iff.mp hkind
      refine ⟨current, p, lexeme :: rest, hreached, hbelow, ?_, hbegins ▸ hmark⟩
      rw [hlatest, List.length_cons]

/-! ### The beginning of a text -/

theorem Frame.length_children (f : Frame) : f.children.length = f.latest.length := List.length_reverse

theorem Progress.length_carriedOnto_start {whole : Text} (carry : Carry settings input whole)
    (hkind : p.top.kind = .root) :
    (p.carriedOnto carry .start).top.latest.length = p.top.latest.length := by
  show (p.top.carriedOnto carry (.opened .root 0)).latest.length = _
  rw [Frame.carriedOnto_root carry _ hkind]
  show (Node.mapPositionAll carry.position p.top.latest ++ []).length = _
  rw [List.append_nil, Node.length_mapPositionAll]

/-- The text is cut off. -/
def Carry.cut (settings : Settings) (input : Text) (stop : Nat) :
    Carry settings input (input.take stop) where
  index := id
  position := Position.within (input.take stop)
  at_index := fun _ => rfl

theorem Reached.read_take (h : Reached settings input current p rest) (hbelow : p.below = []) :
    ∃ root, read settings (input.take current) = .ok root ∧
      root.children.length = p.top.latest.length := by
  let carry : Carry settings input (input.take current) := .cut settings input current
  have hkind := h.orderly.1.standing.kind_eq_root_iff.mpr hbelow
  have hnone : Progress.start.top.RepeatedWithin := nofun
  have hcut : Reached settings (input.take current) current (p.carriedOnto carry .start)
      (Token.scan current []).1 := by
    apply h.carried carry hnone (fun _ _ => rfl)
    rw [List.append_nil, Progress.start_carriedOnto carry rfl rfl rfl]
    exact .start
  have hend : (input.take current).drop current = [] := by
    rw [List.drop_take, Nat.sub_self, List.take_zero]
  refine ⟨_, hcut.read_of_root hend ((Frame.kind_carriedOnto carry _ _).trans hkind), ?_⟩
  exact (Frame.length_children _).trans (Progress.length_carriedOnto_start carry hkind)

/-! ### Repeated elements -/

/-- The last element of the pattern is repeated: up to the mark of a repetition, the text is a pattern
that has as many elements. -/
def LastRepeated (settings : Settings) (text : Text) (root : Node) : Prop :=
  ∃ front behind root', text = front ++ CodePoint.ofChar '<' :: behind ∧
    read settings front = .ok root' ∧ root'.children.length = root.children.length

theorem Token.repetition_of_first {index : Nat} {tail : Text} {lexeme : Lexeme}
    (h : Token.first index '<' tail = .ok lexeme) :
    ∃ count one_le, lexeme.token = .repetition count one_le := by
  change enclosed index '>' (repetitionOf index) tail = .ok lexeme at h
  obtain ⟨-, -, -, text, htoken⟩ := enclosed_place h
  unfold repetitionOf at htoken
  split at htoken
  · obtain ⟨count, -, htoken⟩ := Except.bind_eq_ok.mp htoken
    split at htoken
    · cases htoken
    · exact ⟨count, _, (Except.ok.inj htoken).symm⟩
  · cases htoken

theorem Progress.eq_of_applyRepetition {count : Nat} {one_le : 1 ≤ count} {index : Nat}
    (h : p.applyRepetition count one_le index = .ok q) :
    ∃ node earlier, p.top.latest = node :: earlier ∧ q.below = p.below ∧
      q.top.latest.length = earlier.length + 1 ∧ q.top.lastRepeated = some earlier.length := by
  unfold applyRepetition at h
  split at h
  · cases h
  · next node earlier hlatest =>
    split at h
    · cases h
    · obtain rfl := Except.ok.inj h
      exact ⟨node, earlier, hlatest, rfl, rfl, rfl⟩

/-- The root has more than `k` children, and if it has one more, this is noted as repeated. -/
def Progress.NotesRepeated (k : Nat) (p : Progress) : Prop :=
  ∀ f ∈ p.frames, f.kind = .root →
    k < f.latest.length ∧ (f.latest.length = k + 1 → f.lastRepeated = some k)

theorem Progress.NotesRepeated.step {k : Nat} {lexeme : Lexeme} (h : p.NotesRepeated k)
    (hstep : p.step settings input lexeme = .ok q) : q.NotesRepeated k := by
  apply (moves_of_step hstep).root h
  · rintro f node ⟨hlt, -⟩
    refine ⟨Nat.lt_succ_of_lt hlt, ?_⟩
    intro hlength
    have hsame : f.latest.length = k := Nat.succ.inj hlength
    omega
  · rintro node earlier count one_le - - hlatest ⟨hlt, -⟩
    rw [hlatest] at hlt
    refine ⟨hlt, ?_⟩
    intro hlength
    exact congrArg some (Nat.succ.inj hlength)

/-- The text tells which element the reader has noted as repeated. -/
theorem lastRepeated_iff {text : Text} {root : Node} (h : read settings text = .ok root) :
    LastRepeated settings text root ↔
      ∃ k, (reading settings text).progress.top.lastRepeated = some k ∧
        k + 1 = root.children.length := by
  constructor
  · rintro ⟨front, behind, root', rfl, hfront, hcount⟩
    -- The repetition is noted behind `front`, and then the root gets no more children.
    obtain ⟨p, -, hp, hbelow, hkind, -, -, rfl⟩ := reached_of_read hfront
    have hgo := hp.continued (CodePoint.ofChar '<' :: behind)
    have hmark : Text.HasAt (front ++ CodePoint.ofChar '<' :: behind) front.length '<' := by
      simp [Text.HasAt]
    obtain ⟨lexeme, q, others, hfirst, hstep, hq⟩ := hgo.exists_step hmark h
    obtain ⟨count, one_le, htoken⟩ := Token.repetition_of_first hfirst
    rw [Progress.step, htoken] at hstep
    obtain ⟨node, earlier, hlatest, hqbelow, hqlength, hqrepeated⟩ :=
      Progress.eq_of_applyRepetition hstep
    have hnotes : q.NotesRepeated earlier.length := by
      have hbottom : q.below = [] := by
        rw [hqbelow]
        show p.below.map _ = []
        rw [hbelow, List.map_nil]
      intro f hf _
      rw [Progress.frames, hbottom, List.mem_singleton] at hf
      rw [hf, hqlength]
      exact ⟨Nat.lt_succ_self _, fun _ => hqrepeated⟩
    have hfinal := hq.final hnotes (fun hstep hp => hp.step hstep) h
    obtain ⟨r, hr, -, -, hrkind, -, -, rfl⟩ := reached_of_read h
    rw [hr] at hfinal ⊢
    obtain ⟨-, hlast⟩ := hfinal r.top List.mem_cons_self hrkind
    have hlength : earlier.length + 1 = r.top.children.length := by
      rw [← List.length_cons, ← hlatest, Progress.length_carriedOnto_start _ hkind,
        ← Frame.length_children]
      exact hcount
    exact ⟨earlier.length, hlast (hlength.trans r.top.length_children).symm, hlength⟩
  · rintro ⟨k, hk, hlength⟩
    obtain ⟨p, hp, hreached, -, hkind, -, -, rfl⟩ := reached_of_read h
    rw [hp] at hk
    obtain ⟨i, q, rest, hq, hbelow, hlatest, hmark⟩ :=
      hreached.repeatedAt p.top List.mem_cons_self hkind k hk
    obtain ⟨root', hread, hcount⟩ := hq.read_take hbelow
    refine ⟨text.take i, text.drop (i + 1), root', ?_, hread, ?_⟩
    · rw [← hmark.drop_eq, List.take_append_drop]
    · rw [hcount, hlatest, hlength]

/-! ### The repetition -/

section counted

variable {run : Text} {count : Nat} (hrun : ∀ c ∈ run, c.isDigit = true) (hne : run ≠ [])
  (hread : Numeral.read run = .ok count)
include hrun hne hread

theorem first_counted (index : Nat) :
    Token.first index '<' (run ++ [CodePoint.ofChar '>']) =
      if h : count < 1 then
        .error ⟨index, .fault ⟨.repeatZero, index⟩, index + 1 + run.length + 1, none⟩
      else .ok ⟨index, .repetition count (Nat.not_lt.mp h), index + 1 + run.length + 1⟩ := by
  have hstop : CodePoint.ofChar '>' ≠ '\\' := by decide
  have hfirst := enclosed_guarded index hstop (Token.repetitionOf index) run []
  rw [guarded_run hrun, repetitionOf_run hrun hne hread] at hfirst
  refine hfirst.trans ?_
  split <;> rfl

theorem resume_counted (index : Nat) :
    resume settings input p index ("<" ++ run ++ ">") =
      if h : count < 1 then .error (.fault ⟨.repeatZero, index⟩)
      else ((p.applyRepetition count (Nat.not_lt.mp h) index).mapError Halt.error).bind fun q =>
        (q.finish settings input).mapError Halt.error := by
  have htext : "<" ++ run ++ ">" = CodePoint.ofChar '<' :: (run ++ [CodePoint.ofChar '>']) := rfl
  have hfirst := first_counted hrun hne hread index
  rw [htext]
  by_cases hzero : count < 1
  · rw [dif_pos hzero] at hfirst ⊢
    exact resume_of_error hfirst
  · rw [dif_neg hzero] at hfirst ⊢
    have hend : (run ++ [CodePoint.ofChar '>']).drop (index + 1 + run.length + 1 - (index + 1)) = [] := by
      apply List.drop_eq_nil_of_le
      rw [List.length_append, List.length_singleton]
      omega
    rw [resume_of_ok hfirst, hend]
    simp only [resume_nil]
    rfl

end counted

theorem Progress.finish_carriedOnto {whole : Text} (carry : Carry settings input whole)
    (hzero : carry.index 0 = 0) (hkind : p.top.kind = .root) :
    (p.carriedOnto carry .start).finish settings whole =
      .ok ((Node.group (.once (settings.at input 0)) .root p.top.children).mapPosition
        carry.position) := by
  have htop : (p.carriedOnto carry .start).top.kind = .root :=
    (Frame.kind_carriedOnto carry _ _).trans hkind
  have hnodes : (p.carriedOnto carry .start).top.children =
      Node.mapPositionAll carry.position p.top.children :=
    Frame.children_carriedOnto carry _ hkind
  have hplace : settings.at whole 0 = (settings.at input 0).map carry.position := by
    rw [carry.at_index, hzero]
  rw [Progress.finish, htop, hnodes, hplace]
  rfl

theorem Progress.applyRepetition_eq_ok {earlier : List Node} {last : Node}
    (hchildren : p.top.children = earlier ++ [last])
    (hfresh : ∀ k, p.top.lastRepeated = some k → k + 1 ≠ p.top.children.length) {count : Nat}
    (hpos : 1 ≤ count) (index : Nat) :
    ∃ q, p.applyRepetition count hpos index = .ok q ∧ q.top.kind = p.top.kind ∧
      q.top.children = earlier ++ [last.withRepeatCount count hpos] := by
  have hlatest : p.top.latest = last :: earlier.reverse := by
    rw [← List.reverse_reverse p.top.latest]
    exact (congrArg List.reverse hchildren).trans List.reverse_concat
  have hother : p.top.lastRepeated ≠ some earlier.reverse.length := by
    intro hk
    apply hfresh _ hk
    rw [hchildren]
    simp
  let top : Frame := { p.top with
    latest := last.withRepeatCount count hpos :: earlier.reverse
    lastRepeated := some earlier.reverse.length }
  refine ⟨{ p with top := top }, ?_, rfl, ?_⟩
  · simp only [Progress.applyRepetition, hlatest]
    exact if_neg hother
  · show (last.withRepeatCount count hpos :: earlier.reverse).reverse = _
    rw [List.reverse_cons, List.reverse_reverse]

/-- **A repetition behind a pattern applies to its last element and to nothing else.** It is refused at
its own mark if it is zero, if there is no element, or if the last element is repeated already. Otherwise
the tree is that of the pattern with the count of the last element replaced; its positions are the same
ones, now of the longer text, with the lines and columns that they had. -/
theorem read_repeated (settings : Settings) {text run : Text} {root : Node}
    (h : read settings text = .ok root) (hrun : ∀ c ∈ run, c.isDigit = true) (hne : run ≠ [])
    (hlength : run.length ≤ Numeral.maxDigits) :
    let whole : Text := text ++ ("<" ++ run ++ ">")
    (Numeral.value run = 0 → read settings whole = .error (.fault ⟨.repeatZero, text.length⟩)) ∧
    (∀ hpos : 1 ≤ Numeral.value run,
      (root.children = [] →
        read settings whole = .error (.fault ⟨.nothingToRepeat, text.length⟩)) ∧
      (LastRepeated settings text root →
        read settings whole = .error (.fault ⟨.repeatedTwice, text.length⟩)) ∧
      ∀ earlier last, root.children = earlier ++ [last] → ¬LastRepeated settings text root →
        read settings whole = .ok ((Node.group root.tag .root
          (earlier ++ [last.withRepeatCount (Numeral.value run) hpos])).mapPosition
            (Position.within whole))) ∧
    root.EveryPosition fun place => ∀ position, place = some position →
      (position.within whole).line = position.line ∧
        (position.within whole).column = position.column := by
  intro whole
  have hnumeral := Numeral.read_run hrun hlength
  have hplaced := placed_of_read h
  have hrepeated := lastRepeated_iff h
  obtain ⟨p, hp, hreached, hbelow, hkind, hstart, -, rfl⟩ := reached_of_read h
  rw [hp] at hrepeated
  let carry : Carry settings text whole := .continued settings text ("<" ++ run ++ ">")
  have hresume : read settings whole =
      resume settings whole (p.carriedOnto carry .start) text.length ("<" ++ run ++ ">") := by
    have hgo := hreached.resume_continued ("<" ++ run ++ ">")
    rw [List.drop_length, List.nil_append] at hgo
    exact hgo
  refine ⟨?_, ?_, ?_⟩
  · intro hzero
    rw [hresume, resume_counted hrun hne hnumeral, dif_pos (by omega)]
  · intro hpos
    have hstep := Progress.applyRepetition_carriedOnto carry .start p nofun (fun _ => rfl)
      (Numeral.value run) hpos text.length
    change Except.mapError Halt.error
      ((p.carriedOnto carry .start).applyRepetition _ hpos text.length) = _ at hstep
    rw [hresume, resume_counted hrun hne hnumeral, dif_neg (Nat.not_lt.mpr hpos), hstep]
    refine ⟨?_, ?_, ?_⟩
    · intro hnone
      have hlatest : p.top.latest = [] := List.reverse_eq_nil_iff.mp hnone
      simp only [Progress.applyRepetition, hlatest]
      rfl
    · intro hlast
      obtain ⟨k, hk, hcount⟩ := hrepeated.mp hlast
      change k + 1 = p.top.children.length at hcount
      rw [Frame.length_children] at hcount
      obtain ⟨node, earlier, hlatest⟩ := List.exists_cons_of_length_eq_add_one hcount.symm
      rw [hlatest] at hcount
      obtain rfl : k = earlier.length := Nat.succ.inj hcount
      simp only [Progress.applyRepetition, hlatest, hk, if_true]
      rfl
    · intro earlier last hchildren hlast
      have hfresh : ∀ k, p.top.lastRepeated = some k → k + 1 ≠ p.top.children.length :=
        fun k hk hcount => hlast (hrepeated.mpr ⟨k, hk, hcount⟩)
      obtain ⟨q, hq, hqkind, hqchildren⟩ :=
        Progress.applyRepetition_eq_ok hchildren hfresh hpos text.length
      have hfinish := Progress.finish_carriedOnto carry rfl (hqkind.trans hkind)
      rw [hqchildren] at hfinish
      rw [hq]
      exact congrArg (Except.mapError Halt.error) hfinish
  · apply hplaced.mono
    rintro place ⟨index, hle, rfl⟩ position hposition
    obtain rfl := Option.some.inj hposition
    exact Position.coordinates_within settings.origin hle ("<" ++ run ++ ">")

/-- An element that was repeated once cannot be repeated again; a group may be, although the element
before it and the one within it are repeated. -/
theorem read_repeated_once :
    (∃ root, read {} "a<1>)" = .ok root ∧ LastRepeated {} "a<1>)" root ∧
      read {} "a<1>)<2>" = .error (.fault ⟨.repeatedTwice, 5⟩)) ∧
    ∃ root earlier last, read {} "a<1>(#<2>)" = .ok root ∧ root.children = earlier ++ [last] ∧
      ¬LastRepeated {} "a<1>(#<2>)" root ∧
      read {} "a<1>(#<2>)<07>" = .ok ((Node.group root.tag .root
        (earlier ++ [last.withRepeatCount 7 (by decide)])).mapPosition
          (Position.within "a<1>(#<2>)<07>")) := by
  constructor
  · have hcount : (read {} "a<1>)").toOption.map (fun root => root.children.length) = some 1 := by
      decide +kernel
    have hnoted : (reading {} "a<1>)").progress.top.lastRepeated = some 0 := by decide +kernel
    have hdigits : ∀ c ∈ Text.ofString "2", c.isDigit = true := by decide
    have hwhole : Text.ofString "a<1>)" ++ ("<" ++ Text.ofString "2" ++ ">") = "a<1>)<2>" := by
      decide
    cases hroot : read {} "a<1>)" with
    | error error =>
      rw [hroot] at hcount
      cases hcount
    | ok root =>
      rw [hroot] at hcount
      have hlast : LastRepeated {} "a<1>)" root :=
        (lastRepeated_iff hroot).mpr ⟨0, hnoted, (Option.some.inj hcount).symm⟩
      obtain ⟨-, hrepeated, -⟩ := read_repeated {} hroot hdigits (by decide) (by decide)
      obtain ⟨-, htwice, -⟩ := hrepeated (by decide)
      rw [hwhole] at htwice
      exact ⟨root, rfl, hlast, htwice hlast⟩
  · have hcount : (read {} "a<1>(#<2>)").toOption.map (fun root => root.children.length) = some 2 := by
      decide +kernel
    have hnoted : (reading {} "a<1>(#<2>)").progress.top.lastRepeated = some 0 := by decide +kernel
    have hdigits : ∀ c ∈ Text.ofString "07", c.isDigit = true := by decide
    have hwhole : Text.ofString "a<1>(#<2>)" ++ ("<" ++ Text.ofString "07" ++ ">") =
        "a<1>(#<2>)<07>" := by decide
    cases hroot : read {} "a<1>(#<2>)" with
    | error error =>
      rw [hroot] at hcount
      cases hcount
    | ok root =>
      rw [hroot] at hcount
      have htwo : root.children.length = 2 := Option.some.inj hcount
      have hlast : ¬LastRepeated {} "a<1>(#<2>)" root := by
        intro hlast
        obtain ⟨k, hk, hlength⟩ := (lastRepeated_iff hroot).mp hlast
        rw [hnoted] at hk
        cases hk
        omega
      have hne : root.children ≠ [] := List.ne_nil_of_length_pos (by omega)
      have hchildren := (List.dropLast_concat_getLast hne).symm
      obtain ⟨-, hrepeated, -⟩ := read_repeated {} hroot hdigits (by decide) (by decide)
      obtain ⟨-, -, hagain⟩ := hrepeated (by decide)
      have hread := hagain _ _ hchildren hlast
      rw [hwhole] at hread
      exact ⟨root, _, _, rfl, hchildren, hlast, hread⟩

end Pattern

end RandomText
