import RandomText.Proofs.Pattern.Concatenation
import RandomText.Proofs.Pattern.Strictness

/-!
# Patterns between brackets

Strict reading refuses a closing bracket that has no meaning, so every bracket of a pattern that is read
strictly is closed within the pattern. Between brackets such a pattern is read as before, with the root
turned into an open bracket (`Progress.inside`): each token does there what it did
(`Progress.step_inside`), and so does the whole pattern, if one more bracket may be open
(`Reached.inside`). A repetition behind the closing bracket repeats the pattern, so what is generated are
as many texts of the pattern, one after the other (`read_bracketed`).
-/

namespace RandomText

namespace Drawing

variable {σ ε α : Type}

/-- Runs of which each begins in the state that the one before it left, each with its output and the
bounds that it asked for. -/
inductive Successive (x : Drawing σ ε (List α)) : σ → List (List α × List Nat) → σ → Prop where
  | none {state : σ} : Successive x state [] state
  | more {state last : σ} {output : List α} {d : Draws σ} {others : List (List α × List Nat)} :
      x.outcome (.start state) = (.ok output, d) → Successive x d.state others last →
      Successive x state ((output, d.bounds) :: others) last

theorem Completes.exists_successive {x : Drawing σ ε (List α)} (h : Completes (fun _ => True) x)
    (n : Nat) (state : σ) :
    ∃ runs last d, runs.length = n ∧ Successive x state runs last ∧
      (Drawing.repeated n x).outcome (.start state) = (.ok (runs.flatMap Prod.fst), d) ∧
      d.state = last ∧ d.bounds = runs.flatMap Prod.snd := by
  -- What was asked for before a run varies, and the run puts its bounds in front of it.
  suffices hall : ∃ runs last more, runs.length = n ∧ Successive x state runs last ∧
      more.reverse = runs.flatMap Prod.snd ∧ ∀ asked,
        (Drawing.repeated n x).outcome ⟨state, asked⟩ =
          (.ok (runs.flatMap Prod.fst), ⟨last, more ++ asked⟩) by
    obtain ⟨runs, last, more, hlength, hruns, hmore, houtcome⟩ := hall
    refine ⟨runs, last, _, hlength, hruns, houtcome [], rfl, ?_⟩
    rw [Draws.bounds, List.append_nil, hmore]
  induction n generalizing state with
  | zero => exact ⟨[], state, [], rfl, .none, rfl, fun _ => rfl⟩
  | succ n ih =>
    obtain ⟨output, state', more, -, hx⟩ := h state
    obtain ⟨runs, last, others, hlength, hruns, hothers, hall⟩ := ih state'
    refine ⟨_ :: runs, last, others ++ more, congrArg Nat.succ hlength, .more (hx []) hruns, ?_, ?_⟩
    · simp [Draws.bounds, hothers]
    · intro asked
      rw [repeated_succ, outcome_bind (hx asked), outcome_bind (hall (more ++ asked)),
        List.append_assoc]
      rfl

end Drawing

namespace Pattern

/-! ### The root as an open bracket -/

/-- One more bracket may be open at once. -/
def Settings.deeper (settings : Settings) : Settings :=
  { settings with maxDepth := settings.maxDepth + 1 }

/-- The root turned into an open bracket. -/
def Frame.inside (f : Frame) : Frame :=
  if f.kind = .root then { f with kind := .bracket .sequence } else f

/-- The state of a reading between brackets, where another root stands below the one that was the
root. -/
def Progress.inside (p : Progress) : Progress where
  top := p.top.inside
  below := p.below.map Frame.inside ++ [.opened .root 0]
  noted := p.noted ++ [.opened (.bracket .sequence) 0]

namespace Frame

@[simp]
theorem latest_inside (f : Frame) : f.inside.latest = f.latest := by
  unfold inside
  split <;> rfl

@[simp]
theorem lastRepeated_inside (f : Frame) : f.inside.lastRepeated = f.lastRepeated := by
  unfold inside
  split <;> rfl

theorem inside_of_root {f : Frame} (h : f.kind = .root) :
    f.inside = { f with kind := .bracket .sequence } := if_pos h

theorem inside_of_bracket {f : Frame} {b : Bracket} (h : f.kind = .bracket b) : f.inside = f := by
  apply if_neg
  rw [h]
  nofun

theorem inside_with (f : Frame) (latest : List Node) (lastRepeated : Option Nat) :
    Frame.inside { f with latest := latest, lastRepeated := lastRepeated } =
      { f.inside with latest := latest, lastRepeated := lastRepeated } := by
  unfold inside
  split <;> rfl

theorem inside_push (f : Frame) (node : Node) : (f.push node).inside = f.inside.push node := by
  unfold inside push
  by_cases h : f.kind = .root
  · simp only [h, if_true]
  · simp only [h, if_false]

end Frame

/-- The root stands below brackets only. -/
abbrev Progress.Rooted (p : Progress) : Prop := Stacked (fun _ _ => True) p.top p.below

theorem Standing.rooted {input : Text} {bound : Nat} {top : Frame} {below : List Frame}
    (h : Standing input bound (top :: below)) (hrange : ∀ f ∈ top :: below, f.kind ≠ .range) :
    Stacked (fun _ _ => True) top below := by
  induction below generalizing top bound with
  | nil =>
    cases h with
    | root hkind _ _ => exact .root hkind trivial
    | inner _ _ _ _ hnone => cases hnone
  | cons parent below ih =>
    cases h with
    | inner hkind _ _ _ hbelow =>
      have hparent := ih hbelow fun f hf => hrange f (List.mem_cons_of_mem _ hf)
      cases htop : top.kind with
      | root => exact absurd htop hkind
      | range => exact absurd htop (hrange top List.mem_cons_self)
      | bracket b => exact .bracket htop trivial hparent

theorem Progress.Orderly.rooted {settings : Settings} {input : Text} {current : Nat} {p : Progress}
    (h : p.Orderly settings input current) : p.Rooted := h.standing.rooted h.no_range

namespace Progress

variable {settings : Settings} {input whole : Text} {p q : Progress} {lexeme : Lexeme}

theorem Rooted.carriedOnto (carry : Carry settings input whole) (base : Progress) (h : p.Rooted) :
    (p.carriedOnto carry base).Rooted := by
  obtain ⟨top, below, noted⟩ := p
  change Stacked _ top below at h
  show Stacked _ (top.carriedOnto carry base.top) (below.map fun f => f.carriedOnto carry base.top)
  induction h with
  | root hkind _ => exact .root ((Frame.kind_carriedOnto carry _ _).trans hkind) trivial
  | bracket hkind _ _ ih =>
    exact .bracket ((Frame.kind_carriedOnto carry _ _).trans hkind) trivial ih

theorem Rooted.inside (h : p.Rooted) : p.inside.Rooted := by
  obtain ⟨top, below, noted⟩ := p
  change Stacked _ top below at h
  show Stacked _ top.inside (below.map Frame.inside ++ [.opened .root 0])
  induction h with
  | root hkind _ =>
    rw [Frame.inside_of_root hkind]
    exact .bracket rfl trivial (.root rfl trivial)
  | bracket hkind _ _ ih =>
    rw [Frame.inside_of_bracket hkind]
    exact .bracket hkind trivial ih

theorem Rooted.depth_inside (h : p.Rooted) : p.inside.depth = p.depth + 1 := by
  have hbelow : p.inside.below.length = p.below.length + 1 := by simp [Progress.inside]
  have hinside : p.inside.depth = p.inside.below.length := h.inside.depth_eq p.inside.noted
  have hdepth : p.depth = p.below.length := h.depth_eq p.noted
  omega

theorem inside_push (p : Progress) (node : Node) : (p.push node).inside = p.inside.push node := by
  unfold Progress.push Progress.inside
  rw [Frame.inside_push]

theorem ignore_inside {c : CodePoint} {index : Nat} (h : p.ignore settings c index = .ok q) :
    p.inside.ignore settings.deeper c index = .ok q.inside := by
  unfold ignore at h ⊢
  split at h
  · cases h
  · next hignored =>
    obtain rfl := Except.ok.inj h
    exact if_neg hignored

theorem applyRepetition_inside {count : Nat} {one_le : 1 ≤ count} {index : Nat}
    (h : p.applyRepetition count one_le index = .ok q) :
    p.inside.applyRepetition count one_le index = .ok q.inside := by
  have hlatest : p.inside.top.latest = p.top.latest := p.top.latest_inside
  have hrepeated : p.inside.top.lastRepeated = p.top.lastRepeated := p.top.lastRepeated_inside
  unfold applyRepetition at h ⊢
  rw [hlatest, hrepeated]
  split at h
  · cases h
  split at h
  · cases h
  · next node earlier htop hfresh =>
    obtain rfl := Except.ok.inj h
    refine (if_neg hfresh).trans (congrArg Except.ok ?_)
    unfold inside
    simp only [Frame.inside_with]

theorem openBracket_inside (hrooted : p.Rooted) {bracket : Bracket} {index : Nat}
    (h : p.openBracket settings bracket index = .ok q) :
    p.inside.openBracket settings.deeper bracket index = .ok q.inside := by
  have hdepth := hrooted.depth_inside
  unfold openBracket at h ⊢
  split at h
  · cases h
  · next hlimit =>
    obtain rfl := Except.ok.inj h
    refine (if_neg ?_).trans rfl
    show ¬settings.maxDepth + 1 ≤ p.inside.depth
    omega

theorem meant_of_strict (hstrict : settings.strict = true) {bracket : Bracket} {index stop : Nat}
    (h : p.step settings input ⟨index, .closing bracket, stop⟩ = .ok q) :
    p.stray? (.closing bracket) = none := by
  by_contra hne
  obtain ⟨c, hstray⟩ := Option.ne_none_iff_exists'.mp hne
  have hcloser : c = bracket.closer := by
    simp only [stray?] at hstray
    split at hstray
    · cases hstray
    · exact (Option.some.inj hstray).symm
  have hblank : c.isBlank = false := by
    rw [hcloser]
    cases bracket <;> decide
  rw [step_of_stray hstray, ignore, hstrict, hblank] at h
  cases h

theorem closeBracket_inside {bracket : Bracket} {index : Nat}
    (hmeant : p.stray? (.closing bracket) = none)
    (h : p.closeBracket settings input bracket index = .ok q) :
    p.inside.closeBracket settings.deeper input bracket index = .ok q.inside := by
  obtain ⟨top, below, noted⟩ := p
  obtain ⟨hkind, parent, below, rfl⟩ := closing_of_meant hmeant
  change top.kind = .bracket bracket at hkind
  have hinside : Progress.inside ⟨top, parent :: below, noted⟩ =
      ⟨top, parent.inside :: (below.map Frame.inside ++ [.opened .root 0]),
        noted ++ [.opened (.bracket .sequence) 0]⟩ := by
    rw [Progress.inside, Frame.inside_of_bracket hkind]
    rfl
  rw [hinside]
  simp only [closeBracket, hkind, if_true] at h ⊢
  split at h
  · cases h
  · next hchoice =>
    obtain rfl := Except.ok.inj h
    rw [if_neg hchoice, inside_push]
    rfl

/-- What a token that is accepted in strict reading does, it does between brackets too. -/
theorem step_inside (hstrict : settings.strict = true) (hrooted : p.Rooted)
    (h : p.step settings input lexeme = .ok q) :
    p.inside.step settings.deeper input lexeme = .ok q.inside := by
  obtain ⟨index, token, stop⟩ := lexeme
  cases token with
  | atom a =>
    obtain rfl := Except.ok.inj h
    rw [inside_push]
    rfl
  | range segments =>
    obtain rfl := Except.ok.inj h
    unfold addRange
    rw [inside_push]
    rfl
  | repetition count one_le => exact applyRepetition_inside h
  | opening bracket => exact openBracket_inside hrooted h
  | closing bracket => exact closeBracket_inside (meant_of_strict hstrict h) h
  | other c => exact ignore_inside h

end Progress

section reading

variable {settings : Settings} {text : Text}

/-- A text that is read strictly is read between brackets through the same states. -/
theorem Reached.inside {current : Nat} {p : Progress} {rest : List Lexeme}
    (h : Reached settings text current p rest) (hstrict : settings.strict = true)
    (hlimit : 0 ≤ settings.maxDepth) {behind whole : Text}
    (hwhole : whole = CodePoint.ofChar '(' :: (text ++ behind)) :
    Reached settings.deeper whole (current + 1)
      (p.carriedOnto (.moved settings text whole 1) .start).inside
      (Token.scan (current + 1) (text.drop current ++ behind)).1 := by
  let carry : Carry settings text whole := .moved settings text whole 1
  let within (p : Progress) : Progress := (p.carriedOnto carry .start).inside
  have hnone : Progress.start.top.RepeatedWithin := nofun
  have hstep : ∀ {current p q lexeme rest}, Reached settings text current p (lexeme :: rest) →
      p.step settings text lexeme = .ok q →
        (within p).step settings.deeper whole (lexeme.mapIndex carry.index) = .ok (within q) := by
    intro current p q lexeme rest hreached hstep
    have hrooted := hreached.orderly.1.rooted.carriedOnto carry .start
    have hstepped := Progress.stepped_of_ok hstep
    have hmoved := Progress.stepped_carriedOnto carry .start p hnone lexeme (.inr ⟨q, hstepped⟩)
    rw [hstepped] at hmoved
    exact Progress.step_inside hstrict hrooted (Progress.step_of_stepped hmoved)
  have hopened : Progress.start.step settings.deeper whole ⟨0, .opening .sequence, 1⟩ =
      .ok (within .start) := by
    refine (if_neg ?_).trans rfl
    show ¬settings.maxDepth + 1 ≤ 0
    omega
  have hscan : (Token.scan 0 whole).1 =
      ⟨0, .opening .sequence, 1⟩ :: (Token.scan 1 (text ++ behind)).1 := by
    rw [hwhole, Token.scan]
    rfl
  have hstart : Reached settings.deeper whole 0 .start (Token.scan 0 whole).1 := .start
  rw [hscan] at hstart
  apply h.mapped (fun i k => Nat.add_right_comm i k 1) hstep
  rw [← List.append_assoc, List.take_append_drop]
  exact hstart.token hopened

theorem resume_closed {whole : Text} {top : Frame} (hkind : top.kind = .bracket .sequence)
    (noted : List Event) (index : Nat) {run : Text} (hrun : ∀ c ∈ run, c.isDigit = true)
    (hlength : run.length ≤ Numeral.maxDigits) (hpos : 1 ≤ Numeral.value run) :
    resume settings whole ⟨top, [.opened .root 0], noted⟩ index
        ([Bracket.sequence.closer] ++ ("<" ++ run ++ ">")) =
      .ok (.group (.once (settings.at whole 0)) .root
        [.group ⟨Numeral.value run, settings.at whole top.start, hpos⟩ .sequence top.children]) := by
  have hne : run ≠ [] := by
    rintro rfl
    exact absurd hpos (by decide)
  let group : Node := .group (.once (settings.at whole top.start)) .sequence top.children
  let outer : Frame := .opened .root 0
  let repeated : Progress :=
    ⟨{ outer with
        latest := [group.withRepeatCount (Numeral.value run) hpos], lastRepeated := some 0 }, [], noted⟩
  have hclosed : LeadsTo settings whole ⟨top, [outer], noted⟩ index [Bracket.sequence.closer]
      (Progress.push group ⟨outer, [], noted⟩) := .closing hkind nofun
  have hcounted : LeadsTo settings whole (Progress.push group ⟨outer, [], noted⟩) (index + 1)
      ("<" ++ run ++ ">") repeated :=
    .counted hrun hne (Numeral.read_run hrun hlength) hpos fun _ => rfl
  have hread := hclosed.trans hcounted []
  rw [List.append_nil, resume_nil] at hread
  exact hread

theorem read_bracketed_eq {root : Node} (h : read settings text = .ok root)
    (hstrict : settings.strict = true) (hlimit : 0 ≤ settings.maxDepth) {run : Text}
    (hrun : ∀ c ∈ run, c.isDigit = true) (hlength : run.length ≤ Numeral.maxDigits)
    (hpos : 1 ≤ Numeral.value run) :
    let whole : Text := "(" ++ text ++ ")<" ++ run ++ ">"
    read settings.deeper whole = .ok (.group (.once (settings.at whole 0)) .root
      [.group ⟨Numeral.value run, settings.at whole 0, hpos⟩ .sequence
        (Node.movedAll 1 whole root.children)]) := by
  intro whole
  obtain ⟨p, -, hreached, hbelow, hkind, hstart, -, rfl⟩ := reached_of_read h
  let behind : Text := [Bracket.sequence.closer] ++ ("<" ++ run ++ ">")
  have hwhole : whole = CodePoint.ofChar '(' :: (text ++ behind) := by
    show ((_ ++ text) ++ _) ++ run ++ _ = _
    simp only [List.append_assoc]
    rfl
  have hend : whole.drop (text.length + 1) = behind := by
    rw [hwhole, List.drop_succ_cons, List.drop_left]
  let carry : Carry settings text whole := .moved settings text whole 1
  let moved : Frame := p.top.carriedOnto carry (.opened .root 0)
  let noted := (p.carriedOnto carry .start).inside.noted
  have hinside : (p.carriedOnto carry .start).inside = ⟨moved.inside, [.opened .root 0], noted⟩ := by
    have hnone : (p.carriedOnto carry .start).below = [] := by
      show p.below.map _ = []
      rw [hbelow, List.map_nil]
    unfold Progress.inside
    rw [hnone]
    rfl
  have htop : moved.inside = { moved with kind := .bracket .sequence } :=
    Frame.inside_of_root ((Frame.kind_carriedOnto carry _ _).trans hkind)
  have hplace : moved.inside.start = 0 := by
    rw [htop]
    show (p.top.carriedOnto carry (.opened .root 0)).start = 0
    rw [Frame.carriedOnto_root carry _ hkind]
    exact hstart
  have hchildren : moved.inside.children = Node.movedAll 1 whole p.top.children := by
    rw [htop, Node.movedAll]
    exact Frame.children_carriedOnto carry _ hkind
  have hbracket : moved.inside.kind = .bracket .sequence := congrArg Frame.kind htop
  have hclosing := hreached.inside hstrict hlimit hwhole
  rw [hclosing.read_eq_resume, hend, hinside, resume_closed hbracket noted _ hrun hlength hpos, hplace,
    hchildren]
  rfl

end reading

/-- **A pattern between brackets is repeated as a whole.** In strict reading, and with one more bracket
that may be open, the nodes of the pattern become those of a group with the count of the repetition. From
every source the group generates what that many runs of the pattern generate, one after the other from the
state that the run before left, and asks for their bounds. -/
theorem read_bracketed (origin : Text) (limit : Nat) {text run : Text} {root : Node}
    (h : read ⟨origin, true, limit⟩ text = .ok root) (hrun : ∀ c ∈ run, c.isDigit = true)
    (hlength : run.length ≤ Numeral.maxDigits) (hpos : 1 ≤ Numeral.value run) :
    let whole : Text := "(" ++ text ++ ")<" ++ run ++ ">"
    let deeper : Settings := ⟨origin, true, limit + 1⟩
    ∃ wrapped, read deeper whole = .ok wrapped ∧
      wrapped = .group (.once (deeper.at whole 0)) .root
        [.group ⟨Numeral.value run, deeper.at whole 0, hpos⟩ .sequence
          (Node.movedAll 1 whole root.children)] ∧
      ∀ (σ : Type) (source : Source σ) (state : σ), ∃ runs last d,
        runs.length = Numeral.value run ∧
        Drawing.Successive (root.generate source) state runs last ∧
        (wrapped.generate source).outcome (.start state) = (.ok (runs.flatMap Prod.fst), d) ∧
        d.state = last ∧ d.bounds = runs.flatMap Prod.snd := by
  intro whole deeper
  refine ⟨_, read_bracketed_eq h rfl (Int.natCast_nonneg limit) hrun hlength hpos, rfl, ?_⟩
  intro σ source state
  match root, wellFormed_of_read h with
  | .group tag .root nodes, ⟨honce, hnested, _⟩ =>
    have hwrapped : (Node.group (.once (deeper.at whole 0)) .root
        [.group ⟨Numeral.value run, deeper.at whole 0, hpos⟩ .sequence
          (Node.movedAll 1 whole nodes)]).generate source =
        Drawing.repeated (Numeral.value run) (Node.generateAll source nodes) := by
      rw [Node.generate_root source rfl, Node.generateAll_singleton]
      show Drawing.repeated _ (Node.generateAll source (Node.movedAll 1 whole nodes)) = _
      rw [Node.generateAll_movedAll]
    have hruns := (Node.completes_generateAll source nodes hnested).exists_successive
      (Numeral.value run) state
    rw [← hwrapped, ← Node.generate_root source honce] at hruns
    exact hruns

/-- A class beside a choice, three times. -/
theorem read_bracketed_thrice :
    ∃ root wrapped, read ⟨"<pattern>", true, 31⟩ "a\x7b#\"x\"\x7d" = .ok root ∧
      read ⟨"<pattern>", true, 32⟩ "(a\x7b#\"x\"\x7d)<03>" = .ok wrapped ∧
      ∀ (σ : Type) (source : Source σ) (state : σ), ∃ runs last d, runs.length = 3 ∧
        Drawing.Successive (root.generate source) state runs last ∧
        (wrapped.generate source).outcome (.start state) = (.ok (runs.flatMap Prod.fst), d) ∧
        d.state = last ∧ d.bounds = runs.flatMap Prod.snd := by
  have hok : (read ⟨"<pattern>", true, 31⟩ "a\x7b#\"x\"\x7d").isOk = true := by decide +kernel
  have hdigits : ∀ c ∈ Text.ofString "03", c.isDigit = true := by decide
  have hlength : (Text.ofString "03").length ≤ Numeral.maxDigits := by decide
  have hvalue : Numeral.value "03" = 3 := by decide
  have hwhole : "(" ++ Text.ofString "a\x7b#\"x\"\x7d" ++ ")<" ++ Text.ofString "03" ++ ">" =
      Text.ofString "(a\x7b#\"x\"\x7d)<03>" := by decide +kernel
  cases hroot : read ⟨"<pattern>", true, 31⟩ "a\x7b#\"x\"\x7d" with
  | error error =>
    rw [hroot] at hok
    cases hok
  | ok root =>
    obtain ⟨wrapped, hread, -, hruns⟩ :=
      read_bracketed "<pattern>" 31 hroot hdigits hlength (by rw [hvalue]; decide)
    rw [hwhole] at hread
    rw [hvalue] at hruns
    exact ⟨root, wrapped, rfl, hread, hruns⟩

end Pattern

end RandomText
