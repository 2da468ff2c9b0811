import RandomText.Proofs.Pattern.Resume

/-!
# Recursive descent

A second reader of patterns, which goes over the code points without a stack: `Descent.items` reads
the items of one group up to its closing bracket and calls itself for the groups inside. The main
statement, `read_eq_descent`, is that it agrees with the reader that keeps a stack of frames on
every text, in the trees with their positions and in the errors.

Each open frame of the stack is a call that waits for its inner call to return. So a reading from a
progress is one call of `items` for the top frame, after which the frames below read on with what it
returned (`agreeBelow`).
-/

namespace RandomText.Pattern

namespace Descent

/-- An index of a text, with the part of the text from there on. -/
structure Place (input : Text) where
  index : Nat
  rest : Text
  index_add : index + rest.length = input.length

/-- What was read, and the place behind it, before which a part of less than `bound` is left. -/
structure Taken (input : Text) (α : Type) (bound : Nat) where
  value : α
  place : Place input
  rest_lt : place.rest.length < bound

/-- The fault `cause` at `index`. -/
def fault {α : Type} (cause : Cause) (index : Nat) : Except ReadError α :=
  .error (.fault ⟨cause, index⟩)

/-- The leaf that one code point stands for. -/
def leaf? (c : CodePoint) : Option Atom :=
  if c = '.' then some .any
  else if c = 'a' then some (.alpha false)
  else if c = 'A' then some (.alpha true)
  else if c = '#' then some .numeric
  else if c = '@' then some .symbol
  else if c = '$' then some .basicSymbol
  else none

/-- The bracket that one code point opens. -/
def opener? (c : CodePoint) : Option Bracket :=
  if c = '(' then some .sequence else if c = '\x7b' then some .choice else none

theorem upTo_width_lt {stops : List CodePoint} {text : Text} {e : Token.Enclosed}
    (h : Token.upTo stops text = some e) : e.width < text.length := by
  fun_induction Token.upTo stops text generalizing e with
  | case1 => simp at h
  | case2 c rest hstop =>
    obtain rfl := Option.some.inj h
    simp
  | case3 => simp at h
  | case4 d rest _ ih =>
    obtain ⟨inner, hinner, rfl⟩ := Option.map_eq_some_iff.mp h
    have := ih hinner
    simp only [List.length_cons]
    omega
  | case5 c rest _ _ ih =>
    obtain ⟨inner, hinner, rfl⟩ := Option.map_eq_some_iff.mp h
    have := ih hinner
    simp only [List.length_cons]
    omega

/-- Text up to one of the stops, without its backslashes, and the stop. -/
def scanTo {input : Text} (stops : List CodePoint) (place : Place input) :
    Except ReadError (Taken input (Text × CodePoint) place.rest.length) :=
  match h : Token.upTo stops place.rest with
  | none => fault (.unclosed stops) input.length
  | some e =>
    have hwidth := upTo_width_lt h
    .ok ⟨(e.text, e.stop),
      ⟨place.index + e.width + 1, place.rest.drop (e.width + 1), by
        rw [← place.index_add, List.length_drop]; omega⟩,
      by rw [List.length_drop]; omega⟩

/-- The segments of a range. -/
def segments (settings : Settings) {input : Text} (place : Place input) :
    Except ReadError (Taken input (List Node) place.rest.length) := do
  let taken ← scanTo Token.segmentStops place
  let atom ← Token.segment place.index taken.value.1
  let node : Node := .leaf (.once (settings.at input place.index)) atom
  if taken.value.2 = ';' then return ⟨[node], taken.place, taken.rest_lt⟩
  else
    let others ← segments settings taken.place
    return ⟨node :: others.value, others.place, Nat.lt_trans others.rest_lt taken.rest_lt⟩
termination_by place.rest.length
decreasing_by exact taken.rest_lt

/-- A range is its only segment or the sequence of its segments. -/
def range (position : Option Position) : List Node → Node
  | [node] => node
  | nodes => .group (.once position) .sequence nodes

/-- The items, latest first, with the latest of them repeated; `repeated` is whether it was repeated
already. -/
def repeatLatest (count : Nat) (one_le : 1 ≤ count) (index : Nat) (repeated : Bool) :
    List Node → Except ReadError (List Node)
  | [] => fault .nothingToRepeat index
  | node :: earlier =>
    if repeated then fault .repeatedTwice index
    else .ok (node.withRepeatCount count one_le :: earlier)

/-- Reads the items of a group up to its closing bracket, or those of the whole text, where
`closer` is none. `depth` brackets are open; `done` are the items read so far, latest first, and
`repeated` is whether a repetition was applied to the latest of them. -/
def items (settings : Settings) {input : Text} (closer : Option Bracket) (depth bound : Nat)
    (done : List Node) (repeated : Bool) :
    (place : Place input) → place.rest.length < bound → Except ReadError (Taken input (List Node) bound)
  | ⟨index, [], hindex⟩, hbound =>
    match closer with
    | some bracket => fault (.unclosed [bracket.closer]) input.length
    | none => .ok ⟨done.reverse, ⟨index, [], hindex⟩, hbound⟩
  | ⟨index, c :: rest, hindex⟩, hbound =>
    have hrest : rest.length < bound := Nat.lt_of_succ_lt hbound
    let position := settings.at input index
    let next : Place input := ⟨index + 1, rest, by rw [← hindex, List.length_cons]; omega⟩
    if closer.map Bracket.closer = some c then .ok ⟨done.reverse, next, hrest⟩
    else if c = '"' then do
      let taken ← scanTo ['"'] next
      let node : Node := .leaf (.once position) (.literal taken.value.1)
      items settings closer depth bound (node :: done) false taken.place
        (Nat.lt_trans taken.rest_lt hrest)
    else if c = '[' then do
      let taken ← scanTo [']'] next
      if hchars : taken.value.1 = [] then fault .emptySampleSet index
      else
        let node : Node := .leaf (.once position) (.sampleSet taken.value.1 hchars)
        items settings closer depth bound (node :: done) false taken.place
          (Nat.lt_trans taken.rest_lt hrest)
    else if c = '<' then do
      let taken ← scanTo ['>'] next
      if Numeral.isDecimal taken.value.1 then
        let count ← (Numeral.read taken.value.1).mapError .numeral
        if hcount : count < 1 then fault .repeatZero index
        else
          let done ← repeatLatest count (Nat.not_lt.mp hcount) index repeated done
          items settings closer depth bound done true taken.place
            (Nat.lt_trans taken.rest_lt hrest)
      else fault .repeatNotANumber index
    else if c = ':' then do
      let taken ← segments settings next
      items settings closer depth bound (range position taken.value :: done) false taken.place
        (Nat.lt_trans taken.rest_lt hrest)
    else
      match opener? c, leaf? c with
      | some bracket, _ =>
        if settings.maxDepth ≤ depth then fault .nestedTooDeeply index
        else do
          let inner ← items settings (some bracket) (depth + 1) (rest.length + 1) [] false next
            (Nat.lt_succ_self _)
          if bracket = .choice ∧ inner.value = [] then fault .emptyChoice (inner.place.index - 1)
          else
            let node : Node := .group (.once position) bracket.groupKind inner.value
            items settings closer depth bound (node :: done) false inner.place
              (Nat.lt_of_lt_of_le inner.rest_lt hrest)
      | none, some atom =>
        let node : Node := .leaf (.once position) atom
        items settings closer depth bound (node :: done) false next hrest
      | none, none =>
        if settings.strict && !c.isBlank then fault (.unexpected c) index
        else items settings closer depth bound done repeated next hrest
termination_by place => place.rest.length
decreasing_by
  · exact Nat.lt_succ_of_lt taken.rest_lt
  · exact Nat.lt_succ_of_lt taken.rest_lt
  · exact Nat.lt_succ_of_lt taken.rest_lt
  · exact Nat.lt_succ_of_lt taken.rest_lt
  · exact Nat.lt_succ_self _
  · exact inner.rest_lt
  · exact Nat.lt_succ_self _
  · exact Nat.lt_succ_self _

/-- The tree of a pattern text. -/
def read (settings : Settings) (input : Text) : Except ReadError Node := do
  let taken ← items settings none 0 (input.length + 1) [] false ⟨0, input, Nat.zero_add _⟩
    (Nat.lt_succ_self _)
  return .group (.once (settings.at input 0)) .root taken.value

/-! ### Tokens of more than one code point -/

variable {settings : Settings} {input : Text}

theorem scanTo_error {stops : List CodePoint} {place : Place input} {error : ReadError}
    (h : scanTo stops place = .error error) :
    Token.upTo stops place.rest = none ∧ error = .fault ⟨.unclosed stops, input.length⟩ := by
  unfold scanTo at h
  split at h
  · next hupTo => exact ⟨hupTo, (Except.error.inj h).symm⟩
  · simp at h

theorem scanTo_ok {stops : List CodePoint} {place : Place input}
    {taken : Taken input (Text × CodePoint) place.rest.length} (h : scanTo stops place = .ok taken) :
    ∃ width, Token.upTo stops place.rest = some ⟨taken.value.1, taken.value.2, width⟩ ∧
      taken.place.index = place.index + width + 1 ∧
      taken.place.rest = place.rest.drop (width + 1) := by
  unfold scanTo at h
  split at h
  · simp [fault] at h
  · next e hupTo =>
    obtain rfl := Except.ok.inj h
    exact ⟨e.width, hupTo, rfl, rfl⟩

theorem resume_enclosed {make : Text → Except ReadError Token} {index : Nat} {c stop : CodePoint}
    {rest : Text} (hfirst : Token.first index c rest = Token.enclosed index stop make rest)
    (hindex : index + 1 + rest.length = input.length) (p : Progress) :
    resume settings input p index (c :: rest) = (do
      let taken ← scanTo [stop] (⟨index + 1, rest, hindex⟩ : Place input)
      let token ← make taken.value.1
      let q ← p.stepped settings input ⟨index, token, taken.place.index⟩
      resume settings input q taken.place.index taken.place.rest) := by
  rw [Token.enclosed] at hfirst
  cases hscan : scanTo [stop] (⟨index + 1, rest, hindex⟩ : Place input) with
  | error error =>
    obtain ⟨hupTo, rfl⟩ := scanTo_error hscan
    simp only [hupTo] at hfirst
    rw [resume_of_error hfirst, hindex]
    rfl
  | ok taken =>
    obtain ⟨width, hupTo, hstop, hrest⟩ := scanTo_ok hscan
    simp only [hupTo] at hfirst
    cases hmake : make taken.value.1 with
    | error error =>
      rw [hmake] at hfirst
      rw [resume_of_error hfirst]
      simp only [bind, Except.bind, hmake]
    | ok token =>
      rw [hmake, ← hstop] at hfirst
      have hdrop : taken.place.index - (index + 1) = width + 1 := by
        simp only [hstop]
        omega
      rw [resume_of_ok hfirst]
      simp only [bind, Except.bind, hmake, hdrop, hrest]

theorem segments_eq (settings : Settings) (n : Nat) :
    ∀ (place : Place input), place.rest.length = n →
    (∀ error, segments settings place = .error error → ∃ leaves stop,
      Token.segments place.index place.rest = (leaves, .error (error, stop))) ∧
    (∀ taken, segments settings place = .ok taken → ∃ leaves,
      Token.segments place.index place.rest = (leaves, .ok taken.place.index) ∧
      Progress.segmentNodes settings input leaves = taken.value ∧
      place.index ≤ taken.place.index ∧
      taken.place.rest = place.rest.drop (taken.place.index - place.index)) := by
  -- Each segment takes at least its stop from the rest, so the induction is on the length of the rest.
  induction n using Nat.strongRecOn with
  | ind n ih =>
    rintro ⟨index, rest, hindex⟩ rfl
    rw [segments]
    cases hscan : scanTo Token.segmentStops (⟨index, rest, hindex⟩ : Place input) with
    | error error =>
      obtain ⟨hupTo, rfl⟩ := scanTo_error hscan
      refine ⟨fun error' herror => ?_, fun taken htaken => by cases htaken⟩
      obtain rfl := Except.error.inj herror
      refine ⟨[], index + rest.length, ?_⟩
      rw [segments_of_unclosed hupTo, hindex]
    | ok taken =>
      obtain ⟨width, hupTo, hstop, hrest⟩ := scanTo_ok hscan
      obtain ⟨others_error, others_ok⟩ := ih _ taken.rest_lt taken.place rfl
      simp only [bind, Except.bind]
      simp only at hupTo hstop hrest
      cases hsegment : Token.segment index taken.value.1 with
      | error error =>
        refine ⟨fun error' herror => ?_, fun taken' htaken => by cases htaken⟩
        obtain rfl := Except.error.inj herror
        exact ⟨[], _, segments_of_error hupTo hsegment⟩
      | ok atom =>
        rw [segments_of_upTo hupTo hsegment]
        simp only [← hstop, ← hrest]
        by_cases hend : taken.value.2 = ';'
        · rw [if_pos hend, if_pos hend]
          refine ⟨fun error herror => (by cases herror), fun taken' htaken => ?_⟩
          obtain rfl := Except.ok.inj htaken
          refine ⟨_, rfl, rfl, by simp only [hstop]; omega, ?_⟩
          simp only [hrest, hstop]
          congr 1
          omega
        · rw [if_neg hend, if_neg hend]
          cases hothers : segments settings taken.place with
          | error error =>
            obtain ⟨leaves, stop, hcut⟩ := others_error error hothers
            refine ⟨fun error' herror => ?_, fun taken' htaken => by cases htaken⟩
            obtain rfl := Except.error.inj herror
            exact ⟨_, stop, by rw [hcut]⟩
          | ok others =>
            obtain ⟨leaves, hcut, hnodes, hle, hleft⟩ := others_ok others hothers
            refine ⟨fun error herror => (by cases herror), fun taken' htaken => ?_⟩
            obtain rfl := Except.ok.inj htaken
            refine ⟨(index, atom) :: leaves, by rw [hcut], ?_, by simp only; omega, ?_⟩
            · rw [← hnodes]
              rfl
            · simp only [hleft, hrest, List.drop_drop]
              congr 1
              omega

theorem range_eq_close (position : Option Position) (nodes : List Node) :
    range position nodes = FrameKind.range.close position nodes := by
  unfold range FrameKind.close
  split <;> simp_all

theorem resume_range {index : Nat} {rest : Text} (hindex : index + 1 + rest.length = input.length)
    (p : Progress) :
    resume settings input p index (':' :: rest) = (do
      let taken ← segments settings (⟨index + 1, rest, hindex⟩ : Place input)
      resume settings input (p.push (range (settings.at input index) taken.value))
        taken.place.index taken.place.rest) := by
  have hfirst : Token.first index ':' rest = Token.rangeOf index rest := rfl
  obtain ⟨hcut_error, hcut_ok⟩ := segments_eq settings _
    (⟨index + 1, rest, hindex⟩ : Place input) rfl
  cases hsegments : segments settings (⟨index + 1, rest, hindex⟩ : Place input) with
  | error error =>
    obtain ⟨leaves, stop, hcut⟩ := hcut_error error hsegments
    simp only at hcut
    rw [Token.rangeOf, hcut] at hfirst
    rw [resume_of_error hfirst]
    rfl
  | ok taken =>
    obtain ⟨leaves, hcut, hnodes, -, hrest⟩ := hcut_ok taken hsegments
    simp only at hcut hrest
    rw [Token.rangeOf, hcut] at hfirst
    have hstep : p.stepped settings input ⟨index, .range leaves, taken.place.index⟩ =
        .ok (p.addRange settings input leaves index) := rfl
    have halike : (p.addRange settings input leaves index).Alike
        (p.push (range (settings.at input index) taken.value)) := by
      rw [range_eq_close, ← hnodes]
      exact ⟨rfl, rfl⟩
    rw [resume_of_ok hfirst, hstep]
    simp only [bind, Except.bind, hrest]
    exact resume_congr halike _ _

/-! ### Tokens of one code point -/

theorem resume_single {c : CodePoint} (hquote : c ≠ '"') (hset : c ≠ '[') (hrepeat : c ≠ '<')
    (hrange : c ≠ ':') (p : Progress) (index : Nat) (rest : Text) :
    resume settings input p index (c :: rest) = (do
      let q ← p.stepped settings input ⟨index, (Token.single? c).getD (.other c), index + 1⟩
      resume settings input q (index + 1) rest) := by
  have hfirst : Token.first index c rest =
      .ok ⟨index, (Token.single? c).getD (.other c), index + 1⟩ := by
    rw [Token.first, if_neg hquote, if_neg hset, if_neg hrepeat, if_neg hrange]
  rw [resume_of_ok hfirst, Nat.sub_self]
  rfl

theorem single?_cases (c : CodePoint) :
    (∃ b, opener? c = some b ∧ Token.single? c = some (.opening b)) ∨
    (opener? c = none ∧ ∃ a, leaf? c = some a ∧ Token.single? c = some (.atom a)) ∨
    (opener? c = none ∧ leaf? c = none ∧
      ((∃ b, c = Bracket.closer b ∧ Token.single? c = some (.closing b)) ∨
        Token.single? c = none ∧ ∀ b, c ≠ Bracket.closer b)) := by
  rw [Token.single?]
  by_cases hdot : c = '.'
  · exact .inr (.inl ⟨by subst hdot; rfl, .any, by subst hdot; rfl, if_pos hdot⟩)
  rw [if_neg hdot]
  by_cases hlower : c = 'a'
  · exact .inr (.inl ⟨by subst hlower; rfl, .alpha false, by subst hlower; rfl, if_pos hlower⟩)
  rw [if_neg hlower]
  by_cases hupper : c = 'A'
  · exact .inr (.inl ⟨by subst hupper; rfl, .alpha true, by subst hupper; rfl, if_pos hupper⟩)
  rw [if_neg hupper]
  by_cases hnumeric : c = '#'
  · exact .inr (.inl ⟨by subst hnumeric; rfl, .numeric, by subst hnumeric; rfl, if_pos hnumeric⟩)
  rw [if_neg hnumeric]
  by_cases hsymbol : c = '@'
  · exact .inr (.inl ⟨by subst hsymbol; rfl, .symbol, by subst hsymbol; rfl, if_pos hsymbol⟩)
  rw [if_neg hsymbol]
  by_cases hbasic : c = '$'
  · exact .inr (.inl ⟨by subst hbasic; rfl, .basicSymbol, by subst hbasic; rfl, if_pos hbasic⟩)
  rw [if_neg hbasic]
  have hleaf : leaf? c = none := by
    rw [leaf?, if_neg hdot, if_neg hlower, if_neg hupper, if_neg hnumeric, if_neg hsymbol,
      if_neg hbasic]
  by_cases hparen : c = '('
  · exact .inl ⟨.sequence, by subst hparen; rfl, if_pos hparen⟩
  rw [if_neg hparen]
  by_cases hbrace : c = '\x7b'
  · exact .inl ⟨.choice, by subst hbrace; rfl, if_pos hbrace⟩
  rw [if_neg hbrace]
  refine .inr (.inr ⟨by rw [opener?, if_neg hparen, if_neg hbrace], hleaf, ?_⟩)
  by_cases hsequence : c = ')'
  · exact .inl ⟨.sequence, hsequence, if_pos hsequence⟩
  rw [if_neg hsequence]
  by_cases hchoice : c = '\x7d'
  · exact .inl ⟨.choice, hchoice, if_pos hchoice⟩
  rw [if_neg hchoice]
  refine .inr ⟨rfl, fun b => ?_⟩
  cases b with
  | sequence => exact hsequence
  | choice => exact hchoice

/-! ### Frames and calls -/

/-- The bracket that a frame waits for. -/
def closerOf (top : Frame) : Option Bracket :=
  match top.kind with
  | .bracket bracket => some bracket
  | _ => none

/-- The frames of a reading, each with a call that waits. -/
abbrev Calls : Frame → List Frame → Prop := Stacked fun _ => Frame.RepeatedWithin

/-- Whether a repetition was applied to the latest child. -/
def repeatedLatest (top : Frame) : Bool :=
  !top.latest.isEmpty && top.lastRepeated = some (top.latest.length - 1)

theorem Calls.push {top : Frame} {below : List Frame} (h : Calls top below) (node : Node) :
    Calls (top.push node) below := by
  refine h.congr rfl fun k hk => ?_
  exact Nat.lt_succ_of_lt (h.holds k hk)

theorem repeatedLatest_push {top : Frame} (h : top.RepeatedWithin) (node : Node) :
    repeatedLatest (top.push node) = false := by
  have hne : top.lastRepeated ≠ some top.latest.length :=
    fun heq => Nat.lt_irrefl _ (h _ heq)
  rw [repeatedLatest, Frame.push, List.length_cons, Nat.add_sub_cancel, decide_eq_false hne]
  rfl

/-- What the frames below do with the items of the top frame. -/
def handOver (settings : Settings) (input : Text) (p : Progress) {bound : Nat}
    (taken : Taken input (List Node) bound) : Except ReadError Node :=
  match p.below with
  | [] => .ok (.group (.once (settings.at input 0)) .root taken.value)
  | parent :: below =>
    if p.top.kind = .bracket .choice ∧ taken.value = [] then
      fault .emptyChoice (taken.place.index - 1)
    else
      let node := p.top.kind.close (settings.at input p.top.start) taken.value
      resume settings input ⟨parent.push node, below, p.noted⟩ taken.place.index taken.place.rest

/-- The call of `items` that the top frame stands for, and what follows when it returns. -/
def callFrom (settings : Settings) (p : Progress) (place : Place input) (bound : Nat)
    (h : place.rest.length < bound) : Except ReadError Node :=
  (items settings (closerOf p.top) p.below.length bound p.top.latest (repeatedLatest p.top) place h).bind
    (handOver settings input p)

theorem callFrom_push {p : Progress} (hstacked : Calls p.top p.below) (node : Node)
    (place : Place input) (bound : Nat) (h : place.rest.length < bound) :
    callFrom settings (p.push node) place bound h =
      (items settings (closerOf p.top) p.below.length bound (node :: p.top.latest) false place h).bind
        (handOver settings input p) := by
  rw [callFrom, Progress.push, repeatedLatest_push hstacked.holds]
  rfl

/-- On what is left of a text, if it is shorter than `n`, reading on is a call for the top frame. -/
def AgreeBelow (settings : Settings) (input : Text) (n : Nat) : Prop :=
  ∀ (p : Progress) (place : Place input) (bound : Nat) (h : place.rest.length < bound),
    place.rest.length < n → Calls p.top p.below →
    resume settings input p place.index place.rest = callFrom settings p place bound h

theorem AgreeBelow.push {n : Nat} (ih : AgreeBelow settings input n) {p : Progress}
    (hstacked : Calls p.top p.below) (node : Node) (place : Place input) {bound : Nat}
    (h : place.rest.length < bound) (hn : place.rest.length < n) :
    resume settings input (p.push node) place.index place.rest =
      (items settings (closerOf p.top) p.below.length bound (node :: p.top.latest) false place
        h).bind (handOver settings input p) := by
  rw [ih (p.push node) place bound h hn (hstacked.push node)]
  exact callFrom_push hstacked node place bound h

theorem closer_ne {c : CodePoint} (h : ∀ b, c ≠ Bracket.closer b) (top : Frame) :
    (closerOf top).map Bracket.closer ≠ some c := by
  cases closerOf top with
  | none => exact Option.some_ne_none c ∘ Eq.symm
  | some b => exact fun heq => h b (Option.some.inj heq).symm

variable {n bound index : Nat} {rest : Text} {p : Progress}

theorem AgreeBelow.literal (ih : AgreeBelow settings input n) (hstacked : Calls p.top p.below)
    (hindex : index + (CodePoint.ofChar '"' :: rest).length = input.length)
    (hbound : (CodePoint.ofChar '"' :: rest).length < bound) (hn : rest.length < n) :
    resume settings input p index ('"' :: rest) =
      callFrom settings p ⟨index, '"' :: rest, hindex⟩ bound hbound := by
  have hown := closer_ne (c := '"') (by rintro (_ | _) <;> decide) p.top
  have hfirst : Token.first index '"' rest =
    Token.enclosed index '"' (fun text => return .atom (.literal text)) rest := rfl
  rw [resume_enclosed hfirst (by rw [← hindex, List.length_cons]; omega), callFrom, items,
    if_neg hown, if_pos rfl]
  simp only [bind, Except.bind]
  cases scanTo ['"'] (⟨index + 1, rest, _⟩ : Place input) with
  | error error => rfl
  | ok taken =>
    exact ih.push hstacked _ taken.place _ (Nat.lt_trans taken.rest_lt hn)

theorem AgreeBelow.sampleSet (ih : AgreeBelow settings input n) (hstacked : Calls p.top p.below)
    (hindex : index + (CodePoint.ofChar '[' :: rest).length = input.length)
    (hbound : (CodePoint.ofChar '[' :: rest).length < bound) (hn : rest.length < n) :
    resume settings input p index ('[' :: rest) =
      callFrom settings p ⟨index, '[' :: rest, hindex⟩ bound hbound := by
  have hown := closer_ne (c := '[') (by rintro (_ | _) <;> decide) p.top
  have hfirst : Token.first index '[' rest =
    Token.enclosed index ']' (Token.sampleSetOf index) rest := rfl
  rw [resume_enclosed hfirst (by rw [← hindex, List.length_cons]; omega), callFrom, items,
    if_neg hown, if_neg (by decide), if_pos rfl]
  simp only [bind, Except.bind]
  cases scanTo [']'] (⟨index + 1, rest, _⟩ : Place input) with
  | error error => rfl
  | ok taken =>
    simp only [Token.sampleSetOf]
    by_cases hchars : taken.value.1 = []
    · rw [dif_pos hchars, dif_pos hchars]
      rfl
    · rw [dif_neg hchars, dif_neg hchars]
      exact ih.push hstacked _ taken.place _ (Nat.lt_trans taken.rest_lt hn)

theorem AgreeBelow.range (ih : AgreeBelow settings input n) (hstacked : Calls p.top p.below)
    (hindex : index + (CodePoint.ofChar ':' :: rest).length = input.length)
    (hbound : (CodePoint.ofChar ':' :: rest).length < bound) (hn : rest.length < n) :
    resume settings input p index (':' :: rest) =
      callFrom settings p ⟨index, ':' :: rest, hindex⟩ bound hbound := by
  have hown := closer_ne (c := ':') (by rintro (_ | _) <;> decide) p.top
  rw [resume_range (by rw [← hindex, List.length_cons]; omega), callFrom, items, if_neg hown,
    if_neg (by decide), if_neg (by decide), if_neg (by decide), if_pos rfl]
  simp only [bind, Except.bind]
  cases segments settings (⟨index + 1, rest, _⟩ : Place input) with
  | error error => rfl
  | ok taken =>
    exact ih.push hstacked _ taken.place _ (Nat.lt_trans taken.rest_lt hn)

theorem AgreeBelow.repeated (ih : AgreeBelow settings input n) (hstacked : Calls p.top p.below)
    (count : Nat) (hcount : 1 ≤ count) (place : Place input) (h : place.rest.length < bound)
    (hn : place.rest.length < n) (stop : Nat) :
    (do
      let q ← p.stepped settings input ⟨index, .repetition count hcount, stop⟩
      resume settings input q place.index place.rest) =
    (do
      let done ← repeatLatest count hcount index (repeatedLatest p.top) p.top.latest
      items settings (closerOf p.top) p.below.length bound done true place h).bind
    (handOver settings input p) := by
  obtain ⟨⟨kind, start, latest, lastRepeated⟩, below, noted⟩ := p
  cases latest with
  | nil => rfl
  | cons node earlier =>
    simp only [Progress.stepped, Progress.step, Progress.applyRepetition, repeatLatest,
      repeatedLatest, List.isEmpty_cons, Bool.not_false, Bool.true_and, List.length_cons,
      Nat.add_sub_cancel, decide_eq_true_eq]
    by_cases htwice : lastRepeated = some earlier.length
    · rw [if_pos htwice, if_pos htwice]
      rfl
    · rw [if_neg htwice, if_neg htwice]
      let top : Frame :=
        ⟨kind, start, node.withRepeatCount count hcount :: earlier, some earlier.length⟩
      have hwithin : top.RepeatedWithin := by
        rintro k hk
        obtain rfl := Option.some.inj hk
        exact Nat.lt_succ_self _
      have hlatest : repeatedLatest top = true := by
        rw [repeatedLatest, List.length_cons, Nat.add_sub_cancel]
        exact decide_eq_true rfl
      have hagree := ih ⟨top, below, noted⟩ place bound h hn (hstacked.congr rfl hwithin)
      rw [callFrom, hlatest] at hagree
      exact hagree

theorem AgreeBelow.repetition (ih : AgreeBelow settings input n)
    (hstacked : Calls p.top p.below)
    (hindex : index + (CodePoint.ofChar '<' :: rest).length = input.length)
    (hbound : (CodePoint.ofChar '<' :: rest).length < bound) (hn : rest.length < n) :
    resume settings input p index ('<' :: rest) =
      callFrom settings p ⟨index, '<' :: rest, hindex⟩ bound hbound := by
  have hown := closer_ne (c := '<') (by rintro (_ | _) <;> decide) p.top
  have hfirst : Token.first index '<' rest =
    Token.enclosed index '>' (Token.repetitionOf index) rest := rfl
  rw [resume_enclosed hfirst (by rw [← hindex, List.length_cons]; omega), callFrom, items,
    if_neg hown, if_neg (by decide), if_neg (by decide), if_pos rfl]
  simp only [bind, Except.bind]
  cases scanTo ['>'] (⟨index + 1, rest, _⟩ : Place input) with
  | error error => rfl
  | ok taken =>
    simp only [Token.repetitionOf]
    by_cases hdecimal : Numeral.isDecimal taken.value.1 = true
    · rw [if_pos hdecimal, if_pos hdecimal]
      cases (Numeral.read taken.value.1).mapError ReadError.numeral with
      | error error => rfl
      | ok count =>
        simp only [bind, Except.bind]
        by_cases hcount : count < 1
        · rw [dif_pos hcount, dif_pos hcount]
          rfl
        · rw [dif_neg hcount, dif_neg hcount]
          exact ih.repeated hstacked count _ taken.place _ (Nat.lt_trans taken.rest_lt hn) _
    · rw [if_neg hdecimal, if_neg hdecimal]
      rfl

theorem stepped_own {b : Bracket} (hstacked : Calls p.top p.below)
    (hown : closerOf p.top = some b) (rest : Text) (place : Place input)
    (hplace : place.index = index + 1) (hrest : place.rest = rest) (h : rest.length < bound) :
    (do
      let q ← p.stepped settings input ⟨index, .closing b, index + 1⟩
      resume settings input q (index + 1) rest) =
    handOver settings input p
      (⟨p.top.latest.reverse, place, by rw [hrest]; exact h⟩ : Taken input (List Node) bound) := by
  obtain ⟨top, below, noted⟩ := p
  cases hstacked with
  | root hkind _ =>
    rw [closerOf, hkind] at hown
    cases hown
  | @bracket b' _ parent below hkind =>
    rw [closerOf, hkind] at hown
    obtain rfl := Option.some.inj hown
    have hkind : top.kind = .bracket b' := hkind
    have hcondition : (top.kind = .bracket .choice ∧ top.latest.reverse = []) ↔
        (b' = .choice ∧ top.latest = []) := by
      rw [hkind, List.reverse_eq_nil_iff, FrameKind.bracket.injEq]
    simp only [Progress.stepped, Progress.step, Progress.closeBracket, handOver, hplace, hrest,
      hcondition]
    rw [if_pos hkind]
    by_cases hempty : b' = .choice ∧ top.latest = []
    · rw [if_pos hempty, if_pos hempty]
      rfl
    · rw [if_neg hempty, if_neg hempty]
      refine resume_congr ?_ _ _
      exact ⟨rfl, rfl⟩

theorem AgreeBelow.opening (ih : AgreeBelow settings input n) (hstacked : Calls p.top p.below)
    (b : Bracket) (place : Place input) (h : place.rest.length < bound)
    (hn : place.rest.length < n) :
    (do
      let q ← p.stepped settings input ⟨index, .opening b, index + 1⟩
      resume settings input q place.index place.rest) =
    (if settings.maxDepth ≤ p.below.length then fault .nestedTooDeeply index
      else do
        let inner ← items settings (some b) (p.below.length + 1) (place.rest.length + 1) [] false place
          (Nat.lt_succ_self _)
        if b = .choice ∧ inner.value = [] then fault .emptyChoice (inner.place.index - 1)
        else
          let node : Node := .group (.once (settings.at input index)) b.groupKind inner.value
          items settings (closerOf p.top) p.below.length bound (node :: p.top.latest) false inner.place
            (Nat.lt_of_le_of_lt (Nat.le_of_lt_succ inner.rest_lt) h)).bind
      (handOver settings input p) := by
  simp only [Progress.stepped, Progress.step, Progress.openBracket]
  rw [hstacked.depth_eq p.noted]
  by_cases hdepth : settings.maxDepth ≤ p.below.length
  · rw [if_pos hdepth, if_pos hdepth]
    rfl
  rw [if_neg hdepth, if_neg hdepth]
  let q := p.enter (.bracket b) index
  have hentered : Calls q.top q.below :=
    .bracket rfl (fun _ hk => by cases hk) hstacked
  have halike : (q.note (.opened (.bracket b) index)).Alike q := ⟨rfl, rfl⟩
  have hcall : resume settings input q place.index place.rest =
      (items settings (some b) (p.below.length + 1) (place.rest.length + 1) [] false place
        (Nat.lt_succ_self _)).bind (handOver settings input q) := by
    rw [ih q place _ (Nat.lt_succ_self _) hn hentered, callFrom]
    rfl
  show resume settings input (q.note (.opened (.bracket b) index)) place.index place.rest = _
  rw [resume_congr halike, hcall]
  simp only [bind]
  cases items settings (some b) (p.below.length + 1) (place.rest.length + 1) [] false place
    (Nat.lt_succ_self _) with
  | error error => rfl
  | ok inner =>
    have hkind : q.top.kind = .bracket b := rfl
    have hbelow : q.below = p.top :: p.below := rfl
    have hcondition : (q.top.kind = .bracket .choice ∧ inner.value = []) ↔
        (b = .choice ∧ inner.value = []) := by
      rw [hkind, FrameKind.bracket.injEq]
    have hle : inner.place.rest.length ≤ place.rest.length := Nat.le_of_lt_succ inner.rest_lt
    simp only [Except.bind]
    rw [handOver, hbelow]
    simp only [hcondition]
    by_cases hempty : b = .choice ∧ inner.value = []
    · rw [if_pos hempty, if_pos hempty]
      rfl
    · rw [if_neg hempty, if_neg hempty]
      have hclose : q.top.kind.close (settings.at input q.top.start) inner.value =
          .group (.once (settings.at input index)) b.groupKind inner.value :=
        close_bracket b _ _
      rw [hclose]
      exact ih.push hstacked _ inner.place _ (Nat.lt_of_le_of_lt hle hn)

theorem AgreeBelow.ignored (ih : AgreeBelow settings input n) (hstacked : Calls p.top p.below)
    (c : CodePoint) (place : Place input) (h : place.rest.length < bound)
    (hn : place.rest.length < n) :
    (do
      let q ← (p.ignore settings c index).mapError Halt.error
      resume settings input q place.index place.rest) =
    (if settings.strict && !c.isBlank then fault (.unexpected c) index
      else items settings (closerOf p.top) p.below.length bound p.top.latest (repeatedLatest p.top) place
        h).bind (handOver settings input p) := by
  rw [Progress.ignore]
  by_cases hstrict : (settings.strict && !c.isBlank) = true
  · rw [if_pos hstrict, if_pos hstrict]
    rfl
  · rw [if_neg hstrict, if_neg hstrict]
    have halike : (p.note (.ignored c index)).Alike p := ⟨rfl, rfl⟩
    exact (resume_congr halike _ _).trans (ih p place bound h hn hstacked)

theorem AgreeBelow.single (ih : AgreeBelow settings input n) (hstacked : Calls p.top p.below)
    {c : CodePoint} (hquote : c ≠ '"') (hset : c ≠ '[') (hrepeat : c ≠ '<') (hrange : c ≠ ':')
    (hindex : index + (c :: rest).length = input.length) (hbound : (c :: rest).length < bound)
    (hn : rest.length < n) :
    resume settings input p index (c :: rest) =
      callFrom settings p ⟨index, c :: rest, hindex⟩ bound hbound := by
  have hnext : index + 1 + rest.length = input.length := by
    rw [← hindex, List.length_cons]
    omega
  let place : Place input := ⟨index + 1, rest, hnext⟩
  have hrest : rest.length < bound := Nat.lt_of_succ_lt hbound
  rw [resume_single hquote hset hrepeat hrange, callFrom, items]
  by_cases hown : (closerOf p.top).map Bracket.closer = some c
  · rw [if_pos hown]
    obtain ⟨b, hb, rfl⟩ := Option.map_eq_some_iff.mp hown
    have hsingle : Token.single? b.closer = some (.closing b) := by cases b <;> rfl
    rw [hsingle]
    exact stepped_own hstacked hb rest place rfl rfl hrest
  · rw [if_neg hown, if_neg hquote, if_neg hset, if_neg hrepeat, if_neg hrange]
    obtain ⟨b, hopener, hsingle⟩ | ⟨hopener, a, hleaf, hsingle⟩ | ⟨hopener, hleaf, hother⟩ :=
      single?_cases c
    · simp only [hopener, hsingle]
      exact ih.opening hstacked b place hrest hn
    · simp only [hopener, hleaf, hsingle]
      exact ih.push hstacked _ place hrest hn
    · simp only [hopener, hleaf]
      obtain ⟨b, rfl, hsingle⟩ | ⟨hsingle, -⟩ := hother
      · have hne : p.top.kind ≠ .bracket b := fun h => hown (by rw [closerOf, h]; rfl)
        simp only [hsingle, Option.getD_some, Progress.stepped, Progress.step,
          hstacked.closeBracket_of_ne hne]
        exact ih.ignored hstacked b.closer place hrest hn
      · simp only [hsingle]
        exact ih.ignored hstacked c place hrest hn

theorem resume_end (hstacked : Calls p.top p.below) (hindex : index + 0 = input.length)
    (hbound : 0 < bound) :
    resume settings input p index [] = callFrom settings p ⟨index, [], hindex⟩ bound hbound := by
  obtain ⟨top, below, noted⟩ := p
  rw [resume_nil, callFrom, Progress.finish]
  cases hstacked with
  | root hkind _ =>
    have hkind : top.kind = .root := hkind
    have hcloser : closerOf top = none := by rw [closerOf, hkind]
    have hcloser? : top.kind.closer? = none := by rw [hkind]; rfl
    have hclose : top.kind.close (settings.at input 0) top.children =
        .group (.once (settings.at input 0)) .root top.latest.reverse := by
      rw [hkind]
      rfl
    simp only [hcloser, hcloser?]
    rw [hclose, items]
    rfl
  | @bracket b _ parent below hkind =>
    have hkind : top.kind = .bracket b := hkind
    have hcloser : closerOf top = some b := by rw [closerOf, hkind]
    have hcloser? : top.kind.closer? = some b.closer := by rw [hkind]; rfl
    simp only [hcloser, hcloser?]
    rw [items]
    rfl

/-- Reading on is a call for the top frame, which hands over to the frame below when it returns. -/
theorem agreeBelow (settings : Settings) (input : Text) (n : Nat) : AgreeBelow settings input n := by
  -- Every call that a token leads to is for a shorter rest, whichever frame it is for.
  induction n with
  | zero => exact fun p place bound h hn => absurd hn (Nat.not_lt_zero _)
  | succ n ih =>
    rintro p ⟨index, text, hindex⟩ bound h hn hstacked
    cases text with
    | nil => exact resume_end hstacked hindex h
    | cons c rest =>
      have hrest : rest.length < n := Nat.lt_of_succ_lt_succ hn
      by_cases hquote : c = '"'
      · subst hquote
        exact ih.literal hstacked hindex h hrest
      by_cases hset : c = '['
      · subst hset
        exact ih.sampleSet hstacked hindex h hrest
      by_cases hrepeat : c = '<'
      · subst hrepeat
        exact ih.repetition hstacked hindex h hrest
      by_cases hrange : c = ':'
      · subst hrange
        exact ih.range hstacked hindex h hrest
      exact ih.single hstacked hquote hset hrepeat hrange hindex h hrest

end Descent

/-- The reader with a stack and recursive descent agree on every text, in the trees with all their
positions and in the errors. -/
theorem read_eq_descent (settings : Settings) (input : Text) :
    read settings input = Descent.read settings input := by
  have hstart : Descent.Calls Progress.start.top Progress.start.below :=
    .root rfl (fun _ hk => by cases hk)
  rw [read_eq_resume]
  exact Descent.agreeBelow settings input (input.length + 1) .start ⟨0, input, Nat.zero_add _⟩
    (input.length + 1) (Nat.lt_succ_self _) (Nat.lt_succ_self _) hstart

end RandomText.Pattern
