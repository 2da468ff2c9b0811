import RandomText.Proofs.Except
import RandomText.Proofs.Expr.Lexing

/-!
# Reading expressions

The reader of expressions against `Renders`. It keeps what it read on a stack of levels: `Consumed`
says which lexemes a progress stands for, and every step keeps it, so a tree that is returned has
the lexemes that were read (`hasLexemes_of_run`). In the other direction the lexemes of an expression
add the expression to the innermost level (`HasLexemes.steps?`). The frames that this takes are those of
the expression, and reading fails for the lack of them alone (`read_eq_nestedTooDeeply_iff`).

The main statement, `read_eq_ok_iff_renders`: reading accepts the renderings of trees, at most one
for each text, with every node at the index of its first code point, and refuses all other texts at
some place, unless the stack has no room for the brackets or an integer is too long.
-/

namespace RandomText.Expr

/-! ### Neighbours -/

theorem apart_append {front back : List Lexeme} {j : Nat} {token : Token}
    (hfront : Apart front) (hback : Apart back) (htoken : token.isWord = false) :
    Apart (front ++ ⟨j, token⟩ :: back) := by
  refine List.IsChain.append hfront (List.IsChain.cons hback fun _ _ => .inl htoken) ?_
  intro a _ b hb
  obtain rfl := Option.some.inj hb
  exact .inr htoken

mutual

theorem HasLexemes.apart {e : Expr} {ls : List Lexeme} : HasLexemes e ls → Apart ls
  | .string => .singleton _
  | .integer => .singleton _
  | .list hitems => apart_append .nil (apart_append hitems.apart .nil rfl) rfl
  | .call hargs =>
    apart_append (.singleton _) (apart_append hargs.apart .nil rfl) rfl

theorem ItemsHaveLexemes.apart {es : List Expr} {ls : List Lexeme} :
    ItemsHaveLexemes es ls → Apart ls
  | .nil => .nil
  | .one h => h.apart
  | .more _ hfirst hothers => apart_append hfirst.apart hothers.apart rfl

end

/-! ### Nesting -/

/-- How many brackets are open after a token. -/
def Token.openAfter (k : Nat) : Token → Nat
  | opening _ => k + 1
  | closing _ => k - 1
  | _ => k

/-- The most brackets that are open at once in a list of lexemes, of which `k` were open before. -/
def deepest (k : Nat) : List Lexeme → Nat
  | [] => k
  | lexeme :: rest => max k (deepest (lexeme.token.openAfter k) rest)

theorem le_deepest (k : Nat) (ls : List Lexeme) : k ≤ deepest k ls := by
  cases ls with
  | nil => exact Nat.le_refl k
  | cons lexeme rest => exact Nat.le_max_left _ _

mutual

theorem HasLexemes.deepest_eq {e : Expr} {ls : List Lexeme} : HasLexemes e ls →
    ∀ (k : Nat) (rest : List Lexeme), deepest k (ls ++ rest) = max (k + e.depth) (deepest k rest)
  | .string, _, _ => rfl
  | .integer, _, _ => rfl
  | .list (j := j) hitems, k, rest => by
    have hitems := hitems.deepest_eq (k + 1) (⟨j, .closing .square⟩ :: rest)
    have hle := le_deepest k rest
    simp only [List.cons_append, List.append_assoc, List.nil_append, deepest, Token.openAfter,
      Nat.add_sub_cancel, depth] at hitems ⊢
    omega
  | .call (k := l) hargs, k, rest => by
    have hargs := hargs.deepest_eq (k + 1) (⟨l, .closing .round⟩ :: rest)
    have hle := le_deepest k rest
    simp only [List.cons_append, List.append_assoc, List.nil_append, deepest, Token.openAfter,
      Nat.add_sub_cancel, depth] at hargs ⊢
    omega

theorem ItemsHaveLexemes.deepest_eq {es : List Expr} {ls : List Lexeme} : ItemsHaveLexemes es ls →
    ∀ (k : Nat) (rest : List Lexeme),
      deepest k (ls ++ rest) = max (k + depthAll es) (deepest k rest)
  | .nil, k, rest => by
    have hle := le_deepest k rest
    simp only [List.nil_append, depthAll]
    omega
  | .one h, k, rest => by
    rw [h.deepest_eq, depthAll, depthAll, Nat.max_zero]
  | @ItemsHaveLexemes.more j _ _ others _ _ hfirst hothers, k, rest => by
    have hfirst := hfirst.deepest_eq k (⟨j, .comma⟩ :: (others ++ rest))
    have hothers := hothers.deepest_eq k rest
    simp only [List.cons_append, List.append_assoc, deepest, Token.openAfter, depthAll]
      at hfirst hothers ⊢
    omega

end

namespace Progress

/-! ### Steps -/

/-- An expression may come next. -/
def Awaits (p : Progress) : Prop := p.phase = .start ∨ p.phase = .opened

/-- The progress after more tokens, if they may all follow. -/
def steps? (p : Progress) : List Lexeme → Option Progress
  | [] => some p
  | lexeme :: rest => (p.step? lexeme).bind fun next => steps? next rest

/-- The most frames in use behind one of the tokens, up to the first that cannot follow. -/
def demand (p : Progress) : List Lexeme → Nat
  | [] => 0
  | lexeme :: rest =>
    match p.step? lexeme with
    | none => 0
    | some next => max next.used (demand next rest)

section steps

variable {p q : Progress} {lexeme : Lexeme}

theorem used_add (e : Expr) (p : Progress) : (p.add e).used = 0 := by
  obtain ⟨levels, phase, whole⟩ := p
  cases levels <;> rfl

theorem step?_of_begin? (h : p.Awaits) (hbegin : p.begin? lexeme = some q) :
    p.step? lexeme = some q := by
  rcases h with h | h <;> simp [step?, h, hbegin]

theorem step?_closing {level : Level} {b : Bracket} (hb : level.bracket = b) (j : Nat)
    (below : List Level) {phase : Phase} (hphase : phase = .opened ∨ phase = .item)
    (whole : Option Expr) :
    step? ⟨j, .closing b⟩ ⟨level :: below, phase, whole⟩ =
      some (add level.close ⟨below, .item, whole⟩) := by
  subst hb
  rcases hphase with rfl | rfl <;> simp [step?, begin?, close?]

theorem steps?_cons (h : p.step? lexeme = some q) (rest : List Lexeme) :
    p.steps? (lexeme :: rest) = q.steps? rest := by
  rw [steps?, h, Option.bind_some]

theorem demand_cons (h : p.step? lexeme = some q) (rest : List Lexeme) :
    p.demand (lexeme :: rest) = max q.used (q.demand rest) := by
  simp only [demand, h]

theorem steps?_append {front : List Lexeme} (h : p.steps? front = some q) (back : List Lexeme) :
    p.steps? (front ++ back) = q.steps? back := by
  induction front generalizing p with
  | nil =>
    obtain rfl := Option.some.inj h
    rfl
  | cons lexeme front ih =>
    obtain ⟨next, hstep, hrest⟩ := Option.bind_eq_some_iff.mp h
    rw [List.cons_append, steps?_cons hstep, ih hrest]

theorem demand_append {front : List Lexeme} (h : p.steps? front = some q) (back : List Lexeme) :
    p.demand (front ++ back) = max (p.demand front) (q.demand back) := by
  induction front generalizing p with
  | nil =>
    obtain rfl := Option.some.inj h
    exact (Nat.zero_max _).symm
  | cons lexeme front ih =>
    obtain ⟨next, hstep, hrest⟩ := Option.bind_eq_some_iff.mp h
    rw [List.cons_append, demand_cons hstep, demand_cons hstep, ih hrest, Nat.max_assoc]

variable [CallStack]

theorem run_cons (h : p.step? lexeme = some q) (stop : Nat) (complete : Bool)
    (rest : List Lexeme) : p.run stop complete (lexeme :: rest) =
      if CallStack.room < q.used then .error .nestedTooDeeply else q.run stop complete rest := by
  simp only [Progress.run, h]

theorem run_append {front : List Lexeme} (h : p.steps? front = some q) (stop : Nat)
    (complete : Bool) (back : List Lexeme) : p.run stop complete (front ++ back) =
      if CallStack.room < p.demand front then .error .nestedTooDeeply
      else q.run stop complete back := by
  induction front generalizing p with
  | nil =>
    obtain rfl := Option.some.inj h
    rfl
  | cons lexeme front ih =>
    obtain ⟨next, hstep, hrest⟩ := Option.bind_eq_some_iff.mp h
    rw [List.cons_append, run_cons hstep, ih hrest, demand_cons hstep]
    by_cases hroom : CallStack.room < next.used
    · rw [if_pos hroom, if_pos (lt_of_lt_of_le hroom (Nat.le_max_left _ _))]
    · rw [if_neg hroom]
      exact if_congr (by omega) rfl rfl

end steps

end Progress

open Progress

/-! ### A run over the lexemes of an expression -/

/-- The level with more expressions in it. -/
def Level.extend (level : Level) (es : List Expr) : Level :=
  { level with latest := es.reverse ++ level.latest }

/-- The frames that more expressions in a level take. -/
def Level.framesOf (level : Level) (es : List Expr) : Nat :=
  if level.latest.isEmpty then framesFirst es else framesRest es

theorem Level.framesOf_cons (level : Level) (below : List Level) (e : Expr) (es : List Expr) :
    Progress.frames below + 8 + level.framesOf (e :: es) =
      max (Progress.frames (level :: below) + e.frames)
        (Progress.frames below + 8 + framesRest es) := by
  rw [framesOf, Progress.frames]
  split
  · rw [framesFirst]
    omega
  · rw [framesRest]
    omega

theorem add_phase (e : Expr) (p : Progress) (phase : Phase) :
    add e ⟨p.levels, phase, p.whole⟩ = p.add e := by
  obtain ⟨levels, _, whole⟩ := p
  cases levels <;> rfl

theorem steps?_leaf {p : Progress} (hp : p.Awaits) {lexeme : Lexeme} {e : Expr}
    (hbegin : p.begin? lexeme = some (p.add e)) (he : e.frames = 0) :
    p.steps? [lexeme] = some (p.add e) ∧
      max (Progress.frames p.levels) (p.demand [lexeme]) = Progress.frames p.levels + e.frames := by
  have hstep := step?_of_begin? hp hbegin
  rw [steps?_cons hstep, demand_cons hstep, used_add, he]
  exact ⟨rfl, by simp [demand]⟩

mutual

/-- The lexemes of an expression may follow where one comes next. They add the expression, and on top of the
frames in use there they take those of the expression. -/
theorem HasLexemes.steps? {e : Expr} {ls : List Lexeme} : HasLexemes e ls →
    ∀ {p : Progress}, p.Awaits → p.steps? ls = some (p.add e) ∧
      max (Progress.frames p.levels) (p.demand ls) = Progress.frames p.levels + e.frames
  | .string, _, hp => steps?_leaf hp rfl rfl
  | .integer, _, hp => steps?_leaf hp rfl rfl
  | @HasLexemes.list i j items inner hitems, p, hp => by
    have hstep : p.step? ⟨i, .opening .square⟩ = some (p.enter i none) := step?_of_begin? hp rfl
    have hlevel : Level.bracket ⟨i, none, []⟩ = .square := rfl
    have hawaits : Awaits (p.enter i none) := .inr rfl
    obtain ⟨hsteps, hdemand⟩ := hitems.steps? j hlevel (fun _ => ⟨rfl, rfl⟩) hawaits
    have hused : (p.enter i none).used = Progress.frames p.levels + 8 := rfl
    rw [steps?_cons hstep, demand_cons hstep, hused]
    refine ⟨?_, ?_⟩
    · rw [enter, hsteps, add_phase, Level.extend, List.append_nil, Level.close, List.reverse_reverse]
    · have hframes : (Expr.list i items).frames = 8 + framesFirst items := rfl
      simp only [Progress.frames, Level.framesOf, List.isEmpty_nil, if_true] at hdemand
      rw [enter, hframes]
      omega
  | @HasLexemes.call i j k name args inner hargs, p, hp => by
    have hname : p.step? ⟨i, .name name⟩ = some { p with phase := .named i name } :=
      step?_of_begin? hp rfl
    have hstep : step? ⟨j, .opening .round⟩ { p with phase := .named i name } =
        some (p.enter i (some name)) := by
      simp only [step?, if_true]
      rfl
    have hlevel : Level.bracket ⟨i, some name, []⟩ = .round := rfl
    have hawaits : Awaits (p.enter i (some name)) := .inr rfl
    obtain ⟨hsteps, hdemand⟩ := hargs.steps? k hlevel (fun _ => ⟨rfl, rfl⟩) hawaits
    have hunused : ({ p with phase := .named i name } : Progress).used = 0 := rfl
    have hused : (p.enter i (some name)).used = Progress.frames p.levels + 8 := rfl
    rw [steps?_cons hname, demand_cons hname, hunused, steps?_cons hstep, demand_cons hstep, hused]
    refine ⟨?_, ?_⟩
    · rw [enter, hsteps, add_phase, Level.extend, List.append_nil, Level.close, List.reverse_reverse]
    · have hframes : (Expr.call i name args).frames = 8 + framesFirst args := rfl
      simp only [Progress.frames, Level.framesOf, List.isEmpty_nil, if_true] at hdemand
      rw [enter, hframes]
      omega

/-- The lexemes of expressions in a bracket may follow in its level, and what closes it behind them. -/
theorem ItemsHaveLexemes.steps? {es : List Expr} {ls : List Lexeme} : ItemsHaveLexemes es ls →
    ∀ (j : Nat) {level : Level} {below : List Level} {phase : Phase} {whole : Option Expr}
      {b : Bracket}, level.bracket = b → (es = [] → phase = .opened ∧ level.latest = []) →
      Awaits ⟨level :: below, phase, whole⟩ →
      Progress.steps? ⟨level :: below, phase, whole⟩ (ls ++ [⟨j, .closing b⟩]) =
        some (add (level.extend es).close ⟨below, .item, whole⟩) ∧
      max (Progress.frames (level :: below))
          (Progress.demand ⟨level :: below, phase, whole⟩ (ls ++ [⟨j, .closing b⟩])) =
        Progress.frames below + 8 + level.framesOf es
  | .nil, j, level, below, phase, whole, b, hb, hnone, _ => by
    obtain ⟨hphase, hlatest⟩ := hnone rfl
    have hstep := step?_closing hb j below (.inl hphase) whole
    rw [List.nil_append, steps?_cons hstep, demand_cons hstep, used_add]
    refine ⟨rfl, ?_⟩
    simp [demand, Progress.frames, Level.framesOf, hlatest, framesFirst]
  | @ItemsHaveLexemes.one e ls h, j, level, below, phase, whole, b, hb, _, hp => by
    obtain ⟨hsteps, hdemand⟩ := h.steps? hp
    have hlevel : (level.extend [e]).bracket = b := hb
    have hstep := step?_closing hlevel j below (.inr rfl) whole
    have hadd : add e ⟨level :: below, phase, whole⟩ = ⟨level.extend [e] :: below, .item, whole⟩ := rfl
    rw [hadd] at hsteps
    rw [steps?_append hsteps, steps?_cons hstep, demand_append hsteps, demand_cons hstep, used_add,
      Level.framesOf_cons]
    refine ⟨rfl, ?_⟩
    simp only [demand, framesRest] at hdemand ⊢
    have hle : Progress.frames below + 8 ≤ Progress.frames (level :: below) := Nat.le_add_right _ _
    omega
  | @ItemsHaveLexemes.more comma e ls others es hne hfirst hothers, j, level, below, phase, whole, b,
      hb, _, hp => by
    obtain ⟨hsteps, hdemand⟩ := hfirst.steps? hp
    have hlevel : (level.extend [e]).bracket = b := hb
    have hadd : add e ⟨level :: below, phase, whole⟩ = ⟨level.extend [e] :: below, .item, whole⟩ := rfl
    have hcomma : step? ⟨comma, .comma⟩ ⟨level.extend [e] :: below, .item, whole⟩ =
        some ⟨level.extend [e] :: below, .start, whole⟩ := rfl
    have hawaits : Awaits ⟨level.extend [e] :: below, .start, whole⟩ := .inl rfl
    obtain ⟨hsteps', hdemand'⟩ := hothers.steps? j hlevel (fun h => absurd h hne) hawaits
    have hused : used ⟨level.extend [e] :: below, .start, whole⟩ = Progress.frames below + 8 + 4 := rfl
    have hframes : Progress.frames (level.extend [e] :: below) = Progress.frames below + 8 + 4 := rfl
    have hrest : (level.extend [e]).framesOf es = framesRest es := rfl
    have hextend : (level.extend [e]).extend es = level.extend (e :: es) := by
      simp [Level.extend]
    rw [hadd] at hsteps
    rw [List.append_assoc, List.cons_append, steps?_append hsteps, steps?_cons hcomma, hsteps', hextend,
      demand_append hsteps, demand_cons hcomma, hused, Level.framesOf_cons]
    refine ⟨rfl, ?_⟩
    rw [hframes, hrest] at hdemand'
    have hle : Progress.frames below + 8 ≤ Progress.frames (level :: below) := Nat.le_add_right _ _
    simp only at hdemand
    omega

end

theorem HasLexemes.demand_eq {e : Expr} {ls : List Lexeme} (h : HasLexemes e ls) :
    Progress.start.demand ls = e.frames := by
  have hdemand := (h.steps? (p := Progress.start) (.inl rfl)).2
  simpa only [Progress.start, Progress.frames, Nat.zero_max, Nat.zero_add] using hdemand

/-- A run over all lexemes of an expression returns it, if the stack has room for its frames. -/
theorem HasLexemes.run_start [CallStack] {e : Expr} {ls : List Lexeme} (h : HasLexemes e ls)
    (stop : Nat) : Progress.start.run stop true ls =
      if CallStack.room < e.frames then .error .nestedTooDeeply else .ok e := by
  have hrun := run_append (h.steps? (p := Progress.start) (.inl rfl)).1 stop true []
  rw [List.append_nil, h.demand_eq] at hrun
  exact hrun

/-! ### What a progress stands for -/

/-- The lexemes that opened a level. -/
inductive Opens : Level → List Lexeme → Prop where
  | list {i : Nat} {latest : List Expr} : Opens ⟨i, none, latest⟩ [⟨i, .opening .square⟩]
  | call {i j : Nat} {name : Text} {latest : List Expr} :
      Opens ⟨i, some name, latest⟩ [⟨i, .name name⟩, ⟨j, .opening .round⟩]

/-- The lexemes of expressions, latest first, with a comma behind each. -/
inductive Followed : List Expr → List Lexeme → Prop where
  | nil : Followed [] []
  | cons {j : Nat} {e : Expr} {es : List Expr} {before ls : List Lexeme} : Followed es before →
      HasLexemes e ls → Followed (e :: es) (before ++ (ls ++ [⟨j, .comma⟩]))

/-- The lexemes of levels, where an expression comes next in the innermost one. -/
inductive Enclosing : List Level → List Lexeme → Prop where
  | nil : Enclosing [] []
  | cons {level : Level} {below : List Level} {outer opening before : List Lexeme} :
      Enclosing below outer → Opens level opening → Followed level.latest before →
      Enclosing (level :: below) (outer ++ (opening ++ before))

/-- The lexemes that a progress stands for. -/
inductive Consumed : Progress → List Lexeme → Prop where
  | start {levels : List Level} {whole : Option Expr} {ls : List Lexeme} :
      Enclosing levels ls → Consumed ⟨levels, .start, whole⟩ ls
  | opened {level : Level} {below : List Level} {whole : Option Expr} {outer opening : List Lexeme} :
      Enclosing below outer → Opens level opening → level.latest = [] →
      Consumed ⟨level :: below, .opened, whole⟩ (outer ++ opening)
  | named {levels : List Level} {i : Nat} {name : Text} {whole : Option Expr} {ls : List Lexeme} :
      Enclosing levels ls → Consumed ⟨levels, .named i name, whole⟩ (ls ++ [⟨i, .name name⟩])
  | whole {e : Expr} {ls : List Lexeme} : HasLexemes e ls → Consumed ⟨[], .item, some e⟩ ls
  | item {level : Level} {e : Expr} {es : List Expr} {below : List Level} {whole : Option Expr}
      {outer opening before ls : List Lexeme} : Enclosing below outer → Opens level opening →
      level.latest = e :: es → Followed es before → HasLexemes e ls →
      Consumed ⟨level :: below, .item, whole⟩ (outer ++ (opening ++ (before ++ ls)))

theorem Followed.items {es : List Expr} {before : List Lexeme} (h : Followed es before) :
    ∀ {rest : List Expr} {ls : List Lexeme}, rest ≠ [] → ItemsHaveLexemes rest ls →
      ItemsHaveLexemes (es.reverse ++ rest) (before ++ ls) := by
  induction h with
  | nil => exact fun _ hrest => hrest
  | @cons j e es before inner _ he ih =>
    intro rest ls hne hrest
    have hmore := ih (by simp) (ItemsHaveLexemes.more (j := j) hne he hrest)
    simpa using hmore

theorem Opens.close {level : Level} {opening inner : List Lexeme} (h : Opens level opening)
    (hinner : ItemsHaveLexemes level.latest.reverse inner) (j : Nat) :
    HasLexemes level.close (opening ++ (inner ++ [⟨j, .closing level.bracket⟩])) := by
  cases h with
  | list => exact .list hinner
  | call => exact .call hinner

theorem Opens.of_latest {level level' : Level} {opening : List Lexeme} (h : Opens level opening)
    (hindex : level'.index = level.index) (hfunction : level'.function = level.function) :
    Opens level' opening := by
  obtain ⟨index, function, latest⟩ := level'
  cases h with
  | list => cases hindex; cases hfunction; exact .list
  | call => cases hindex; cases hfunction; exact .call

theorem Enclosing.add {p : Progress} {outer ls : List Lexeme} {e : Expr}
    (h : Enclosing p.levels outer) (he : HasLexemes e ls) : Consumed (p.add e) (outer ++ ls) := by
  obtain ⟨levels, phase, whole⟩ := p
  cases h with
  | nil => exact .whole he
  | cons hbelow hopens hfollowed =>
    rw [List.append_assoc, List.append_assoc]
    exact .item hbelow (hopens.of_latest rfl rfl) rfl hfollowed he

/-! ### Steps keep what a progress stands for -/

theorem Consumed.enclosing {p : Progress} {ls : List Lexeme} (h : Consumed p ls)
    (hp : p.Awaits) : Enclosing p.levels ls := by
  cases h with
  | start h => exact h
  | @opened level _ _ outer opening hbelow hopens hlatest =>
    have hnil : Followed level.latest [] := by
      rw [hlatest]
      exact .nil
    have hcons := Enclosing.cons hbelow hopens hnil
    rwa [List.append_nil] at hcons
  | _ => simp [Progress.Awaits] at hp

theorem Enclosing.begin? {p q : Progress} {ls : List Lexeme} {lexeme : Lexeme}
    (h : Enclosing p.levels ls) (hbegin : p.begin? lexeme = some q) :
    Consumed q (ls ++ [lexeme]) := by
  obtain ⟨i, token⟩ := lexeme
  cases token with
  | string value =>
    obtain rfl := Option.some.inj hbegin
    exact h.add .string
  | integer digits =>
    obtain rfl := Option.some.inj hbegin
    exact h.add .integer
  | name text =>
    obtain rfl := Option.some.inj hbegin
    exact .named h
  | opening bracket =>
    cases bracket with
    | square =>
      obtain rfl := Option.some.inj hbegin
      exact .opened h .list rfl
    | round => simp [Progress.begin?] at hbegin
  | _ => simp [Progress.begin?] at hbegin

theorem Consumed.close? {p q : Progress} {ls : List Lexeme} {lexeme : Lexeme} (h : Consumed p ls)
    (hp : p.phase = .opened ∨ p.phase = .item) (hclose : p.close? lexeme.token = some q) :
    Consumed q (ls ++ [lexeme]) := by
  obtain ⟨j, token⟩ := lexeme
  cases h with
  | @opened level below whole outer opening hbelow hopens hlatest =>
    simp only [Progress.close?] at hclose
    split at hclose
    · next htoken =>
      subst htoken
      obtain rfl := Option.some.inj hclose
      have hinner : ItemsHaveLexemes level.latest.reverse [] := by
        rw [hlatest]
        exact .nil
      rw [List.append_assoc]
      exact Enclosing.add (p := ⟨below, .item, whole⟩) hbelow (hopens.close hinner j)
    · simp at hclose
  | @item level e es below whole outer opening before inner hbelow hopens hlatest hfollowed he =>
    simp only [Progress.close?] at hclose
    split at hclose
    · next htoken =>
      subst htoken
      obtain rfl := Option.some.inj hclose
      have hinner : ItemsHaveLexemes level.latest.reverse (before ++ inner) := by
        rw [hlatest, List.reverse_cons]
        exact hfollowed.items (by simp) (.one he)
      rw [List.append_assoc, List.append_assoc]
      exact Enclosing.add (p := ⟨below, .item, whole⟩) hbelow (hopens.close hinner j)
    · simp at hclose
  | whole => simp [Progress.close?] at hclose
  | _ => simp at hp

theorem Consumed.step? {p q : Progress} {ls : List Lexeme} {lexeme : Lexeme} (h : Consumed p ls)
    (hstep : p.step? lexeme = some q) : Consumed q (ls ++ [lexeme]) := by
  obtain ⟨levels, phase, whole⟩ := p
  simp only [Progress.step?] at hstep
  cases phase with
  | start => exact (h.enclosing (.inl rfl)).begin? hstep
  | opened =>
    rcases Option.or_eq_some_iff.mp hstep with hbegin | ⟨-, hclose⟩
    · exact (h.enclosing (.inr rfl)).begin? hbegin
    · exact h.close? (.inl rfl) hclose
  | named i name =>
    obtain ⟨j, token⟩ := lexeme
    simp only at hstep
    split at hstep
    · next htoken =>
      subst htoken
      obtain rfl := Option.some.inj hstep
      cases h with
      | named h =>
        rw [List.append_assoc]
        exact .opened h .call rfl
    · simp at hstep
  | item =>
    cases levels with
    | nil => simp at hstep
    | cons level below =>
      simp only at hstep
      split at hstep
      · next htoken =>
        obtain ⟨j, token⟩ := lexeme
        obtain rfl : token = .comma := htoken
        obtain rfl := Option.some.inj hstep
        cases h with
        | item hbelow hopens hlatest hfollowed he =>
          have hnext := Followed.cons (j := j) hfollowed he
          rw [← hlatest] at hnext
          simpa only [List.append_assoc] using Consumed.start (hbelow.cons hopens hnext)
      · exact h.close? (.inr rfl) hstep

/-- A tree that a run returns has the lexemes before the run and those of the run. -/
theorem Consumed.hasLexemes_of_run [CallStack] {stop : Nat} {complete : Bool} {e : Expr} {ls : List Lexeme}
    {p : Progress} {before : List Lexeme} (h : Consumed p before)
    (hrun : p.run stop complete ls = .ok e) : HasLexemes e (before ++ ls) ∧ complete = true := by
  induction ls generalizing p before with
  | nil =>
    simp only [Progress.run] at hrun
    split at hrun
    · next hphase hlevels hwhole =>
      obtain rfl := Except.ok.inj hrun
      obtain ⟨levels, phase, whole⟩ := p
      subst hphase hlevels hwhole
      rw [List.append_nil]
      cases h with
      | whole he => exact ⟨he, rfl⟩
    · simp at hrun
  | cons lexeme ls ih =>
    simp only [Progress.run] at hrun
    split at hrun
    · simp at hrun
    · next q hstep =>
      split at hrun
      · simp at hrun
      · have hrest := ih (h.step? hstep) hrun
        rwa [List.append_assoc] at hrest

/-! ### Refusals -/

theorem run_eq_nestedTooDeeply_iff [CallStack] {stop : Nat} {complete : Bool} {ls : List Lexeme}
    {p : Progress} : p.run stop complete ls = .error .nestedTooDeeply ↔
      CallStack.room < p.demand ls := by
  induction ls generalizing p with
  | nil =>
    simp only [Progress.run, demand, Nat.not_lt_zero, iff_false]
    split <;> simp
  | cons lexeme ls ih =>
    cases hstep : p.step? lexeme with
    | none => simp [Progress.run, demand, hstep]
    | some next =>
      rw [run_cons hstep, demand_cons hstep]
      split
      · exact iff_of_true rfl (by omega)
      · rw [ih]
        omega

theorem error_of_run [CallStack] {stop : Nat} {complete : Bool} {ls : List Lexeme} {p : Progress}
    {error : ReadError} (h : p.run stop complete ls = .error error) :
    (∃ i expected, error = .malformed i expected) ∨ error = .nestedTooDeeply := by
  induction ls generalizing p with
  | nil =>
    simp only [Progress.run] at h
    split at h
    · simp at h
    · exact .inl ⟨_, _, (Except.error.inj h).symm⟩
  | cons lexeme ls ih =>
    simp only [Progress.run] at h
    split at h
    · exact .inl ⟨_, _, (Except.error.inj h).symm⟩
    · split at h
      · exact .inr (Except.error.inj h).symm
      · exact ih h

/-! ### Places of nodes -/

theorem Written.drop {i : Nat} {t : Text} {front back : List Lexeme} {lexeme : Lexeme}
    (h : Written i (front ++ lexeme :: back) t) :
    ∃ before after, t = before ++ after ∧ i + before.length = lexeme.index ∧
      Written lexeme.index (lexeme :: back) after := by
  induction front generalizing i t with
  | nil =>
    cases h with
    | @cons _ gap word rest _ _ _ hindex hword hrest =>
      refine ⟨gap, word ++ rest, rfl, hindex.symm, ?_⟩
      exact @Written.cons _ [] word rest lexeme back (by simp [IsGap]) rfl hword hrest
  | cons first front ih =>
    cases h with
    | @cons _ gap word rest _ _ _ hindex hword hrest =>
      obtain ⟨before, after, rfl, hbefore, hafter⟩ := ih hrest
      refine ⟨gap ++ (word ++ before), after, by simp, ?_, hafter⟩
      simp only [List.length_append]
      omega

theorem Written.take {i : Nat} {t : Text} {front back : List Lexeme}
    (h : Written i (front ++ back) t) : ∃ before after, t = before ++ after ∧
      Written i front before := by
  induction front generalizing i t with
  | nil => exact ⟨[], t, rfl, .nil (by simp [IsGap])⟩
  | cons first front ih =>
    cases h with
    | @cons _ gap word rest _ _ hgap hindex hword hrest =>
      obtain ⟨before, after, rfl, hbefore⟩ := ih hrest
      exact ⟨gap ++ (word ++ before), after, by simp, .cons hgap hindex hword hbefore⟩

/-- `part` is a stretch of `whole`. -/
def Within (part whole : List Lexeme) : Prop := ∃ front back, whole = front ++ (part ++ back)

theorem Within.append {part whole : List Lexeme} (h : Within part whole)
    (before after : List Lexeme) : Within part (before ++ (whole ++ after)) := by
  obtain ⟨front, back, rfl⟩ := h
  exact ⟨before ++ front, back ++ after, by simp⟩

mutual

theorem HasLexemes.within {e : Expr} {ls : List Lexeme} : HasLexemes e ls →
    ∀ d ∈ e.nodes, ∃ part, HasLexemes d part ∧ Within part ls
  | .string, d, hd => by
    obtain rfl := List.mem_singleton.mp hd
    exact ⟨_, .string, [], [], by simp⟩
  | .integer, d, hd => by
    obtain rfl := List.mem_singleton.mp hd
    exact ⟨_, .integer, [], [], by simp⟩
  | @HasLexemes.list i j _ _ hitems, d, hd => by
    rcases List.mem_cons.mp hd with rfl | hd
    · exact ⟨_, .list (j := j) hitems, [], [], by simp⟩
    · obtain ⟨part, hpart, hwithin⟩ := hitems.within d hd
      exact ⟨part, hpart, hwithin.append [⟨i, .opening .square⟩] _⟩
  | @HasLexemes.call i j k name _ _ hargs, d, hd => by
    rcases List.mem_cons.mp hd with rfl | hd
    · exact ⟨_, .call (j := j) (k := k) hargs, [], [], by simp⟩
    · obtain ⟨part, hpart, hwithin⟩ := hargs.within d hd
      exact ⟨part, hpart, hwithin.append [⟨i, .name name⟩, ⟨j, .opening .round⟩] _⟩

theorem ItemsHaveLexemes.within {es : List Expr} {ls : List Lexeme} : ItemsHaveLexemes es ls →
    ∀ d ∈ nodesAll es, ∃ part, HasLexemes d part ∧ Within part ls
  | .nil, d, hd => by simp [nodesAll] at hd
  | .one h, d, hd => by
    rw [nodesAll, nodesAll, List.append_nil] at hd
    exact h.within d hd
  | @ItemsHaveLexemes.more j _ ls _ _ _ hfirst hothers, d, hd => by
    rcases List.mem_append.mp hd with hd | hd
    · obtain ⟨part, hpart, hwithin⟩ := hfirst.within d hd
      exact ⟨part, hpart, hwithin.append [] _⟩
    · obtain ⟨part, hpart, front, back, rfl⟩ := hothers.within d hd
      exact ⟨part, hpart, ls ++ ⟨j, .comma⟩ :: front, back, by simp⟩

end

theorem Token.Spelt.head {token : Token} {word : Text} (h : token.Spelt word) :
    ∃ c rest, word = c :: rest ∧ Token.isBlank c = false := by
  have hends : token.isWord = true → Ends [] := fun _ => by simp [Ends]
  obtain ⟨c, rest, hword, hblank, -⟩ := h.first? hends
  exact ⟨c, rest, hword, hblank⟩

/-- The node stands at its index in the text: its rendering begins there with its first code
point. -/
def StandsIn (source : Text) (d : Expr) : Prop :=
  ∃ before c t after, source = before ++ (c :: t ++ after) ∧ before.length = d.index ∧
    Token.isBlank c = false ∧ RendersAt d.index (c :: t) d

theorem Renders.standsIn {source : Text} {e d : Expr} (h : Renders source e) (hd : d ∈ e.nodes) :
    StandsIn source d := by
  obtain ⟨ls, he, hwritten⟩ := h
  obtain ⟨part, hpart, front, back, rfl⟩ := he.within d hd
  obtain ⟨token, tail, rfl, -⟩ := hpart.head
  rw [List.cons_append] at hwritten
  obtain ⟨before, t, rfl, hbefore, ht⟩ := hwritten.drop
  rw [← List.cons_append] at ht
  obtain ⟨own, after, rfl, hown⟩ := ht.take
  have hrenders : RendersAt d.index own d := ⟨_, hpart, hown⟩
  cases hown with
  | @cons _ gap word rest _ _ _ hindex hword _ =>
    obtain rfl : gap = [] := List.length_eq_zero_iff.mp (by simp only at hindex; omega)
    obtain ⟨c, inner, rfl, hblank⟩ := hword.head
    exact ⟨before, c, inner ++ rest, after, rfl, (Nat.zero_add _).symm.trans hbefore, hblank,
      hrenders⟩

/-! ### Reading -/

/-- The most brackets that are open at once among the tokens of a text. -/
def nesting (source : Text) : Nat := deepest 0 (Token.lex 0 source).lexemes

theorem nesting_of_written {source : Text} {e : Expr} {ls : List Lexeme} (he : HasLexemes e ls)
    (hwritten : Written 0 ls source) : nesting source = e.depth := by
  have hdeepest := he.deepest_eq 0 []
  rw [List.append_nil] at hdeepest
  rw [nesting, hwritten.lex_eq he.apart, hdeepest, Nat.zero_add]
  exact Nat.max_eq_left (Nat.zero_le _)

/-- The frames that reading a text takes, up to its end or to a token that cannot follow. -/
def demand (source : Text) : Nat := Progress.start.demand (Token.lex 0 source).lexemes

/-- A text takes the frames of the tree that it renders. -/
theorem demand_of_renders {source : Text} {e : Expr} (h : Renders source e) :
    demand source = e.frames := by
  obtain ⟨ls, he, hwritten⟩ := h
  rw [demand, hwritten.lex_eq he.apart, he.demand_eq]

/-- No integer has more digits than can be read. -/
def ShortIntegers (ls : List Lexeme) : Prop :=
  ∀ lexeme ∈ ls, ∀ digits, lexeme.token = .integer digits → digits.length ≤ Numeral.maxDigits

theorem checkNumerals_of_short {ls : List Lexeme} (h : ShortIntegers ls) :
    checkNumerals ls = .ok () := by
  induction ls with
  | nil => rfl
  | cons lexeme ls ih =>
    have hrest := ih fun other hother => h other (List.mem_cons_of_mem _ hother)
    obtain ⟨i, token⟩ := lexeme
    cases token with
    | integer digits =>
      have hdigits := h ⟨i, .integer digits⟩ (by simp) digits rfl
      rw [checkNumerals, if_neg (Nat.not_lt.mpr hdigits), hrest]
    | _ => exact hrest

theorem ShortIntegers.of_check {ls : List Lexeme} (h : checkNumerals ls = .ok ()) : ShortIntegers ls := by
  fun_induction checkNumerals ls with
  | case1 => exact nofun
  | case2 => cases h
  | case3 i digits rest hshort ih =>
    intro lexeme hlexeme digits' htoken
    rcases List.mem_cons.mp hlexeme with rfl | hlexeme
    · cases htoken
      exact Nat.not_lt.mp hshort
    · exact ih h lexeme hlexeme digits' htoken
  | case4 lexeme rest hother ih =>
    intro lexeme' hlexeme digits htoken
    rcases List.mem_cons.mp hlexeme with rfl | hlexeme
    · exact absurd (congrArg (Lexeme.mk lexeme'.index) htoken) (hother _ _)
    · exact ih h lexeme' hlexeme digits htoken

theorem tooLong_of_check {ls : List Lexeme} {error : ReadError} (h : checkNumerals ls = .error error) :
    ∃ n, Numeral.maxDigits < n ∧ error = .numeral (.tooLongToRead n) := by
  fun_induction checkNumerals ls with
  | case1 => cases h
  | case2 i digits rest hlong => exact ⟨digits.length, hlong, (Except.error.inj h).symm⟩
  | case3 i digits rest hshort ih => exact ih h
  | case4 lexeme rest hother ih => exact ih h

section reading

variable [CallStack]

theorem renders_of_read {source : Text} {e : Expr} (h : read source = .ok e) :
    Renders source e := by
  obtain ⟨e', hrun, h⟩ := Except.bind_eq_ok.mp h
  obtain ⟨-, -, h⟩ := Except.bind_eq_ok.mp h
  obtain rfl := Except.ok.inj h
  obtain ⟨he, hcomplete⟩ := (Consumed.start .nil).hasLexemes_of_run hrun
  exact ⟨_, he, written_of_lex hcomplete⟩

theorem shortIntegers_of_read {source : Text} {e : Expr} (h : read source = .ok e) :
    ShortIntegers (Token.lex 0 source).lexemes := by
  obtain ⟨_, _, h⟩ := Except.bind_eq_ok.mp h
  obtain ⟨_, hcheck, _⟩ := Except.bind_eq_ok.mp h
  exact .of_check hcheck

theorem read_of_written {source : Text} {e : Expr} {ls : List Lexeme} (he : HasLexemes e ls)
    (hwritten : Written 0 ls source) (hroom : e.frames ≤ CallStack.room) (hshort : ShortIntegers ls) :
    read source = .ok e := by
  have hlex := hwritten.lex_eq he.apart
  have hrun := he.run_start (0 + source.length)
  rw [if_neg (Nat.not_lt.mpr hroom)] at hrun
  simp only [read, Except.ok_bind, hlex, hrun, checkNumerals_of_short hshort]
  rfl

theorem read_eq_error_iff {source : Text} {error : ReadError} : read source = .error error ↔
    Progress.start.run (Token.lex 0 source).stop (Token.lex 0 source).complete
        (Token.lex 0 source).lexemes = .error error ∨
      (∃ e, Progress.start.run (Token.lex 0 source).stop (Token.lex 0 source).complete
        (Token.lex 0 source).lexemes = .ok e) ∧
        checkNumerals (Token.lex 0 source).lexemes = .error error := by
  have hcheck : ∀ e : Expr, (checkNumerals (Token.lex 0 source).lexemes >>= fun _ => .ok e) =
      .error error ↔ checkNumerals (Token.lex 0 source).lexemes = .error error := fun e =>
    Except.bind_eq_error.trans (or_iff_left (by simp))
  have hread : read source = (Progress.start.run (Token.lex 0 source).stop (Token.lex 0 source).complete
      (Token.lex 0 source).lexemes >>= fun e =>
        checkNumerals (Token.lex 0 source).lexemes >>= fun _ => .ok e) := rfl
  rw [hread, Except.bind_eq_error]
  simp only [hcheck, exists_and_right]

/-- Only too little room makes reading find brackets nested too deeply. -/
theorem read_eq_nestedTooDeeply_iff {source : Text} :
    read source = .error .nestedTooDeeply ↔ CallStack.room < demand source := by
  rw [read_eq_error_iff, run_eq_nestedTooDeeply_iff, demand]
  refine or_iff_left ?_
  rintro ⟨-, hcheck⟩
  obtain ⟨n, -, herror⟩ := tooLong_of_check hcheck
  cases herror

theorem error_of_read {source : Text} {error : ReadError} (h : read source = .error error)
    (hroom : demand source ≤ CallStack.room) (hshort : ShortIntegers (Token.lex 0 source).lexemes) :
    ∃ i expected, error = .malformed i expected := by
  rcases read_eq_error_iff.mp h with hrun | ⟨-, hcheck⟩
  · rcases error_of_run hrun with hmalformed | rfl
    · exact hmalformed
    · exact absurd (read_eq_nestedTooDeeply_iff.mp h) (Nat.not_lt.mpr hroom)
  · rw [checkNumerals_of_short hshort] at hcheck
    cases hcheck

/-- **Reading accepts exactly the renderings of trees.** A text renders one tree at most, takes the
frames of that tree, and has every node at its index. If the stack has room for the frames of a text
and all integers are short enough, the text is read as the tree that it renders, and refused at some
place if there is none. If there is no room, its brackets are nested too deeply. -/
theorem read_eq_ok_iff_renders (source : Text) :
    (∀ e e', Renders source e → Renders source e' → e = e') ∧
    (∀ e, Renders source e → demand source = e.frames ∧ ∀ d ∈ e.nodes, StandsIn source d) ∧
    (demand source ≤ CallStack.room → ShortIntegers (Token.lex 0 source).lexemes →
      (∀ e, read source = .ok e ↔ Renders source e) ∧
      ((∀ e, ¬ Renders source e) → ∃ i expected, read source = .error (.malformed i expected))) ∧
    (CallStack.room < demand source → read source = .error .nestedTooDeeply) := by
  refine ⟨?_, fun e h => ⟨demand_of_renders h, fun d hd => h.standsIn hd⟩,
    fun hroom hshort => ⟨fun e => ⟨renders_of_read, ?_⟩, fun hnone => ?_⟩,
    read_eq_nestedTooDeeply_iff.mpr⟩
  · rintro e e' ⟨ls, he, hwritten⟩ ⟨ls', he', hwritten'⟩
    have hlex := (hwritten.lex_eq he.apart).symm.trans (hwritten'.lex_eq he'.apart)
    obtain rfl : ls = ls' := (Lexed.mk.inj hlex).1
    have hends : ls ++ [] = ls ++ [] := rfl
    exact (he.unique he' hends).1
  · intro hrenders
    rw [demand_of_renders hrenders] at hroom
    obtain ⟨ls, he, hwritten⟩ := hrenders
    rw [hwritten.lex_eq he.apart] at hshort
    exact read_of_written he hwritten hroom hshort
  · cases hread : read source with
    | ok e => exact absurd (renders_of_read hread) (hnone e)
    | error error =>
      obtain ⟨i, expected, rfl⟩ := error_of_read hread hroom hshort
      exact ⟨i, expected, rfl⟩

end reading

/-- So many open lists, each behind an item of the one around it. -/
def openLists (n : Nat) : Text := (List.replicate n ("[1," : Text)).flatten

/-- Lists in lists, each but the outermost a second item. -/
def nestedLists (n : Nat) : Text :=
  openLists n ++ CodePoint.ofChar '1' :: List.replicate n (CodePoint.ofChar ']')

/-- Ninety brackets are too many behind commas: the usual stack has no room for an expression that a
larger one holds. -/
theorem read_nestedLists :
    nesting (nestedLists 90) ≤ 110 ∧ ShortIntegers (Token.lex 0 (nestedLists 90)).lexemes ∧
      (∃ e, Renders (nestedLists 90) e) ∧ read (nestedLists 90) = .error .nestedTooDeeply := by
  have hnesting : nesting (nestedLists 90) ≤ 110 := by decide +kernel
  have hdeep : CallStack.room < demand (nestedLists 90) := by decide +kernel
  have hread : (@read ⟨2000⟩ (nestedLists 90)).toOption.isSome = true := by decide +kernel
  obtain ⟨e, he⟩ := Option.isSome_iff_exists.mp hread
  have he := Except.toOption_eq_some.mp he
  exact ⟨hnesting, @shortIntegers_of_read ⟨2000⟩ _ _ he, ⟨e, @renders_of_read ⟨2000⟩ _ _ he⟩,
    read_eq_nestedTooDeeply_iff.mpr hdeep⟩

theorem renders_join_escaped :
    demand "join([\"a\\\"b\" ,07])" ≤ CallStack.room ∧
      ShortIntegers (Token.lex 0 "join([\"a\\\"b\" ,07])").lexemes ∧
      Renders "join([\"a\\\"b\" ,07])"
        (.call 0 "join" [.list 5 [.string 6 "a\"b", .integer 14 7]]) := by
  have hroom : demand "join([\"a\\\"b\" ,07])" ≤ CallStack.room := by decide +kernel
  have hlex : (Token.lex 0 "join([\"a\\\"b\" ,07])").lexemes =
      [⟨0, .name "join"⟩, ⟨4, .opening .round⟩, ⟨5, .opening .square⟩, ⟨6, .string "a\"b"⟩,
        ⟨13, .comma⟩, ⟨14, .integer "07"⟩, ⟨16, .closing .square⟩, ⟨17, .closing .round⟩] := by
    decide +kernel
  have hshort : ShortIntegers (Token.lex 0 "join([\"a\\\"b\" ,07])").lexemes := by
    rw [hlex]
    intro lexeme hlexeme digits hdigits
    simp only [List.mem_cons, List.not_mem_nil, or_false] at hlexeme
    rcases hlexeme with rfl | rfl | rfl | rfl | rfl | rfl | rfl | rfl <;> cases hdigits
    decide
  have hread : read "join([\"a\\\"b\" ,07])" =
      .ok (.call 0 "join" [.list 5 [.string 6 "a\"b", .integer 14 7]]) := by cbv
  exact ⟨hroom, hshort, (((read_eq_ok_iff_renders _).2.2.1 hroom hshort).1 _).mp hread⟩

end RandomText.Expr
