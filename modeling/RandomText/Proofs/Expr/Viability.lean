import RandomText.Proofs.Expr.Writing

/-!
# Where a text stops being the beginning of an expression

A text that is no expression is refused at the end of its longest part that an expression can begin
with. What was read up to there can be completed: an item is added where one has to follow, and the
levels that are open are closed (`Consumed.completable`). A text that agrees with the refused one up to
the code point at which it was refused is cut into the same lexemes up to there (`Cut.replaced`) and
goes on with a token of the same kind, which is refused as well (`Refused.not_renders`). A quote is left
out: a string that does not end is refused at its quote, although it could still end.
-/

namespace RandomText.Expr

/-! ### Cutting with other text behind -/

/-- The text, which begins at index `i`, is cut into the lexemes up to index `j`, where `rest` is
left. -/
inductive Cut : Nat → Text → List Lexeme → Nat → Text → Prop where
  | here {i : Nat} {t : Text} : Cut i t [] i t
  | blank {i j : Nat} {c : CodePoint} {t rest : Text} {ls : List Lexeme} : Token.isBlank c = true →
      Cut (i + 1) t ls j rest → Cut i (c :: t) ls j rest
  | token {i j width : Nat} {c : CodePoint} {t rest : Text} {token : Token} {ls : List Lexeme} :
      Token.isBlank c = false → Token.first? c t = some (token, width) →
      Cut (i + 1 + width) (t.drop width) ls j rest → Cut i (c :: t) (⟨i, token⟩ :: ls) j rest

section cut

variable {i j : Nat} {t rest : Text} {ls : List Lexeme}

theorem Cut.lex_eq (h : Cut i t ls j rest) : Token.lex i t = (Token.lex j rest).behind ls := by
  induction h with
  | here => rfl
  | blank hblank _ ih => rw [lex_blank hblank, ih]
  | token hblank hfirst _ ih => rw [lex_token hblank hfirst, ih]; rfl

theorem takeWhile_replaced {p : CodePoint → Bool} {word after after' : Text}
    (h : ((word ++ after).takeWhile p).length = word.length) (hhead : after'.head? = after.head?) :
    (word ++ after').takeWhile p = (word ++ after).takeWhile p := by
  induction word with
  | nil =>
    cases after with
    | nil => rw [List.head?_eq_none_iff.mp hhead]
    | cons d after =>
      obtain ⟨tail, rfl⟩ := List.head?_eq_some_iff.mp hhead
      rw [List.nil_append, List.takeWhile_cons] at h ⊢
      rw [List.nil_append, List.takeWhile_cons]
      split at h
      · simp at h
      · next hd => rw [if_neg hd, if_neg hd]
  | cons d word ih =>
    rw [List.cons_append, List.takeWhile_cons] at h ⊢
    rw [List.cons_append, List.takeWhile_cons]
    split at h
    · next hd => rw [if_pos hd, if_pos hd, ih (Nat.succ.inj h)]
    · simp at h

theorem Token.first?_replaced {c : CodePoint} {word after after' : Text} {token : Token}
    (h : Token.first? c (word ++ after) = some (token, word.length))
    (hhead : after'.head? = after.head?) :
    Token.first? c (word ++ after') = some (token, word.length) := by
  simp only [Token.first?] at h ⊢
  split at h
  · next hquote =>
    rw [if_pos hquote]
    obtain ⟨body, hbody, heq⟩ := Option.map_eq_some_iff.mp h
    obtain ⟨rfl, hlength⟩ := Prod.mk.inj heq
    obtain ⟨behind, hbehind, hunescapes⟩ := unescapes_of_stringBody hbody
    have hword : word = body ++ [CodePoint.ofChar '"'] := by
      rw [← List.singleton_append, ← List.append_assoc] at hbehind
      exact (List.append_inj hbehind (by simp [hlength])).1
    rw [hword, List.append_assoc, List.singleton_append, hunescapes.stringBody_eq, Option.map_some,
      List.length_append, List.length_singleton]
  split at h
  · next hquote hdigit =>
    obtain ⟨rfl, hlength⟩ := Prod.mk.inj (Option.some.inj h)
    rw [if_neg hquote, if_pos hdigit, takeWhile_replaced hlength hhead, hlength]
  split at h
  · next hquote hdigit hstart =>
    obtain ⟨rfl, hlength⟩ := Prod.mk.inj (Option.some.inj h)
    rw [if_neg hquote, if_neg hdigit, if_pos hstart, takeWhile_replaced hlength hhead, hlength]
  · next hquote hdigit hstart =>
    rw [if_neg hquote, if_neg hdigit, if_neg hstart]
    exact h

theorem Cut.split (h : Cut i t ls j rest) :
    ∃ front, t = front ++ rest ∧ j = i + front.length ∧ Written i ls front ∧
      ∀ rest', rest'.head? = rest.head? → Cut i (front ++ rest') ls j rest' := by
  induction h with
  | here => exact ⟨[], rfl, rfl, .nil nofun, fun _ _ => .here⟩
  | @blank i _ c t _ _ hblank _ ih =>
    obtain ⟨front, rfl, rfl, hfront, hcut⟩ := ih
    have hgap : IsGap [c] := by simpa [IsGap] using hblank
    refine ⟨c :: front, rfl, by rw [List.length_cons]; omega, hfront.gap_append hgap, ?_⟩
    exact fun rest' hhead => .blank hblank (hcut rest' hhead)
  | @token i _ width c t rest token _ hblank hfirst _ ih =>
    obtain ⟨word, hword, rfl, hspelt⟩ := Token.spelt_of_first? hfirst
    obtain ⟨front, hfront, rfl, hwritten, hcut⟩ := ih
    have hnext : i + (c :: word).length = i + 1 + word.length := by
      rw [List.length_cons]
      omega
    rw [hfront] at hword
    subst hword
    rw [← hnext] at hwritten
    refine ⟨(c :: word) ++ front, by simp, ?_, (written_token hspelt i).append hwritten, ?_⟩
    · rw [List.length_append]
      omega
    · intro rest' hhead
      have hbehind : (front ++ rest').head? = (front ++ rest).head? := by
        rw [List.head?_append, List.head?_append, hhead]
      rw [List.append_assoc, List.cons_append]
      refine .token hblank (Token.first?_replaced hfirst hbehind) ?_
      rw [List.drop_left]
      exact hcut rest' hhead

theorem exists_cut (i : Nat) (t : Text) {back : List Lexeme} {lexeme : Lexeme} :
    ∀ {front : List Lexeme}, (Token.lex i t).lexemes = front ++ lexeme :: back →
      ∃ c rest width, Cut i t front lexeme.index (c :: rest) ∧ Token.isBlank c = false ∧
        Token.first? c rest = some (lexeme.token, width) := by
  fun_induction Token.lex i t with
  | case1 => simp
  | case2 i c rest hblank ih =>
    intro front h
    obtain ⟨d, behind, width, hcut, hd⟩ := ih h
    exact ⟨d, behind, width, .blank hblank hcut, hd⟩
  | case3 => simp
  | case4 i c rest hblank token width hfirst others =>
    rename_i ih
    intro front h
    have hblank : Token.isBlank c = false := by simpa using hblank
    cases front with
    | nil =>
      obtain ⟨rfl, -⟩ := List.cons.inj h
      exact ⟨c, rest, width, .here, hblank, hfirst⟩
    | cons first front =>
      obtain ⟨rfl, hrest⟩ := List.cons.inj h
      obtain ⟨d, behind, width', hcut, hd⟩ := ih hrest
      exact ⟨d, behind, width', .token hblank hfirst hcut, hd⟩

theorem exists_cut_stop (i : Nat) (t : Text) :
    ∃ rest, Cut i t (Token.lex i t).lexemes (Token.lex i t).stop rest ∧
      ∀ c behind, rest = c :: behind → Token.isBlank c = false ∧ Token.first? c behind = none := by
  fun_induction Token.lex i t with
  | case1 => exact ⟨[], .here, fun c behind heq => absurd heq.symm (List.cons_ne_nil c behind)⟩
  | case2 i c rest hblank ih =>
    obtain ⟨left, hcut, hleft⟩ := ih
    exact ⟨left, .blank hblank hcut, hleft⟩
  | case3 i c rest hblank hfirst =>
    have hblank : Token.isBlank c = false := by simpa using hblank
    refine ⟨c :: rest, .here, fun d behind heq => ?_⟩
    obtain ⟨rfl, rfl⟩ := List.cons.inj heq
    exact ⟨hblank, hfirst⟩
  | case4 i c rest hblank token width hfirst others ih =>
    have hblank : Token.isBlank c = false := by simpa using hblank
    obtain ⟨left, hcut, hleft⟩ := ih
    exact ⟨left, .token hblank hfirst hcut, hleft⟩

end cut

/-! ### Tokens that may follow -/

/-- What a token is among those that may follow. -/
def Token.expected : Token → Expected
  | string _ => .string
  | integer _ => .integer
  | name _ => .name
  | opening bracket => .opening bracket
  | closing bracket => .closing bracket
  | comma => .comma

/-- What begins with a code point, if it is complete. -/
def Token.begun? (c : CodePoint) : Option Expected :=
  if c = '"' then some .string
  else if c.isDigit then some .integer
  else if isNameStart c then some .name
  else (mark? c).map expected

theorem Token.expected_of_first? {c : CodePoint} (h : c ≠ '"') (rest : Text) :
    (Token.first? c rest).map (fun found => found.1.expected) = Token.begun? c := by
  rw [Token.first?, Token.begun?, if_neg h, if_neg h]
  split
  · rfl
  split
  · rfl
  · rw [Option.map_map]
    rfl

theorem Progress.step?_eq_none_iff (p : Progress) (lexeme : Lexeme) :
    p.step? lexeme = none ↔ lexeme.token.expected ∉ p.expected := by
  obtain ⟨levels, phase, whole⟩ := p
  obtain ⟨i, token⟩ := lexeme
  cases phase <;> cases levels <;> rcases token with _ | _ | _ | (_ | _) | (_ | _) | _ <;>
    simp [step?, begin?, close?, expected, Token.expected, Expected.starts]

/-! ### Completing what was read -/

/-- The text that closes the innermost level. -/
def Bracket.closer : Bracket → CodePoint
  | square => ']'
  | round => ')'

theorem Bracket.spelt_closing (b : Bracket) : (Token.closing b).Spelt [b.closer] := by
  cases b
  · exact .closeSquare
  · exact .closeRound

/-- Lexemes that begin an expression: with others behind them, written from any index on, they are the
lexemes of an expression. -/
def Completable (ls : List Lexeme) : Prop :=
  ∀ i, ∃ others t e, HasLexemes e (ls ++ others) ∧ Written i others t

theorem completable_of_append {ls : List Lexeme} {token : Token} {word : Text} (hspelt : token.Spelt word)
    (h : ∀ i, Completable (ls ++ [⟨i, token⟩])) : Completable ls := by
  intro i
  obtain ⟨others, t, e, he, hwritten⟩ := h i (i + word.length)
  refine ⟨⟨i, token⟩ :: others, word ++ t, e, ?_, (written_token hspelt i).append hwritten⟩
  rw [List.append_assoc, List.singleton_append] at he
  exact he

theorem Enclosing.completable {levels : List Level} {outer ls : List Lexeme} {e : Expr}
    (h : Enclosing levels outer) (he : HasLexemes e ls) : Completable (outer ++ ls) := by
  induction h generalizing e ls with
  | nil =>
    intro i
    exact ⟨[], [], e, by rwa [List.append_nil], .nil nofun⟩
  | @cons level below outer opening before _ hopens hfollowed ih =>
    refine completable_of_append level.bracket.spelt_closing fun i => ?_
    have hitems : ItemsHaveLexemes (e :: level.latest).reverse (before ++ ls) := by
      rw [List.reverse_cons]
      exact hfollowed.items (by simp) (.one he)
    have hopens' : Opens { level with latest := e :: level.latest } opening := hopens.of_latest rfl rfl
    have hclosed := ih (hopens'.close hitems i)
    simp only [List.append_assoc] at hclosed ⊢
    exact hclosed

/-- What a progress stands for begins an expression. -/
theorem Consumed.completable {p : Progress} {ls : List Lexeme} (h : Consumed p ls) :
    Completable ls := by
  cases h with
  | start henclosing =>
    have hempty : (Token.string []).Spelt _ := .string .nil
    exact completable_of_append hempty fun i => henclosing.completable .string
  | @opened level below whole outer opening hbelow hopens hlatest =>
    refine completable_of_append level.bracket.spelt_closing fun i => ?_
    have hnone : ItemsHaveLexemes level.latest.reverse [] := by
      rw [hlatest]
      exact .nil
    have hclosed := hbelow.completable (hopens.close hnone i)
    rw [List.append_assoc]
    exact hclosed
  | @named levels i name whole outer henclosing =>
    refine completable_of_append .openRound fun j => completable_of_append .closeRound fun k => ?_
    have hcall : HasLexemes (.call i name []) [⟨i, .name name⟩, ⟨j, .opening .round⟩,
      ⟨k, .closing .round⟩] := .call .nil
    have hclosed := henclosing.completable hcall
    rw [List.append_assoc, List.append_assoc]
    exact hclosed
  | whole he => exact Enclosing.nil.completable he
  | @item level e es below whole outer opening before inner hbelow hopens hlatest hfollowed he =>
    have hopens' : Opens { level with latest := es } opening := hopens.of_latest rfl rfl
    have hclosed := (Enclosing.cons hbelow hopens' hfollowed).completable he
    simp only [List.append_assoc] at hclosed
    exact hclosed

/-! ### The place of a refusal -/

/-- A run that refuses its lexemes at an index has read those up to the index. There no lexeme is left,
or one that may not follow. -/
theorem exists_refusal_of_run [CallStack] {stop i : Nat} {complete : Bool} {p : Progress} {before ls : List Lexeme}
    {expected : List Expected} (h : Consumed p before)
    (hrun : p.run stop complete ls = .error (.malformed i expected)) :
    ∃ front back q, ls = front ++ back ∧ Consumed q (before ++ front) ∧
      p.steps? front = some q ∧
      (back = [] ∧ i = stop ∨
        ∃ lexeme others, back = lexeme :: others ∧ i = lexeme.index ∧ q.step? lexeme = none) := by
  induction ls generalizing p before with
  | nil =>
    have hi : i = stop := by
      simp only [Progress.run] at hrun
      split at hrun
      · cases hrun
      · cases hrun
        rfl
    exact ⟨[], [], p, rfl, by rwa [List.append_nil], rfl, .inl ⟨rfl, hi⟩⟩
  | cons lexeme ls ih =>
    simp only [Progress.run] at hrun
    split at hrun
    · next hstep =>
      cases hrun
      refine ⟨[], lexeme :: ls, p, rfl, by rwa [List.append_nil], rfl, .inr ?_⟩
      exact ⟨lexeme, ls, rfl, rfl, hstep⟩
    · next q hstep =>
      split at hrun
      · cases hrun
      · obtain ⟨front, back, last, rfl, hlast, hsteps, hplace⟩ := ih (h.step? hstep) hrun
        rw [List.append_assoc] at hlast
        refine ⟨lexeme :: front, back, last, rfl, hlast, ?_, hplace⟩
        rw [Progress.steps?_cons hstep, hsteps]

/-- Reading a text stopped at index `i` behind the lexemes `front`, which led to the progress `p`. The
text ends there, or goes on with a code point with which nothing begins that may follow. -/
structure Refused (text : Text) (i : Nat) (front : List Lexeme) (p : Progress) (rest : Text) :
    Prop where
  cut : Cut 0 text front i rest
  consumed : Consumed p front
  steps : Progress.start.steps? front = some p
  next : ∀ c behind, rest = c :: behind → Token.isBlank c = false ∧
    ∀ token width, Token.first? c behind = some (token, width) → p.step? ⟨i, token⟩ = none

theorem checkNumerals_ne_malformed (ls : List Lexeme) (i : Nat) (expected : List Expected) :
    checkNumerals ls ≠ .error (.malformed i expected) := by
  intro h
  obtain ⟨n, -, herror⟩ := tooLong_of_check h
  cases herror

theorem exists_refused [CallStack] {text : Text} {i : Nat} {expected : List Expected}
    (h : read text = .error (.malformed i expected)) : ∃ front p rest, Refused text i front p rest := by
  rcases read_eq_error_iff.mp h with hrun | ⟨-, hcheck⟩
  · obtain ⟨front, back, p, hls, hconsumed, hsteps, ⟨rfl, rfl⟩ | ⟨lexeme, others, rfl, rfl, hstep⟩⟩ :=
      exists_refusal_of_run (.start .nil) hrun
    · obtain ⟨rest, hcut, hrest⟩ := exists_cut_stop 0 text
      rw [hls, List.append_nil] at hcut
      refine ⟨front, p, rest, hcut, hconsumed, hsteps, fun c behind heq => ?_⟩
      obtain ⟨hblank, hfirst⟩ := hrest c behind heq
      exact ⟨hblank, fun token width htoken => absurd (hfirst.symm.trans htoken) (by simp)⟩
    · obtain ⟨c, rest, width, hcut, hblank, hfirst⟩ := exists_cut 0 text hls
      refine ⟨front, p, c :: rest, hcut, hconsumed, hsteps, fun d behind heq => ?_⟩
      obtain ⟨rfl, rfl⟩ := List.cons.inj heq
      refine ⟨hblank, fun token width' htoken => ?_⟩
      obtain ⟨rfl, -⟩ := Prod.mk.inj (Option.some.inj (hfirst.symm.trans htoken))
      exact hstep
  · exact absurd hcheck (checkNumerals_ne_malformed _ _ _)

section refused

variable {text rest : Text} {i : Nat} {front : List Lexeme} {p : Progress}

theorem Refused.le_length (h : Refused text i front p rest) : i ≤ text.length := by
  obtain ⟨word, rfl, rfl, -⟩ := h.cut.split
  rw [List.length_append]
  omega

theorem Refused.viable (h : Refused text i front p rest) :
    ∃ more e, Renders (text.take i ++ more) e := by
  obtain ⟨word, rfl, rfl, hwritten, -⟩ := h.cut.split
  obtain ⟨others, more, e, he, hmore⟩ := h.consumed.completable (0 + word.length)
  rw [Nat.zero_add, List.take_left]
  exact ⟨more, e, front ++ others, he, hwritten.append hmore⟩

theorem HasLexemes.run_ne_malformed [CallStack] {e : Expr} {ls : List Lexeme} (h : HasLexemes e ls)
    (stop i : Nat) (expected : List Expected) :
    Progress.start.run stop true ls ≠ .error (.malformed i expected) := by
  rw [h.run_start]
  split <;> simp

/-- Nothing that goes on with the code point at the place of a refusal is an expression, unless the code
point is a quote. -/
theorem Refused.not_renders (h : Refused text i front p rest) {c : CodePoint}
    (hc : text[i]? = some c) (hquote : c ≠ '"') (more : Text) (e : Expr) :
    ¬ Renders (text.take (i + 1) ++ more) e := by
  obtain ⟨word, htext, hi, -, hcut⟩ := h.cut.split
  obtain rfl : i = word.length := by rw [hi, Nat.zero_add]
  have hrest : rest.head? = some c := by
    rw [htext, List.getElem?_append_right (Nat.le_refl _), Nat.sub_self] at hc
    rw [List.head?_eq_getElem?, hc]
  obtain ⟨behind, rfl⟩ := List.head?_eq_some_iff.mp hrest
  obtain ⟨hblank, hrefused⟩ := h.next c behind rfl
  have htake : text.take (word.length + 1) ++ more = word ++ c :: more := by
    rw [htext, List.take_length_add_append, List.take_succ_cons, List.take_zero, List.append_assoc,
      List.singleton_append]
  rw [htake]
  rintro ⟨ls, he, hwritten⟩
  have hlex := (hcut (c :: more) rfl).lex_eq.symm.trans (hwritten.lex_eq he.apart)
  have hkind := (Token.expected_of_first? hquote more).trans (Token.expected_of_first? hquote behind).symm
  cases hmore : Token.first? c more with
  | none =>
    rw [lex_none hblank hmore] at hlex
    exact absurd (congrArg Lexed.complete hlex) Bool.false_ne_true
  | some found =>
    obtain ⟨token, width⟩ := found
    rw [lex_token hblank hmore] at hlex
    obtain rfl : front ++ ⟨word.length, token⟩ :: _ = ls := (Lexed.mk.inj hlex).1
    have hstep : p.step? ⟨word.length, token⟩ = none := by
      rw [hmore, Option.map_some] at hkind
      obtain ⟨⟨token', width'⟩, hfound, hexpected⟩ := Option.map_eq_some_iff.mp hkind.symm
      have hnone := hrefused token' width' hfound
      rw [Progress.step?_eq_none_iff] at hnone ⊢
      rwa [← hexpected]
    have hsteps := (he.steps? (p := Progress.start) (.inl rfl)).1
    rw [Progress.steps?_append h.steps, Progress.steps?, hstep] at hsteps
    cases hsteps

end refused

theorem not_renders_of_malformed [CallStack] {text : Text} {i : Nat} {expected : List Expected}
    (h : read text = .error (.malformed i expected)) (e : Expr) : ¬ Renders text e := by
  rintro ⟨ls, he, hwritten⟩
  have hlex := hwritten.lex_eq he.apart
  rcases read_eq_error_iff.mp h with hrun | ⟨-, hcheck⟩
  · rw [hlex] at hrun
    exact he.run_ne_malformed _ _ _ hrun
  · exact checkNumerals_ne_malformed _ _ _ hcheck

/-- **A text that is no expression is refused behind a beginning of one.** If the stack has room for what
is read of it, the text up to the place of the refusal can be continued to the text of an expression. With the code point at the place it cannot,
unless that is a quote, which may open a string that does not end. -/
theorem read_malformed_viable [CallStack] (text : Text) (hroom : demand text ≤ CallStack.room)
    (hnone : ∀ e, ¬ Renders text e) :
    ∃ i expected, read text = .error (.malformed i expected) ∧ i ≤ text.length ∧
      (∃ more e, Renders (text.take i ++ more) e) ∧
      ∀ c, text[i]? = some c → c ≠ '"' → ∀ more e, ¬ Renders (text.take (i + 1) ++ more) e := by
  obtain ⟨i, expected, hread⟩ : ∃ i expected, read text = .error (.malformed i expected) := by
    cases hread : read text with
    | ok e => exact absurd (renders_of_read hread) (hnone e)
    | error error =>
      rcases read_eq_error_iff.mp hread with hrun | ⟨⟨e, hrun⟩, -⟩
      · rcases error_of_run hrun with ⟨i, expected, rfl⟩ | rfl
        · exact ⟨i, expected, rfl⟩
        · exact absurd (read_eq_nestedTooDeeply_iff.mp hread) (Nat.not_lt.mpr hroom)
      · obtain ⟨he, hcomplete⟩ := (Consumed.start .nil).hasLexemes_of_run hrun
        exact absurd ⟨_, he, written_of_lex hcomplete⟩ (hnone e)
  obtain ⟨front, p, rest, hrefused⟩ := exists_refused hread
  exact ⟨i, expected, hread, hrefused.le_length, hrefused.viable, fun c hc hquote more e =>
    hrefused.not_renders hc hquote more e⟩

/-- The theorem at a list in which a comma is missing. -/
theorem read_malformed_viable_comma :
    demand "join([\"a\" 5])" ≤ CallStack.room ∧ (∀ e, ¬ Renders "join([\"a\" 5])" e) ∧
      (∃ more e, Renders ("join([\"a\" " ++ more) e) ∧
      ∀ more e, ¬ Renders ("join([\"a\" 5" ++ more) e := by
  have hroom : demand "join([\"a\" 5])" ≤ CallStack.room := by decide +kernel
  have hread : read "join([\"a\" 5])" = .error (.malformed 10 [.comma, .closing .square]) := by cbv
  have hnone := not_renders_of_malformed hread
  obtain ⟨i, expected, hread', -, hviable, hrefused⟩ := read_malformed_viable _ hroom hnone
  cases hread.symm.trans hread'
  exact ⟨hroom, hnone, hviable, hrefused '5' rfl (by decide)⟩

/-- Lists that are never closed are no expression, but the usual stack has no room to find that out. -/
theorem read_openLists :
    nesting (openLists 90) ≤ 110 ∧ (∀ e, ¬ Renders (openLists 90) e) ∧
      read (openLists 90) = .error .nestedTooDeeply := by
  have hnesting : nesting (openLists 90) ≤ 110 := by decide +kernel
  have hdeep : CallStack.room < demand (openLists 90) := by decide +kernel
  have hrefused : (@read ⟨2000⟩ (openLists 90)).error? = some (.malformed 270 Expected.starts) := by
    decide +kernel
  exact ⟨hnesting, @not_renders_of_malformed ⟨2000⟩ _ _ _ (Except.error?_eq_some.mp hrefused),
    read_eq_nestedTooDeeply_iff.mpr hdeep⟩

end RandomText.Expr
