import Mathlib.Data.List.TakeWhile
import RandomText.Proofs.Expr.Rendering

/-!
# Cutting a text into lexemes

A text that `Token.lex` cuts completely is written with the lexemes that it returns
(`written_of_lex`), and a text that is written with lexemes of which no two words are neighbours is
cut into them (`Written.lex_eq`).
-/

namespace RandomText.Expr

/-! ### Strings -/

theorem Token.unescape_plain {c : CodePoint} (hc : c ≠ '\\') (rest : Text) :
    Token.unescape (c :: rest) = c :: Token.unescape rest := by
  rw [Token.unescape.eq_def]
  simp only [if_neg hc]

theorem Token.unescape_escaped (c : CodePoint) (rest : Text) :
    Token.unescape ('\\' :: c :: rest) = c :: Token.unescape rest := by
  rw [Token.unescape.eq_def]
  simp only [if_pos]

theorem Unescapes.unescape_eq {body value : Text} (h : Unescapes body value) :
    Token.unescape body = value := by
  induction h with
  | nil => rfl
  | plain _ hslash _ ih => rw [Token.unescape_plain hslash, ih]
  | escaped _ ih => rw [Token.unescape_escaped, ih]

theorem Unescapes.stringBody_eq {body value : Text} (h : Unescapes body value) (rest : Text) :
    Token.stringBody (body ++ ('"' :: rest : Text)) = some body := by
  induction h with
  | nil =>
    rw [List.nil_append, Token.stringBody.eq_def]
    simp only [if_pos]
  | plain hquote hslash _ ih =>
    rw [List.cons_append, Token.stringBody.eq_def]
    simp only [if_neg hquote, if_neg hslash, ih, Option.map_some]
  | escaped _ ih =>
    rw [List.cons_append, List.cons_append, Token.stringBody.eq_def]
    have hquote : CodePoint.ofChar '\\' ≠ '"' := by decide
    simp only [if_neg hquote, if_pos, ih, Option.map_some]

theorem unescapes_of_stringBody {t body : Text} (h : Token.stringBody t = some body) :
    ∃ rest, t = body ++ ('"' :: rest : Text) ∧ Unescapes body (Token.unescape body) := by
  fun_induction Token.stringBody t generalizing body with
  | case1 => simp at h
  | case2 rest =>
    obtain rfl := Option.some.inj h
    exact ⟨rest, rfl, .nil⟩
  | case3 => simp at h
  | case4 d rest hquote ih =>
    obtain ⟨inner, hinner, rfl⟩ := Option.map_eq_some_iff.mp h
    obtain ⟨after, rfl, hunescapes⟩ := ih hinner
    refine ⟨after, rfl, ?_⟩
    rw [Token.unescape_escaped]
    exact .escaped hunescapes
  | case5 c rest hquote hslash ih =>
    obtain ⟨inner, hinner, rfl⟩ := Option.map_eq_some_iff.mp h
    obtain ⟨after, rfl, hunescapes⟩ := ih hinner
    refine ⟨after, rfl, ?_⟩
    rw [Token.unescape_plain hslash]
    exact .plain hquote hslash hunescapes

/-! ### Character classes -/

theorem isNamePart_of_isDigit {c : CodePoint} (h : c.isDigit = true) :
    Token.isNamePart c = true := by
  simp [Token.isNamePart, h]

theorem isNamePart_of_isNameStart {c : CodePoint} (h : Token.isNameStart c = true) :
    Token.isNamePart c = true := by
  simp [Token.isNamePart, h]

theorem not_isNamePart_of_isBlank {c : CodePoint} (h : Token.isBlank c = true) :
    Token.isNamePart c = false := by
  simp only [Token.isBlank, Bool.or_eq_true, decide_eq_true_eq, CodePoint.eq_ofChar_iff,
    Char.reduceToNat] at h
  simp only [Token.isNamePart, Token.isNameStart, CodePoint.isLetter, CodePoint.isDigit,
    CodePoint.eq_ofChar_iff, Char.reduceToNat, Bool.or_eq_false_iff, Bool.and_eq_false_iff,
    decide_eq_false_iff_not]
  omega

theorem not_isBlank_of_isNamePart {c : CodePoint} (h : Token.isNamePart c = true) :
    Token.isBlank c = false := by
  cases hblank : Token.isBlank c with
  | false => rfl
  | true => rw [not_isNamePart_of_isBlank hblank] at h; simp at h

theorem not_isDigit_of_isNameStart {c : CodePoint} (h : Token.isNameStart c = true) :
    c.isDigit = false := by
  simp only [Token.isNameStart, CodePoint.isLetter, CodePoint.eq_ofChar_iff, Char.reduceToNat,
    Bool.or_eq_true, Bool.and_eq_true, decide_eq_true_eq] at h
  simp only [CodePoint.isDigit, Bool.and_eq_false_iff, decide_eq_false_iff_not]
  omega

/-- Names and integers end before anything that is no part of a name. -/
def Ends (t : Text) : Prop := ∀ c ∈ t.head?, Token.isNamePart c = false

theorem takeWhile_append_of_ends {p : CodePoint → Bool} {run after : Text}
    (hp : ∀ c, p c = true → Token.isNamePart c = true) (hrun : ∀ c ∈ run, p c = true)
    (hafter : Ends after) : (run ++ after).takeWhile p = run := by
  rw [List.takeWhile_append_of_pos hrun]
  cases after with
  | nil => simp
  | cons c after =>
    have hc : p c = false := by
      have hpart := hafter c rfl
      by_contra hne
      rw [hp c (by simpa using hne)] at hpart
      simp at hpart
    rw [List.takeWhile_cons, hc]
    simp

/-! ### One token -/

theorem Token.Spelt.first? {token : Token} {word after : Text} (h : token.Spelt word)
    (hafter : token.isWord = true → Ends after) :
    ∃ c rest, word = c :: rest ∧ Token.isBlank c = false ∧
      Token.first? c (rest ++ after) = some (token, rest.length) := by
  cases h with
  | @string body value hbody =>
    refine ⟨'"', body ++ [CodePoint.ofChar '"'], rfl, rfl, ?_⟩
    rw [Token.first?, if_pos rfl, List.append_assoc, List.singleton_append,
      hbody.stringBody_eq, Option.map_some, hbody.unescape_eq, List.length_append]
    rfl
  | @integer c digits hc hdigits =>
    have hquote : c ≠ '"' := by
      rintro rfl
      exact absurd hc (by decide)
    refine ⟨c, digits, rfl, not_isBlank_of_isNamePart (isNamePart_of_isDigit hc), ?_⟩
    rw [Token.first?, if_neg hquote, if_pos hc]
    simp only [takeWhile_append_of_ends (fun _ => isNamePart_of_isDigit) hdigits (hafter rfl)]
  | @name c part hc hpart =>
    have hquote : c ≠ '"' := by
      rintro rfl
      exact absurd hc (by decide)
    refine ⟨c, part, rfl, not_isBlank_of_isNamePart (isNamePart_of_isNameStart hc), ?_⟩
    rw [Token.first?, if_neg hquote,
      if_neg (by simp [not_isDigit_of_isNameStart hc]), if_pos hc]
    simp only [takeWhile_append_of_ends (fun _ => id) hpart (hafter rfl)]
  | openSquare => exact ⟨'[', [], rfl, rfl, rfl⟩
  | closeSquare => exact ⟨']', [], rfl, rfl, rfl⟩
  | openRound => exact ⟨'(', [], rfl, rfl, rfl⟩
  | closeRound => exact ⟨')', [], rfl, rfl, rfl⟩
  | comma => exact ⟨',', [], rfl, rfl, rfl⟩

theorem Token.spelt_of_mark? {c : CodePoint} {token : Token} (h : Token.mark? c = some token) :
    token.Spelt [c] := by
  simp only [Token.mark?] at h
  split at h
  · obtain rfl := Option.some.inj h
    subst c
    exact .openSquare
  split at h
  · obtain rfl := Option.some.inj h
    subst c
    exact .closeSquare
  split at h
  · obtain rfl := Option.some.inj h
    subst c
    exact .openRound
  split at h
  · obtain rfl := Option.some.inj h
    subst c
    exact .closeRound
  split at h
  · obtain rfl := Option.some.inj h
    subst c
    exact .comma
  · simp at h

theorem Token.spelt_of_first? {c : CodePoint} {rest : Text} {token : Token} {width : Nat}
    (h : Token.first? c rest = some (token, width)) :
    ∃ word, rest = word ++ rest.drop width ∧ word.length = width ∧ token.Spelt (c :: word) := by
  simp only [Token.first?] at h
  split at h
  · subst c
    obtain ⟨body, hbody, heq⟩ := Option.map_eq_some_iff.mp h
    obtain ⟨rfl, rfl⟩ := Prod.mk.inj heq
    obtain ⟨after, rfl, hunescapes⟩ := unescapes_of_stringBody hbody
    refine ⟨body ++ [CodePoint.ofChar '"'], ?_, by simp, .string hunescapes⟩
    rw [← List.drop_drop, List.drop_left]
    simp
  split at h
  · next hdigit =>
    obtain ⟨rfl, rfl⟩ := Prod.mk.inj (Option.some.inj h)
    exact ⟨rest.takeWhile CodePoint.isDigit,
      (List.prefix_iff_eq_append.mp (List.takeWhile_prefix _)).symm, rfl,
      .integer hdigit fun d hd => List.mem_takeWhile_imp hd⟩
  split at h
  · next hstart =>
    obtain ⟨rfl, rfl⟩ := Prod.mk.inj (Option.some.inj h)
    exact ⟨rest.takeWhile Token.isNamePart,
      (List.prefix_iff_eq_append.mp (List.takeWhile_prefix _)).symm, rfl,
      .name hstart fun d hd => List.mem_takeWhile_imp hd⟩
  · obtain ⟨mark, hmark, heq⟩ := Option.map_eq_some_iff.mp h
    obtain ⟨rfl, rfl⟩ := Prod.mk.inj heq
    exact ⟨[], rfl, rfl, Token.spelt_of_mark? hmark⟩

theorem Token.first?_eq_some_iff {c : CodePoint} {word : Text} {token : Token}
    (htoken : token.isWord = false) (after : Text) :
    Token.first? c (word ++ after) = some (token, word.length) ↔ token.Spelt (c :: word) := by
  constructor
  · intro h
    obtain ⟨front, hfront, hlength, hspelt⟩ := Token.spelt_of_first? h
    rwa [(List.append_inj hfront hlength.symm).1]
  · intro h
    have hends : token.isWord = true → Ends after := by simp [htoken]
    obtain ⟨d, rest, heq, -, hfirst⟩ := h.first? hends
    obtain ⟨rfl, rfl⟩ := List.cons.inj heq
    exact hfirst

/-! ### All tokens -/

/-- The lexemes in front of those of a cut text. -/
def Lexed.behind (front : List Lexeme) (lexed : Lexed) : Lexed :=
  { lexed with lexemes := front ++ lexed.lexemes }

theorem lex_blank {c : CodePoint} (h : Token.isBlank c = true) (i : Nat) (t : Text) :
    Token.lex i (c :: t) = Token.lex (i + 1) t := by
  rw [Token.lex, if_pos h]

theorem lex_token {c : CodePoint} {t : Text} {token : Token} {width : Nat}
    (hblank : Token.isBlank c = false) (h : Token.first? c t = some (token, width)) (i : Nat) :
    Token.lex i (c :: t) = (Token.lex (i + 1 + width) (t.drop width)).behind [⟨i, token⟩] := by
  rw [Token.lex, if_neg (by rw [hblank]; exact Bool.false_ne_true), h]
  rfl

theorem lex_none {c : CodePoint} {t : Text} (hblank : Token.isBlank c = false)
    (h : Token.first? c t = none) (i : Nat) : Token.lex i (c :: t) = ⟨[], i, false⟩ := by
  rw [Token.lex, if_neg (by rw [hblank]; exact Bool.false_ne_true), h]

theorem Written.gap_append {i : Nat} {gap t : Text} {ls : List Lexeme}
    (h : Written (i + gap.length) ls t) (hgap : IsGap gap) : Written i ls (gap ++ t) := by
  cases h with
  | nil hinner =>
    refine .nil fun c hc => ?_
    rcases List.mem_append.mp hc with hc | hc
    · exact hgap c hc
    · exact hinner c hc
  | @cons _ inner word t lexeme rest hinner hindex hword hrest =>
    rw [← List.append_assoc]
    refine .cons (fun c hc => ?_) (by rw [hindex, List.length_append]; omega) hword hrest
    rcases List.mem_append.mp hc with hc | hc
    · exact hgap c hc
    · exact hinner c hc

theorem written_of_lex {i : Nat} {t : Text} (h : (Token.lex i t).complete = true) :
    Written i (Token.lex i t).lexemes t := by
  fun_induction Token.lex i t with
  | case1 i => exact .nil (by simp [IsGap])
  | case2 i c rest hblank ih =>
    have hgap : IsGap [c] := by simpa [IsGap] using hblank
    exact (ih h).gap_append hgap
  | case3 => simp at h
  | case4 i c rest hblank token width hfirst others ih =>
    obtain ⟨word, hrest, hwidth, hspelt⟩ := Token.spelt_of_first? hfirst
    have hnext : i + (c :: word).length = i + 1 + width := by
      rw [List.length_cons, hwidth]
      omega
    have hothers : Written (i + (c :: word).length) others.lexemes (rest.drop width) := by
      rw [hnext]
      exact ih h
    have hcons := @Written.cons i [] (c :: word) _ ⟨i, token⟩ _ (by simp [IsGap]) rfl hspelt hothers
    rwa [List.nil_append, List.cons_append, ← hrest] at hcons

theorem lex_gap {gap : Text} (hgap : IsGap gap) (i : Nat) (t : Text) :
    Token.lex i (gap ++ t) = Token.lex (i + gap.length) t := by
  induction gap generalizing i with
  | nil => rfl
  | cons c gap ih =>
    rw [List.cons_append, Token.lex, if_pos (hgap c (by simp)),
      ih (fun d hd => hgap d (by simp [hd])), List.length_cons]
    congr 1
    omega

/-- No two words are neighbours. -/
def Apart (ls : List Lexeme) : Prop :=
  ls.IsChain fun a b => a.token.isWord = false ∨ b.token.isWord = false

theorem ends_of_isGap {gap : Text} (h : IsGap gap) (hne : gap ≠ []) (t : Text) :
    Ends (gap ++ t) := by
  cases gap with
  | nil => exact absurd rfl hne
  | cons c gap =>
    intro d hd
    obtain rfl := Option.some.inj hd
    exact not_isNamePart_of_isBlank (h c (by simp))

theorem Token.Spelt.ends {token : Token} {word : Text} (h : token.Spelt word)
    (htoken : token.isWord = false) (t : Text) : Ends (word ++ t) := by
  cases h with
  | integer => simp [Token.isWord] at htoken
  | name => simp [Token.isWord] at htoken
  | _ =>
    intro d hd
    obtain rfl := Option.some.inj hd
    rfl

theorem Written.ends {i : Nat} {ls : List Lexeme} {t : Text} (h : Written i ls t)
    (hhead : ∀ lexeme ∈ ls.head?, lexeme.token.isWord = false) : Ends t := by
  cases h with
  | nil hgap =>
    by_cases hne : t = []
    · simp [Ends, hne]
    · simpa using ends_of_isGap hgap hne []
  | @cons _ gap word t lexeme rest hgap _ hword _ =>
    by_cases hne : gap = []
    · subst hne
      exact hword.ends (hhead lexeme rfl) t
    · exact ends_of_isGap hgap hne _

/-- A text that is written with lexemes of which no two words are neighbours is cut into them. -/
theorem Written.lex_eq {i : Nat} {ls : List Lexeme} {t : Text} (h : Written i ls t)
    (hapart : Apart ls) : Token.lex i t = ⟨ls, i + t.length, true⟩ := by
  induction h with
  | @nil i gap hgap =>
    have hlex := lex_gap hgap i []
    rw [List.append_nil] at hlex
    rw [hlex, Token.lex]
  | @cons i gap word t lexeme rest hgap hindex hword hrest ih =>
    have hafter : lexeme.token.isWord = true → Ends t := by
      intro htoken
      refine hrest.ends fun next hnext => ?_
      obtain ⟨tail, rfl⟩ : ∃ tail, rest = next :: tail := List.head?_eq_some_iff.mp hnext
      have := List.rel_of_isChain_cons_cons hapart
      simpa [htoken] using this
    obtain ⟨c, tail, rfl, hblank, hfirst⟩ := hword.first? hafter
    rw [lex_gap hgap, ← hindex, List.cons_append, Token.lex, if_neg (by simp [hblank]), hfirst]
    have hdrop : (tail ++ t).drop tail.length = t := List.drop_left
    have hnext : lexeme.index + 1 + tail.length = lexeme.index + (c :: tail).length := by
      rw [List.length_cons]
      omega
    have hstop : lexeme.index + (c :: tail).length + t.length =
        i + (gap ++ c :: (tail ++ t)).length := by
      simp only [hindex, List.length_append, List.length_cons]
      omega
    simp only [hdrop, hnext, ih hapart.tail, hstop]

end RandomText.Expr
