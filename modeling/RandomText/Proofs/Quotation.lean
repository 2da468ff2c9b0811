import RandomText.Proofs.Expr.Writing
import RandomText.Proofs.Pattern.Spelling

/-!
# Text between quotes

Literals of patterns and strings of expressions are written between double quotes, and the one reader
and the other agree on them: they look for the same closing quote and make the same text of what stands
before it (`upTo_quote`). Both are exact for the texts that strings are spelt with, and both read back
whatever is quoted, with any text behind it.
-/

namespace RandomText

/-! ### Writing -/

/-- Quoting escapes the backslashes first, and then the quotes; it makes no difference that it looks at
each code point once. -/
theorem Text.escaped_eq_replaced (t : Text) :
    t.escaped = Text.replaced '"' ['\\', '"'] (Text.replaced '\\' ['\\', '\\'] t) := by
  induction t with
  | nil => rfl
  | cons c t ih =>
    have hescaped : Text.escaped (c :: t) = Text.escaped [c] ++ Text.escaped t := by
      simp only [Text.escaped, List.flatMap_cons, List.flatMap_nil, List.append_nil]
    have hreplaced : Text.replaced '"' ['\\', '"'] (Text.replaced '\\' ['\\', '\\'] (c :: t)) =
        Text.replaced '"' ['\\', '"'] (Text.replaced '\\' ['\\', '\\'] [c]) ++
          Text.replaced '"' ['\\', '"'] (Text.replaced '\\' ['\\', '\\'] t) := by
      simp only [Text.replaced, List.flatMap_cons, List.flatMap_nil, List.flatMap_append,
        List.append_nil]
    rw [hescaped, hreplaced, ih]
    congr 1
    by_cases hslash : c = CodePoint.ofChar '\\'
    · subst hslash
      rfl
    · by_cases hquote : c = CodePoint.ofChar '"'
      · subst hquote
        rfl
      · simp [Text.escaped, Text.replaced, hslash, hquote]

theorem Text.quoted_append (t u : Text) :
    t.quoted ++ u = CodePoint.ofChar '"' :: (t.escaped ++ CodePoint.ofChar '"' :: u) := by
  have hquoted : t.quoted = CodePoint.ofChar '"' :: (t.escaped ++ [CodePoint.ofChar '"']) := rfl
  rw [hquoted, List.cons_append, List.append_assoc, List.singleton_append]

theorem Text.length_quoted (t : Text) : t.quoted.length = t.escaped.length + 2 := by
  have hquoted : t.quoted = CodePoint.ofChar '"' :: (t.escaped ++ [CodePoint.ofChar '"']) := rfl
  rw [hquoted, List.length_cons, List.length_append, List.length_singleton]

/-! ### Reading -/

/-- A literal reaches as far as a string and denotes the same text. -/
theorem upTo_quote (rest : Text) : Pattern.Token.upTo ['"'] rest =
    (Expr.Token.stringBody rest).map fun body => ⟨Expr.Token.unescape body, '"', body.length⟩ := by
  have hback : CodePoint.ofChar '\\' ∉ [CodePoint.ofChar '"'] := by decide
  fun_induction Expr.Token.stringBody rest with
  | case1 => rfl
  | case2 rest => exact Pattern.upTo_stop (List.mem_singleton_self _) rest
  | case3 hquote => rfl
  | case4 d rest hquote ih =>
    rw [Pattern.upTo_escaped hback, ih, Option.map_map, Option.map_map]
    rfl
  | case5 c rest hquote hslash ih =>
    rw [Pattern.upTo_plain (List.mem_singleton.not.mpr hquote) hslash, ih, Option.map_map,
      Option.map_map]
    congr 1
    funext body
    simp only [Function.comp_apply, Expr.Token.unescape_plain hslash, List.length_cons]

theorem first_quote (i : Nat) (rest : Text) : Pattern.Token.first i '"' rest =
    match Expr.Token.stringBody rest with
    | none => .error ⟨i, .fault ⟨.unclosed ['"'], i + 1 + rest.length⟩, i + 1 + rest.length, none⟩
    | some body => .ok ⟨i, .atom (.literal (Expr.Token.unescape body)), i + 1 + (body.length + 1)⟩ := by
  rw [Pattern.Token.first, if_pos rfl, Pattern.Token.enclosed, upTo_quote]
  cases Expr.Token.stringBody rest <;> rfl

theorem first?_quote (rest : Text) : Expr.Token.first? '"' rest =
    (Expr.Token.stringBody rest).map fun body =>
      (.string (Expr.Token.unescape body), body.length + 1) := by
  rw [Expr.Token.first?, if_pos rfl]

theorem stringBody_quoted (t u : Text) :
    Expr.Token.stringBody (t.escaped ++ CodePoint.ofChar '"' :: u) = some t.escaped :=
  (Expr.unescapes_escaped t).stringBody_eq u

theorem unescape_quoted (t : Text) : Expr.Token.unescape t.escaped = t :=
  (Expr.unescapes_escaped t).unescape_eq

theorem scan_quoted (i : Nat) (t u : Text) :
    Pattern.Token.scan i (t.quoted ++ u) =
      (⟨i, .atom (.literal t), i + t.quoted.length⟩ :: (Pattern.Token.scan (i + t.quoted.length) u).1,
        (Pattern.Token.scan (i + t.quoted.length) u).2) := by
  have hfirst : Pattern.Token.first i '"' (t.escaped ++ CodePoint.ofChar '"' :: u) =
      .ok ⟨i, .atom (.literal t), i + t.quoted.length⟩ := by
    rw [first_quote, stringBody_quoted, Text.length_quoted]
    simp only [unescape_quoted]
    congr 2
    omega
  have hstop : i + t.quoted.length - (i + 1) = t.escaped.length + 1 := by
    rw [Text.length_quoted]
    omega
  rw [Text.quoted_append, Pattern.Token.scan, hfirst]
  simp only [hstop, ← List.drop_drop, List.drop_left, List.drop_one, List.tail_cons]

theorem lex_quoted (i : Nat) (t u : Text) :
    Expr.Token.lex i (t.quoted ++ u) =
      (Expr.Token.lex (i + t.quoted.length) u).behind [⟨i, .string t⟩] := by
  have hfirst : Expr.Token.first? '"' (t.escaped ++ CodePoint.ofChar '"' :: u) =
      some (.string t, t.escaped.length + 1) := by
    rw [first?_quote, stringBody_quoted, Option.map_some, unescape_quoted]
  rw [Text.quoted_append, Expr.lex_token (by decide) hfirst, ← List.drop_drop, List.drop_left,
    Text.length_quoted]
  congr 2
  omega

theorem read_quoted_pattern (settings : Pattern.Settings) (t : Text) :
    Pattern.read settings t.quoted = .ok (.group (.once (settings.at t.quoted 0)) .root
      [.leaf (.once (settings.at t.quoted 0)) (.literal t)]) := by
  have hscan := scan_quoted 0 t []
  rw [List.append_nil, Pattern.Token.scan] at hscan
  rw [Pattern.read, Pattern.reading, hscan]
  rfl

theorem read_quoted_expr [Expr.CallStack] (t : Text) : Expr.read t.quoted = .ok (.string 0 t) := by
  have hspells := Expr.spells_string 0 t
  have hdemand : Expr.demand t.quoted = 0 := Expr.demand_of_renders hspells.renders
  exact hspells.read (by rw [hdemand]; exact Nat.zero_le _)

/-- The two readers of quoted text agree with each other and with its writer. Behind an opening
quote either both find no closing quote, and no string is spelt there, or both stop behind the same
quote with the same text, and the only string that is spelt there is this one. A quoted text is read back
by both with any text behind it; alone it is a pattern of one literal and an expression of one string. -/
theorem quotation_readers_agree [Expr.CallStack] :
    (∀ (i : Nat) (rest : Text),
      (Pattern.Token.first i '"' rest =
          .error ⟨i, .fault ⟨.unclosed ['"'], i + 1 + rest.length⟩, i + 1 + rest.length, none⟩ ∧
        Expr.Token.first? '"' rest = none ∧
        ∀ word after value, rest = word ++ after →
          ¬ (Expr.Token.string value).Spelt (CodePoint.ofChar '"' :: word)) ∨
      ∃ text width,
        Pattern.Token.first i '"' rest = .ok ⟨i, .atom (.literal text), i + 1 + width⟩ ∧
        Expr.Token.first? '"' rest = some (.string text, width) ∧
        ∀ word after value, rest = word ++ after →
          ((Expr.Token.string value).Spelt (CodePoint.ofChar '"' :: word) ↔
            value = text ∧ word.length = width)) ∧
    (∀ (i : Nat) (t u : Text),
      Pattern.Token.scan i (t.quoted ++ u) =
        (⟨i, .atom (.literal t), i + t.quoted.length⟩ ::
          (Pattern.Token.scan (i + t.quoted.length) u).1,
          (Pattern.Token.scan (i + t.quoted.length) u).2) ∧
      Expr.Token.lex i (t.quoted ++ u) =
        (Expr.Token.lex (i + t.quoted.length) u).behind [⟨i, .string t⟩]) ∧
    ∀ t : Text,
      t.quoted =
        "\"" ++ Text.replaced '"' ['\\', '"'] (Text.replaced '\\' ['\\', '\\'] t) ++ "\"" ∧
      (∀ settings, Pattern.read settings t.quoted =
        .ok (.group (.once (settings.at t.quoted 0)) .root
          [.leaf (.once (settings.at t.quoted 0)) (.literal t)])) ∧
      Expr.read t.quoted = .ok (.string 0 t) := by
  refine ⟨fun i rest => ?_, fun i t u => ⟨scan_quoted i t u, lex_quoted i t u⟩, fun t => ?_⟩
  · have hpattern := first_quote i rest
    have hexpr := first?_quote rest
    have hspelt : ∀ word after value, rest = word ++ after →
        ((Expr.Token.string value).Spelt (CodePoint.ofChar '"' :: word) ↔
          Expr.Token.first? '"' rest = some (.string value, word.length)) := by
      rintro word after value rfl
      exact (Expr.Token.first?_eq_some_iff rfl after).symm
    cases hbody : Expr.Token.stringBody rest with
    | none =>
      rw [hbody] at hpattern hexpr
      refine .inl ⟨hpattern, hexpr, fun word after value hrest => ?_⟩
      rw [hspelt word after value hrest, hexpr]
      exact nofun
    | some body =>
      rw [hbody] at hpattern hexpr
      refine .inr ⟨_, _, hpattern, hexpr, fun word after value hrest => ?_⟩
      rw [hspelt word after value hrest, hexpr, Option.map_some, Option.some.injEq, Prod.mk.injEq,
        Expr.Token.string.injEq]
      exact and_congr eq_comm eq_comm
  · refine ⟨?_, fun settings => read_quoted_pattern settings t, read_quoted_expr t⟩
    rw [Text.quoted, Text.escaped_eq_replaced]

end RandomText
