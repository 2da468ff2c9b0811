import RandomText.Pattern.Lower
import RandomText.Proofs.Expr.Reading
import RandomText.Proofs.Numeral

/-!
# Writing expressions

Texts of expressions put together from texts of their parts. `Spells` says of a text that it
renders an expression whose integers are short enough to be read, so that the reader takes it if the
stack has room for its frames.
-/

namespace RandomText.Expr

/-- The text, which begins at index `i`, renders `e` with short integers. -/
def Spells (i : Nat) (t : Text) (e : Expr) : Prop :=
  ∃ ls, HasLexemes e ls ∧ Written i ls t ∧ ShortIntegers ls

/-- The same of expressions with commas between them. -/
def SpellsAll (i : Nat) (t : Text) (es : List Expr) : Prop :=
  ∃ ls, ItemsHaveLexemes es ls ∧ Written i ls t ∧ ShortIntegers ls

theorem Spells.renders {t : Text} {e : Expr} (h : Spells 0 t e) : Renders t e := by
  obtain ⟨ls, he, hwritten, -⟩ := h
  exact ⟨ls, he, hwritten⟩

/-- The reader takes what spells an expression. -/
theorem Spells.read [CallStack] {t : Text} {e : Expr} (h : Spells 0 t e)
    (hroom : demand t ≤ CallStack.room) : read t = .ok e := by
  rw [demand_of_renders h.renders] at hroom
  obtain ⟨ls, he, hwritten, hshort⟩ := h
  exact read_of_written he hwritten hroom hshort

/-! ### Written lexemes -/

theorem Written.append {i : Nat} {ls ls' : List Lexeme} {s t : Text} (h : Written i ls s)
    (h' : Written (i + s.length) ls' t) : Written i (ls ++ ls') (s ++ t) := by
  induction h with
  | nil hgap => exact h'.gap_append hgap
  | @cons i gap word s lexeme rest hgap hindex hword _ ih =>
    have hnext : lexeme.index + word.length + s.length = i + (gap ++ (word ++ s)).length := by
      rw [hindex]
      simp only [List.length_append]
      omega
    rw [← hnext] at h'
    rw [List.append_assoc, List.append_assoc]
    exact .cons hgap hindex hword (ih h')

theorem written_token {token : Token} {word : Text} (h : token.Spelt word) (i : Nat) :
    Written i [⟨i, token⟩] word := by
  have hnil : IsGap [] := nofun
  have hwritten := @Written.cons i [] word [] ⟨i, token⟩ [] hnil rfl h (.nil hnil)
  rw [List.nil_append, List.append_nil] at hwritten
  exact hwritten

theorem ShortIntegers.append {ls ls' : List Lexeme} (h : ShortIntegers ls) (h' : ShortIntegers ls') :
    ShortIntegers (ls ++ ls') := by
  intro lexeme hlexeme
  rcases List.mem_append.mp hlexeme with hls | hls
  · exact h lexeme hls
  · exact h' lexeme hls

theorem shortIntegers_token {i : Nat} {token : Token} (h : ∀ digits, token ≠ .integer digits) :
    ShortIntegers [⟨i, token⟩] := by
  intro lexeme hlexeme digits hdigits
  obtain rfl := List.mem_singleton.mp hlexeme
  exact absurd hdigits (h digits)

/-! ### Leaves -/

theorem unescapes_escaped (t : Text) : Unescapes (Text.escaped t) t := by
  induction t with
  | nil => exact .nil
  | cons c t ih =>
    have hcons : Text.escaped (c :: t) =
        (if c = CodePoint.ofChar '\\' ∨ c = CodePoint.ofChar '"' then [CodePoint.ofChar '\\', c]
          else [c]) ++ Text.escaped t := List.flatMap_cons
    rw [hcons]
    by_cases hc : c = CodePoint.ofChar '\\' ∨ c = CodePoint.ofChar '"'
    · rw [if_pos hc]
      exact .escaped ih
    · rw [if_neg hc]
      obtain ⟨hslash, hquote⟩ := not_or.mp hc
      exact .plain hquote hslash ih

theorem spells_string (i : Nat) (t : Text) : Spells i t.quoted (.string i t) := by
  refine ⟨_, .string, written_token ?_ i, shortIntegers_token (by nofun)⟩
  exact .string (unescapes_escaped t)

theorem Token.spelt_integer {digits : Text} (hne : digits ≠ []) (h : ∀ c ∈ digits, c.isDigit = true) :
    (Token.integer digits).Spelt digits := by
  cases digits with
  | nil => exact absurd rfl hne
  | cons c rest =>
    obtain ⟨hc, hrest⟩ := List.forall_mem_cons.mp h
    exact .integer hc hrest

theorem spells_integer (i : Nat) {n : Nat} (h : n < 10 ^ Numeral.maxDigits) :
    Spells i (Numeral.digits n) (.integer i n) := by
  have hlexemes : HasLexemes (.integer i n) [⟨i, .integer (Numeral.digits n)⟩] := by
    have hvalue := @HasLexemes.integer i (Numeral.digits n)
    rw [Numeral.value_digits] at hvalue
    exact hvalue
  have hspelt := Token.spelt_integer (Numeral.digits_ne_nil n) fun _ hc =>
    Numeral.isDigit_of_mem_digits hc
  refine ⟨_, hlexemes, written_token hspelt i, ?_⟩
  intro lexeme hlexeme digits hdigits
  obtain rfl := List.mem_singleton.mp hlexeme
  obtain rfl := Token.integer.inj hdigits
  exact Numeral.length_digits_le_iff.mpr h

/-! ### Brackets -/

theorem SpellsAll.nil (i : Nat) : SpellsAll i [] [] := ⟨[], .nil, .nil nofun, nofun⟩

theorem SpellsAll.one {i : Nat} {t : Text} {e : Expr} (h : Spells i t e) : SpellsAll i t [e] := by
  obtain ⟨ls, he, hwritten, hshort⟩ := h
  exact ⟨ls, .one he, hwritten, hshort⟩

theorem SpellsAll.more {i : Nat} {s t : Text} {e : Expr} {es : List Expr} (h : Spells i s e)
    (hne : es ≠ []) (hes : SpellsAll (i + s.length + 2) t es) :
    SpellsAll i (s ++ (CodePoint.ofChar ',' :: CodePoint.ofChar ' ' :: t)) (e :: es) := by
  obtain ⟨ls, he, hwritten, hshort⟩ := h
  obtain ⟨ls', hes, hwritten', hshort'⟩ := hes
  have hgap : IsGap [CodePoint.ofChar ' '] := by
    intro c hc
    obtain rfl := List.mem_singleton.mp hc
    decide
  have hcomma := (written_token .comma (i + s.length)).append
    (@Written.gap_append (i + s.length + 1) [CodePoint.ofChar ' '] t ls' hwritten' hgap)
  refine ⟨_, .more hne he hes, hwritten.append hcomma, ?_⟩
  exact hshort.append ((shortIntegers_token (by nofun)).append hshort')

theorem Spells.list {i : Nat} {t : Text} {es : List Expr} (h : SpellsAll (i + 1) t es) :
    Spells i (CodePoint.ofChar '[' :: (t ++ [CodePoint.ofChar ']'])) (.list i es) := by
  obtain ⟨ls, hes, hwritten, hshort⟩ := h
  have hclose := hwritten.append (written_token .closeSquare (i + 1 + t.length))
  have hopen := (written_token .openSquare i).append hclose
  refine ⟨_, .list hes, hopen, ?_⟩
  exact (shortIntegers_token (by nofun)).append (hshort.append (shortIntegers_token (by nofun)))

/-- A name that a call may have. -/
def IsName (name : Text) : Prop := (Token.name name).Spelt name

theorem Spells.call {i : Nat} {name t : Text} {es : List Expr} (hname : IsName name)
    (h : SpellsAll (i + name.length + 1) t es) :
    Spells i (name ++ CodePoint.ofChar '(' :: (t ++ [CodePoint.ofChar ')'])) (.call i name es) := by
  obtain ⟨ls, hes, hwritten, hshort⟩ := h
  have hclose := hwritten.append (written_token .closeRound (i + name.length + 1 + t.length))
  have hopen := (written_token .openRound (i + name.length)).append hclose
  have hcall := (written_token hname i).append hopen
  refine ⟨_, .call hes, hcall, ?_⟩
  exact (shortIntegers_token (by nofun)).append ((shortIntegers_token (by nofun)).append
    (hshort.append (shortIntegers_token (by nofun))))

end RandomText.Expr
