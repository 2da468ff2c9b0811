import Mathlib.Data.List.Induction
import RandomText.Pattern.Position

/-!
# Coordinates of an index

Line and column of a position are the exact coordinates of its index in the lines of the text
(`Coordinates`): the lines before it, each with its line feed, and the column add up to the index. What
stands before the index falls into complete lines and the beginning of one more, at which the text goes
on (`exists_lines_append`). A place on a later line, or further on in the same line, has the greater
index (`Coordinates.lt`), so that indices and coordinates come in the same order.
-/

namespace RandomText

namespace Text

/-! ### Lines -/

/-- The lines of a text, without the line feeds between them. -/
def lines (t : Text) : List Text := t.splitOn (CodePoint.ofChar '\n')

/-- How many code points the lines take, each with a line feed behind it. -/
def span : List Text → Nat
  | [] => 0
  | line :: rest => line.length + 1 + span rest

theorem span_append (xs ys : List Text) : span (xs ++ ys) = span xs + span ys := by
  induction xs with
  | nil => simp [span]
  | cons line rest ih => simp [span, ih, Nat.add_assoc]

theorem span_singleton (line : Text) : span [line] = line.length + 1 := by
  simp [span]

theorem lines_cons (c : CodePoint) (t : Text) :
    lines (c :: t) = if c = '\n' then [] :: lines t else (lines t).modifyHead (List.cons c) := by
  simp [lines, List.splitOn_cons_eq_if_modifyHead]

/-- The beginning of the last line. -/
def lastLine (t : Text) : Text := (t.reverse.takeWhile (· ≠ CodePoint.ofChar '\n')).reverse

theorem lastLine_concat (t : Text) (c : CodePoint) :
    lastLine (t ++ [c]) = if c = '\n' then [] else lastLine t ++ [c] := by
  by_cases hc : c = '\n' <;> simp [lastLine, hc]

/-- A text falls into complete lines and the beginning of one more, at which the text may go on. -/
theorem exists_lines_append (before behind : Text) :
    ∃ complete, lines (before ++ behind) =
        complete ++ (lines behind).modifyHead (lastLine before ++ ·) ∧
      complete.length = before.count (CodePoint.ofChar '\n') ∧
      span complete + (lastLine before).length = before.length := by
  -- The code point at the end goes over to the text that follows.
  induction before using List.reverseRecOn generalizing behind with
  | nil =>
    refine ⟨[], ?_, rfl, rfl⟩
    show lines behind = (lines behind).modifyHead fun line => line
    cases lines behind <;> rfl
  | append_singleton before c ih =>
    obtain ⟨complete, hlines, hcount, hspan⟩ := ih (c :: behind)
    rw [List.append_assoc, List.singleton_append, hlines, lines_cons, lastLine_concat]
    by_cases hc : c = '\n'
    · refine ⟨complete ++ [lastLine before], ?_, ?_, ?_⟩
      · simp only [if_pos hc, List.modifyHead_cons, List.append_nil, List.append_assoc]
        cases lines behind <;> rfl
      · simp [hc, hcount]
      · simp only [if_pos hc, span_append, span_singleton, List.length_append, List.length_nil,
          List.length_singleton]
        omega
    · refine ⟨complete, ?_, ?_, ?_⟩
      · simp only [if_neg hc, List.modifyHead_modifyHead]
        congr 2
        funext line
        simp
      · simp [hc, hcount]
      · simp only [if_neg hc, List.length_append, List.length_singleton]
        omega

end Text

/-! ### Coordinates -/

/-- Line and column, counted from one, are those of the index: the column lies on the line or right
behind its end, and together with the lines before it makes up the index. -/
structure Coordinates (lines : List Text) (line column index : Nat) : Prop where
  one_le_line : 1 ≤ line
  one_le_column : 1 ≤ column
  column_le : ∃ text, lines[line - 1]? = some text ∧ column ≤ text.length + 1
  index_eq : Text.span (lines.take (line - 1)) + (column - 1) = index

namespace Coordinates

variable {lines : List Text} {line column index line' column' index' : Nat}

theorem index_lt (h : Coordinates lines line column index)
    (h' : Coordinates lines line' column' index') (hlt : line < line') : index < index' := by
  obtain ⟨text, htext, hcolumn⟩ := h.column_le
  have htake : lines.take (line - 1 + 1) = lines.take (line - 1) ++ [text] := by
    rw [List.take_add_one, htext]
    rfl
  have hone := h.one_le_line
  obtain ⟨k, hk⟩ : ∃ k, line' - 1 = line - 1 + 1 + k := ⟨line' - line - 1, by omega⟩
  have hindex := h.index_eq
  have hindex' := h'.index_eq
  rw [hk, List.take_add, htake, Text.span_append, Text.span_append, Text.span_singleton] at hindex'
  omega

/-- A greater index stands on a later line or further on in the same line. -/
theorem lt (h : Coordinates lines line column index)
    (h' : Coordinates lines line' column' index') (hlt : index < index') :
    line < line' ∨ line = line' ∧ column < column' := by
  rcases Nat.lt_trichotomy line line' with hline | rfl | hline
  · exact .inl hline
  · have hindex := h.index_eq
    have hindex' := h'.index_eq
    exact .inr ⟨rfl, by omega⟩
  · have hback := h'.index_lt h hline
    omega

end Coordinates

namespace Position

variable {origin input : Text} {i : Nat}

theorem before?_eq (hne : input ≠ []) (h : i ≤ input.length) :
    before? ⟨origin, i, input⟩ = some (input.take i) := by
  have hinside : ¬(input.isEmpty ∨ (i : Int) < 0 ∨ (input.length : Int) < i) := by
    simp only [List.isEmpty_iff, hne, false_or]
    omega
  simp only [before?, if_neg hinside, Int.toNat_natCast]

theorem line_eq (h : i ≤ input.length) :
    line ⟨origin, i, input⟩ = (input.take i).count (CodePoint.ofChar '\n') + 1 := by
  by_cases hne : input = []
  · subst hne
    obtain rfl : i = 0 := Nat.le_zero.mp h
    rfl
  · rw [line, before?_eq hne h]

theorem column_eq (h : i ≤ input.length) :
    column ⟨origin, i, input⟩ = (Text.lastLine (input.take i)).length + 1 := by
  by_cases hne : input = []
  · subst hne
    obtain rfl : i = 0 := Nat.le_zero.mp h
    rfl
  · rw [column, before?_eq hne h, Text.lastLine, List.length_reverse]

theorem coordinates (h : i ≤ input.length) :
    Coordinates input.lines (line ⟨origin, i, input⟩) (column ⟨origin, i, input⟩) i := by
  obtain ⟨complete, hlines, hcount, hspan⟩ := Text.exists_lines_append (input.take i) (input.drop i)
  obtain ⟨head, others, hhead⟩ := List.exists_cons_of_ne_nil
    (List.splitOn_ne_nil (CodePoint.ofChar '\n') (input.drop i))
  change Text.lines (input.drop i) = head :: others at hhead
  rw [List.take_append_drop, hhead, List.modifyHead_cons] at hlines
  rw [line_eq h, ← hcount, column_eq h, hlines]
  refine ⟨Nat.le_add_left _ _, Nat.le_add_left _ _, ?_, ?_⟩
  · refine ⟨Text.lastLine (input.take i) ++ head, ?_, ?_⟩
    · simp
    · rw [List.length_append]
      omega
  · simp only [Nat.add_sub_cancel, List.take_left]
    rw [hspan, List.length_take_of_le h]

end Position

/-- **Line and column are the exact coordinates of an index.** At every index of a text, and at its end,
the column lies on the line or right behind its end, and the lines before, each with its line feed, and
the column add up to the index. So line and column determine the index, and they come in the order of the
indices. -/
theorem line_column_coordinates (origin input : Text) :
    (∀ i ≤ input.length, Coordinates input.lines
      (Position.line ⟨origin, i, input⟩) (Position.column ⟨origin, i, input⟩) i) ∧
    (∀ i ≤ input.length, ∀ j ≤ input.length,
      Position.line ⟨origin, i, input⟩ = Position.line ⟨origin, j, input⟩ →
      Position.column ⟨origin, i, input⟩ = Position.column ⟨origin, j, input⟩ → i = j) ∧
    ∀ i j, i < j → j ≤ input.length →
      Position.line ⟨origin, i, input⟩ < Position.line ⟨origin, j, input⟩ ∨
      Position.line ⟨origin, i, input⟩ = Position.line ⟨origin, j, input⟩ ∧
        Position.column ⟨origin, i, input⟩ < Position.column ⟨origin, j, input⟩ := by
  have hall : ∀ i ≤ input.length, Coordinates input.lines
      (Position.line ⟨origin, i, input⟩) (Position.column ⟨origin, i, input⟩) i := by
    intro i hi
    exact Position.coordinates hi
  refine ⟨hall, ?_, ?_⟩
  · intro i hi j hj hline hcolumn
    have hindex := (hall i hi).index_eq
    rw [hline, hcolumn] at hindex
    exact hindex.symm.trans (hall j hj).index_eq
  · intro i j hlt hj
    exact (hall i (by omega)).lt (hall j hj) hlt

/-- The second of two line feeds stands in the first column of the empty line between them. -/
theorem line_column_coordinates_emptyLine :
    Text.lines "a\n\nb" = [Text.ofString "a", [], Text.ofString "b"] ∧
      Coordinates (Text.lines "a\n\nb") 2 1 2 ∧ Coordinates (Text.lines "a\n\nb") 3 2 4 := by
  have hall := (line_column_coordinates "<pattern>" "a\n\nb").1
  exact ⟨by decide, hall 2 (by decide), hall 4 (by decide)⟩

end RandomText
