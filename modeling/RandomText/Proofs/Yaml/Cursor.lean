import Mathlib
import RandomText.Yaml.Scalar
import RandomText.Yaml.Writer

/-!
# Moving through a document

A cursor moves over the code points of one line column by column. A text is cut into runs of code points
with a property, and what the writer checks of all neighbours holds where two runs meet.
-/

namespace RandomText.Yaml

/-! ### Code points -/

theorem isBreak_iff {c : CodePoint} : isBreak c = true ↔
    c.val = 10 ∨ c.val = 13 ∨ c.val = 0x85 ∨ c.val = 0x2028 ∨ c.val = 0x2029 := by
  simp [isBreak, or_assoc]

theorem isBlankOrEnd_iff {c : CodePoint} : isBlankOrEnd c = true ↔
    c.val = 0 ∨ isBreak c = true ∨ c.val = 32 ∨ c.val = 9 := by
  simp [isBlankOrEnd, isSpaceOrEnd, isBreakOrEnd, isEnd, CodePoint.eq_ofChar_iff, or_assoc]

namespace Scalar

theorem isTextBreak_iff {c : CodePoint} : isTextBreak c = true ↔
    c.val = 10 ∨ c.val = 0x85 ∨ c.val = 0x2028 ∨ c.val = 0x2029 := by
  simp [isTextBreak, or_assoc]

theorem isSpecial_eq_false_iff {c : CodePoint} : isSpecial c = false ↔
    c.val = 10 ∨ (32 ≤ c.val ∧ c.val ≤ 126) ∨ c.val = 0x85 ∨ (0xA0 ≤ c.val ∧ c.val ≤ 0xD7FF) ∨
      (0xE000 ≤ c.val ∧ c.val ≤ 0xFFFD ∧ c.val ≠ 0xFEFF) ∨
      (0x10000 ≤ c.val ∧ c.val < 0x10FFFF) := by
  simp only [isSpecial, Bool.not_eq_false', Bool.or_eq_true, Bool.and_eq_true, decide_eq_true_eq,
    or_assoc, and_assoc]

/-- A code point that is neither special nor a break stands for itself within a line. -/
def isInner (c : CodePoint) : Bool := !isSpecial c && !isTextBreak c

theorem isInner_iff {c : CodePoint} : isInner c = true ↔
    isSpecial c = false ∧ isTextBreak c = false := by
  simp [isInner]

theorem isBreak_of_isInner {c : CodePoint} (h : isInner c = true) : isBreak c = false := by
  obtain ⟨hspecial, hbreak⟩ := isInner_iff.mp h
  rw [isSpecial_eq_false_iff] at hspecial
  rw [Bool.eq_false_iff, ne_eq, isTextBreak_iff] at hbreak
  rw [Bool.eq_false_iff, ne_eq, isBreak_iff]
  omega

theorem ne_mark_of_isInner {c : CodePoint} (h : isInner c = true) : c.val ≠ 0xFEFF := by
  obtain ⟨hspecial, -⟩ := isInner_iff.mp h
  rw [isSpecial_eq_false_iff] at hspecial
  omega

theorem isBlankOrEnd_of_isInner {c : CodePoint} (h : isInner c = true) :
    isBlankOrEnd c = isSpace c := by
  obtain ⟨hspecial, -⟩ := isInner_iff.mp h
  have hbreak := isBreak_of_isInner h
  rw [isSpecial_eq_false_iff] at hspecial
  rw [Bool.eq_iff_iff, isBlankOrEnd_iff, hbreak, isSpace, decide_eq_true_eq, CodePoint.eq_ofChar_iff]
  simp only [Char.reduceToNat, Bool.false_eq_true, false_or]
  omega

theorem length_spaces (n : Nat) : (spaces n).length = n := List.length_replicate

end Scalar

/-! ### Cursors -/

namespace Cursor

theorem rest_advance (c : Cursor) : c.advance.rest = c.rest.tail := by
  rw [advance]
  split
  · next hrest => rw [hrest]; rfl
  · next d rest hrest =>
    rw [hrest]
    split
    · rfl
    · split <;> rfl

theorem rest_advanceBy (c : Cursor) (n : Nat) : (c.advanceBy n).rest = c.rest.drop n := by
  induction n generalizing c with
  | zero => rfl
  | succ n ih => rw [advanceBy, ih, rest_advance, List.drop_tail]

theorem advanceBy_inner (word rest : Text) (index line column : Nat)
    (hword : ∀ d ∈ word, Scalar.isInner d = true) :
    (⟨word ++ rest, index, line, column⟩ : Cursor).advanceBy word.length =
      ⟨rest, index + word.length, line, column + word.length⟩ := by
  induction word generalizing index column with
  | nil => rfl
  | cons d word ih =>
    obtain ⟨hd, hword⟩ := List.forall_mem_cons.mp hword
    have hbreak := Scalar.isBreak_of_isInner hd
    rw [Bool.eq_false_iff, ne_eq, isBreak_iff] at hbreak
    have hadvance : (⟨d :: word ++ rest, index, line, column⟩ : Cursor).advance =
        ⟨word ++ rest, index + 1, line, column + 1⟩ := by
      simp only [List.cons_append, advance]
      rw [if_neg (by omega), if_neg (Scalar.ne_mark_of_isInner hd)]
    rw [List.length_cons, advanceBy, hadvance, ih _ _ hword]
    congr 1 <;> omega

theorem isInner_space : Scalar.isInner (CodePoint.ofChar ' ') = true := by decide

theorem isInner_spaces {n : Nat} : ∀ d ∈ Scalar.spaces n, Scalar.isInner d = true := by
  intro d hd
  rw [List.eq_of_mem_replicate hd]
  exact isInner_space

theorem lineBreak?_eq_none {c : Cursor} (h : isBreak c.peek = false) : c.lineBreak? = none := by
  rw [Bool.eq_false_iff, ne_eq, isBreak_iff] at h
  unfold lineBreak?
  rw [if_neg (by omega), if_neg (by omega), if_neg (by omega)]

theorem takeWhile_word (p : CodePoint → Bool) (word rest : Text) (index line column : Nat)
    (hword : ∀ d ∈ word, p d = true) (hrest : p (rest.headD finish) = false ∨ rest = []) :
    (⟨word ++ rest, index, line, column⟩ : Cursor).takeWhile p =
      (word, (⟨word ++ rest, index, line, column⟩ : Cursor).advanceBy word.length) := by
  have htaken : (word ++ rest).takeWhile p = word := by
    have hnil : rest.takeWhile p = [] := by
      cases rest with
      | nil => rfl
      | cons d rest =>
        rcases hrest with hrest | hrest
        · rw [List.takeWhile_cons, show p d = false from hrest]
          rfl
        · cases hrest
    rw [List.takeWhile_append_of_pos hword, hnil, List.append_nil]
  rw [Cursor.takeWhile, htaken]

theorem peek_eq {c : Cursor} {d : CodePoint} {rest : Text} (hc : c.rest = d :: rest) : c.peek = d := by
  rw [peek, hc]
  rfl

theorem peekAt_one_eq {c : Cursor} {d : CodePoint} {rest : Text} (hc : c.rest = d :: rest) :
    c.peekAt 1 = rest.headD finish := by
  rw [peekAt, hc]
  cases rest <;> rfl

theorem hasMarks_eq_false {c : Cursor} {mark : CodePoint} (hmark : c.peek ≠ mark) :
    c.hasMarks mark = false := by
  rw [hasMarks, Bool.and_eq_false_iff, decide_eq_false_iff_not]
  left
  intro htake
  cases hrest : c.rest with
  | nil =>
    rw [hrest] at htake
    cases htake
  | cons d rest =>
    rw [hrest, List.take_succ_cons, List.cons.injEq] at htake
    exact hmark (by rw [peek_eq hrest, htake.1])

theorem hasDocumentMark_eq_false {c : Cursor} (hdash : c.peek ≠ CodePoint.ofChar '-')
    (hdot : c.peek ≠ CodePoint.ofChar '.') : c.hasDocumentMark = false := by
  rw [hasDocumentMark, hasMarks_eq_false hdash, hasMarks_eq_false hdot]
  rfl

end Cursor

/-! ### Runs -/

theorem exists_run (p : CodePoint → Bool) (t : Text) :
    ∃ run rest, t = run ++ rest ∧ (∀ c ∈ run, p c = true) ∧ ∀ c ∈ rest.head?, p c = false := by
  induction t with
  | nil => exact ⟨[], [], rfl, nofun, nofun⟩
  | cons c t ih =>
    cases hc : p c with
    | false =>
      refine ⟨[], c :: t, rfl, nofun, ?_⟩
      rintro d ⟨⟩
      exact hc
    | true =>
      obtain ⟨run, rest, rfl, hrun, hrest⟩ := ih
      exact ⟨c :: run, rest, rfl, List.forall_mem_cons.mpr ⟨hc, hrun⟩, hrest⟩

theorem eq_spaces {run : Text} (h : ∀ c ∈ run, Scalar.isSpace c = true) :
    run = Scalar.spaces run.length := by
  refine List.eq_replicate_iff.mpr ⟨rfl, ?_⟩
  intro c hc
  exact of_decide_eq_true (h c hc)

namespace Scalar

section neighbours

variable {p q : CodePoint → Bool}

theorem hasNeighbours_cons (a b : CodePoint) (t : Text) :
    hasNeighbours p q (a :: b :: t) = (p a && q b || hasNeighbours p q (b :: t)) := rfl

theorem hasNeighbours_tail {c : CodePoint} {t : Text} (h : hasNeighbours p q (c :: t) = false) :
    hasNeighbours p q t = false := by
  cases t with
  | nil => rfl
  | cons d t =>
    rw [hasNeighbours_cons, Bool.or_eq_false_iff] at h
    exact h.2

theorem hasNeighbours_behind {s t : Text} (h : hasNeighbours p q (s ++ t) = false) :
    hasNeighbours p q t = false := by
  induction s with
  | nil => exact h
  | cons c s ih => exact ih (hasNeighbours_tail h)

theorem not_neighbours {s t : Text} (h : hasNeighbours p q (s ++ t) = false) {a b : CodePoint}
    (ha : s.getLast? = some a) (hb : t.head? = some b) (hp : p a = true) : q b = false := by
  obtain ⟨s, rfl⟩ := List.getLast?_eq_some_iff.mp ha
  obtain ⟨t, rfl⟩ : ∃ t', t = b :: t' := List.head?_eq_some_iff.mp hb
  rw [List.append_assoc] at h
  have hpair := hasNeighbours_behind h
  rw [List.singleton_append, hasNeighbours_cons, hp, Bool.true_and, Bool.or_eq_false_iff] at hpair
  exact hpair.1

end neighbours

end Scalar

end RandomText.Yaml
