import RandomText.Proofs.Except
import RandomText.Proofs.Numeral
import RandomText.Proofs.Yaml.Plain
import RandomText.Yaml.Number

/-!
# Numerals as plain scalars

The decimal numeral of a natural number is a plain scalar of the type of integers, and denotes the number.
-/

namespace RandomText

/-! ### Runs of digits -/

theorem val_of_isDigit {c : CodePoint} (hc : c.isDigit = true) : 48 ≤ c.val ∧ c.val ≤ 57 := by
  simpa [CodePoint.isDigit] using hc

theorem ne_of_isDigit {c d : CodePoint} (hc : c.isDigit = true) (hd : d.isDigit = false) : c ≠ d := by
  rintro rfl
  rw [hc] at hd
  cases hd

theorem not_mem_run {run : Text} (hrun : ∀ c ∈ run, c.isDigit = true) {c : CodePoint}
    (hc : c.isDigit = false) : c ∉ run :=
  fun hmem => ne_of_isDigit (hrun c hmem) hc rfl

theorem not_mem_of_isDigit {marks : Text} (hmarks : ∀ c ∈ marks, c.isDigit = false) {d : CodePoint}
    (hd : d.isDigit = true) : d ∉ marks :=
  fun hmem => ne_of_isDigit hd (hmarks d hmem) rfl

theorem ne_word {words : List Text} (hwords : ∀ word ∈ words, ∀ c ∈ word.head?, c.isDigit = false)
    {d : CodePoint} {run : Text} (hd : d.isDigit = true) : d :: run ∉ words :=
  fun hmem => ne_of_isDigit hd (hwords _ hmem d rfl) rfl

theorem exists_digitChar {c : CodePoint} (hc : c.isDigit = true) :
    ∃ k < 10, c = CodePoint.ofChar (Nat.digitChar k) := by
  have hval := val_of_isDigit hc
  have hchar : ∀ k < 10, (Nat.digitChar k).toNat = 48 + k := by decide
  refine ⟨c.val - 48, by omega, CodePoint.eq_ofChar_iff.mpr ?_⟩
  rw [hchar _ (by omega)]
  omega

theorem pieces_eq_self {c : CodePoint} {t : Text} (h : c ∉ t) : t.pieces c = [t] := by
  induction t with
  | nil => rfl
  | cons d t ih =>
    rw [List.mem_cons, not_or] at h
    rw [Text.pieces, if_neg (Ne.symm h.1), ih h.2]

namespace Numeral

section run

variable {d : CodePoint} {run : Text} (hrun : ∀ c ∈ d :: run, c.isDigit = true)
include hrun

theorem plainNumber_run : plainNumber (d :: run) = d :: run := by
  have hblank : ∀ c ∈ d :: run, c.isNumberBlank = false := by
    intro c hc
    simp [CodePoint.isNumberBlank, not_isBlank_of_isDigit (hrun c hc)]
  have hascii : ∀ c ∈ d :: run, c.asciiDigit = c := by
    intro c hc
    obtain ⟨k, hk, rfl⟩ := exists_digitChar (hrun c hc)
    have : ∀ k < 10, (CodePoint.ofChar (Nat.digitChar k)).asciiDigit =
      CodePoint.ofChar (Nat.digitChar k) := by decide
    exact this k hk
  have hdrop : ∀ t : Text, (∀ c ∈ t, c ∈ d :: run) → t.dropWhile CodePoint.isNumberBlank = t := by
    intro t ht
    cases t with
    | nil => rfl
    | cons c t => rw [List.dropWhile_cons, hblank c (ht c List.mem_cons_self)]; rfl
  rw [plainNumber, hdrop _ fun c hc => hc, hdrop _ fun c hc => List.mem_reverse.mp hc, List.reverse_reverse,
    List.map_congr_left hascii, List.map_id']

theorem foldl_run (n : Nat) :
    (d :: run).foldl (fun (n : Int) c => (10 : Nat) * n + ((digitValue? 10 c).getD 0 : Nat)) n =
      ((d :: run).foldl (fun n c => 10 * n + (c.val - 48)) n : Nat) := by
  generalize d :: run = t at hrun
  induction t generalizing n with
  | nil => rfl
  | cons c t ih =>
    obtain ⟨hc, ht⟩ := List.forall_mem_cons.mp hrun
    have hvalue : (digitValue? 10 c).getD 0 = c.val - 48 := by
      obtain ⟨k, hk, rfl⟩ := exists_digitChar hc
      have : ∀ k < 10, (digitValue? 10 (CodePoint.ofChar (Nat.digitChar k))).getD 0 =
        (CodePoint.ofChar (Nat.digitChar k)).val - 48 := by decide
      exact this k hk
    rw [List.foldl_cons, List.foldl_cons, hvalue, ← ih _ ht]
    push_cast
    rfl

theorem integer_run (hlength : (d :: run).length ≤ maxDigits) :
    integer 10 (d :: run) = .ok (value (d :: run)) := by
  have hd := hrun d List.mem_cons_self
  have hsign : splitSign (d :: run) = (false, d :: run) := by
    rw [splitSign, if_neg (ne_of_isDigit hd (by decide)), if_neg (ne_of_isDigit hd (by decide))]
  have hmark : withoutBaseMark 10 (d :: run) = d :: run := by
    cases run with
    | nil => rfl
    | cons e run => exact if_neg fun h => by simpa [baseLetters] using h.2
  have htaken : ∀ c ∈ d :: run, ((digitValue? 10 c).isSome || decide (c = CodePoint.ofChar '_')) = true := by
    intro c hc
    obtain ⟨k, hk, rfl⟩ := exists_digitChar (hrun c hc)
    have : ∀ k < 10, (digitValue? 10 (CodePoint.ofChar (Nat.digitChar k))).isSome = true := by decide
    rw [this k hk]
    rfl
  have hunderscore := not_mem_run hrun (c := CodePoint.ofChar '_') (by decide)
  have hfilter : (d :: run).filter (fun c => c ≠ CodePoint.ofChar '_') = d :: run :=
    List.filter_eq_self.mpr fun c hc => decide_eq_true (ne_of_isDigit (hrun c hc) (by decide))
  have hgrouped : isGrouped (d :: run) = true := by
    rw [isGrouped, pieces_eq_self hunderscore]
    rfl
  simp only [integer, plainNumber_run hrun, hsign, hmark, List.takeWhile_eq_self_iff.mpr htaken, hfilter,
    hgrouped]
  rw [if_neg (by decide), if_neg (by omega), if_neg (by omega), if_neg (by decide)]
  exact congrArg Except.ok (foldl_run hrun 0)

end run

end Numeral

namespace Yaml

namespace Scalar

open Form

section run

variable {d : CodePoint} {run : Text} (hd : d.isDigit = true) (hrun : ∀ c ∈ run, c.isDigit = true)
include hd hrun

theorem isPlain_run : IsPlain (d :: run) := by
  have hall : ∀ c ∈ d :: run, c.isDigit = true := List.forall_mem_cons.mpr ⟨hd, hrun⟩
  have hlast : ∀ c : CodePoint, c.isDigit = false → (d :: run).getLast? ≠ some c := by
    intro c hc hlast
    exact not_mem_run hall hc (List.mem_of_getLast? hlast)
  have hmark : ∀ marks : Text, (∀ c ∈ marks, c.isDigit = false) → isOneOf marks d = false := by
    intro marks hmarks
    simpa [isOneOf] using not_mem_of_isDigit hmarks hd
  refine ⟨⟨?_, ?_, ?_, hlast _ (by decide), hlast _ (by decide)⟩, List.cons_ne_nil d run, ?_, ?_⟩
  · intro c hc
    have := val_of_isDigit (hall c hc)
    refine isInner_iff.mpr ⟨isSpecial_eq_false_iff.mpr (by omega), Bool.eq_false_iff.mpr fun hbreak => ?_⟩
    rw [isTextBreak_iff] at hbreak
    omega
  · rw [hasNeighbours, List.any_eq_false]
    intro n hn
    simp [ne_of_isDigit (hall n.1 (List.of_mem_zip hn).1) (d := CodePoint.ofChar ':') (by decide)]
  · rw [hasNeighbours, List.any_eq_false]
    intro n hn
    have hmem : n.2 ∈ d :: run := List.mem_of_mem_tail (List.of_mem_zip hn).2
    simp [ne_of_isDigit (hall n.2 hmem) (d := CodePoint.ofChar '#') (by decide)]
  · have htake : ∀ word : Text, (∀ c ∈ word.head?, c.isDigit = false) → (d :: run).take 3 ≠ word := by
      rintro word hword rfl
      exact ne_of_isDigit hd (hword d rfl) rfl
    have hindicator : isOneOf "#,[]\x7b\x7d&*!|>'\"%@\x60" d = false := hmark _ (by decide)
    have hdash : isOneOf "?:-" d = false := hmark _ (by decide)
    rw [startsAsMark, hindicator, hdash, decide_eq_false (htake _ (by decide)),
      decide_eq_false (htake _ (by decide))]
    rfl
  · intro hspace
    exact ne_of_isDigit hd (d := CodePoint.ofChar ' ') (by decide) (Option.some.inj hspace)

omit hrun in
theorem andThen_sign_run (f : Form) : andThen sign f (d :: run) = f (d :: run) := by
  have hsigns : d ∉ Text.ofString "+-" := not_mem_of_isDigit (by decide) hd
  have hsign : sign (d :: run) = [d :: run] := by
    simp [sign, Form.optional, among, one, hsigns]
  simp [andThen, hsign]

omit hd in
theorem many_run : many isDigitOrUnderscore run = [[]] := by
  have hnil : run.dropWhile isDigitOrUnderscore = [] :=
    List.dropWhile_eq_nil_iff.mpr fun c hc => by simp [isDigitOrUnderscore, hrun c hc]
  rw [many, hnil]

theorem andThen_digits_run (f : Form) : andThen digits f (d :: run) = f [] := by
  have hdigits : digits (d :: run) = [[]] := by
    simp [digits, andThen, digit, one, hd, many_run hrun]
  simp [andThen, hdigits]

theorem isFloat_run : isFloat (d :: run) = false := by
  have hpoint : ∀ f, andThen (mark (CodePoint.ofChar '.')) f (d :: run) = [] := by
    intro f
    simp [andThen, mark, one, ne_of_isDigit hd (d := CodePoint.ofChar '.') (by decide)]
  have hnone : ∀ c f, andThen (mark c) f [] = [] := fun c f => rfl
  have hsixtieths : ∀ f, andThen sixtieths f [] = [] := fun f => rfl
  have hwords : (d :: run) ∉ infinityWords := ne_word (by decide) hd
  simp only [isFloat, matches?, andThen_sign_run hd, andThen_digits_run hd hrun, hpoint, hnone,
    hsixtieths, List.any_nil]
  simpa using hwords

theorem isInt_run (hzero : d = CodePoint.ofChar '0' → run = []) : isInt (d :: run) = true := by
  have hdecimal : matches? (andThen sign (orElse (mark (CodePoint.ofChar '0'))
      (andThen (one fun c => c.isDigit && c ≠ CodePoint.ofChar '0') (many isDigitOrUnderscore))))
      (d :: run) = true := by
    rw [matches?, andThen_sign_run hd, orElse]
    by_cases hd0 : d = CodePoint.ofChar '0'
    · simp [mark, one, hd0, hzero hd0]
    · simp [andThen, mark, one, hd0, hd, many_run hrun]
  simp only [isInt, Bool.or_eq_true]
  exact .inl (.inl (.inr hdecimal))

theorem tagOf_run (hzero : d = CodePoint.ofChar '0' → run = []) : tagOf (d :: run) = .int := by
  have hbreak : withoutLastBreak (d :: run) = d :: run := by
    have hnone : run.getLast? ≠ some (CodePoint.ofChar '\n') :=
      fun hlast => not_mem_run hrun (by decide) (List.mem_of_getLast? hlast)
    exact if_neg hnone
  have hwords : (d :: run) ∉ truthWords := ne_word (by decide) hd
  simp only [tagOf, hbreak, isFloat_run hd hrun, isInt_run hd hrun hzero]
  simp [hwords]

theorem toInteger_run (hzero : d = CodePoint.ofChar '0' → run = [])
    (hlength : (d :: run).length ≤ Numeral.maxDigits) :
    toInteger (d :: run) = .ok (Numeral.value (d :: run)) := by
  have hall : ∀ c ∈ d :: run, c.isDigit = true := List.forall_mem_cons.mpr ⟨hd, hrun⟩
  have hfilter : withoutUnderscores (d :: run) = d :: run :=
    List.filter_eq_self.mpr fun c hc => decide_eq_true (ne_of_isDigit (hall c hc) (by decide))
  have hsign : Numeral.splitSign (d :: run) = (false, d :: run) := by
    rw [Numeral.splitSign, if_neg (ne_of_isDigit hd (by decide)), if_neg (ne_of_isDigit hd (by decide))]
  have hmagnitude : magnitude (d :: run) = .ok (Numeral.value (d :: run)) := by
    by_cases hd0 : d = CodePoint.ofChar '0'
    · rw [hd0, hzero hd0]
      rfl
    · have hcolon : CodePoint.ofChar ':' ∉ d :: run := not_mem_run hall (by decide)
      have hinteger : integer 10 (d :: run) = .ok (Numeral.value (d :: run)) := by
        rw [integer, Numeral.integer_run hall hlength]
        rfl
      rw [magnitude.eq_def]
      simp only [if_neg hd0]
      rw [if_neg (by simpa using hcolon), hinteger]
  have hsigned : signed (d :: run) = .ok (false, d :: run) := by
    rw [signed, hsign]
    rfl
  rw [toInteger, hfilter, hsigned]
  simp only [Except.ok_bind, hmagnitude]
  rfl

end run

section digits

variable (n : Nat)

theorem exists_digits : ∃ d run, Numeral.digits n = d :: run ∧ d.isDigit = true ∧
    (∀ c ∈ run, c.isDigit = true) ∧ (d = CodePoint.ofChar '0' → run = []) := by
  obtain ⟨d, run, heq⟩ := List.exists_cons_of_ne_nil (Numeral.digits_ne_nil n)
  have hall : ∀ c ∈ d :: run, c.isDigit = true := by
    intro c hc
    exact Numeral.isDigit_of_mem_digits (heq ▸ hc)
  refine ⟨d, run, heq, hall d List.mem_cons_self, fun c hc => hall c (List.mem_cons_of_mem d hc), ?_⟩
  rintro rfl
  exact Numeral.eq_nil_of_digits_eq_zero_cons heq

theorem isPlain_digits : IsPlain (Numeral.digits n) := by
  obtain ⟨d, run, heq, hd, hrun, -⟩ := exists_digits n
  rw [heq]
  exact isPlain_run hd hrun

theorem tagOf_digits : tagOf (Numeral.digits n) = .int := by
  obtain ⟨d, run, heq, hd, hrun, hzero⟩ := exists_digits n
  rw [heq]
  exact tagOf_run hd hrun hzero

theorem toInteger_digits (h : n < 10 ^ Numeral.maxDigits) : toInteger (Numeral.digits n) = .ok n := by
  obtain ⟨d, run, heq, hd, hrun, hzero⟩ := exists_digits n
  have hlength := Numeral.length_digits_le_iff.mpr h
  have hvalue := Numeral.value_digits n
  rw [heq] at hlength hvalue ⊢
  rw [toInteger_run hd hrun hzero hlength, hvalue]

end digits

end Scalar

end Yaml

end RandomText
