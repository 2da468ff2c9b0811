import Mathlib.Algebra.Group.Nat.Defs
import Mathlib.Data.List.Induction
import Mathlib.Data.List.TakeWhile
import Mathlib.Tactic.Set
import RandomText.Text.Numeral

/-!
# Decimal numerals read back

What `Numeral.digits` writes consists of ASCII digits and denotes the number written; it has at most
`Numeral.maxDigits` digits exactly when the number is below `10 ^ Numeral.maxDigits`. The same power
bounds what `Numeral.read` returns.
-/

namespace RandomText.Numeral

/-! ### Digits -/

theorem digits_ne_nil (n : Nat) : digits n ≠ [] := by
  simp [digits]

theorem isDigit_of_mem_digits {n : Nat} {c : CodePoint} (h : c ∈ digits n) : c.isDigit = true := by
  obtain ⟨d, hd, rfl⟩ := List.mem_map.mp h
  have hdigit := Nat.isDigit_of_mem_toDigits (by decide) (by decide) hd
  simp only [Char.isDigit, Bool.and_eq_true, decide_eq_true_eq, UInt32.le_iff_toNat_le] at hdigit
  simp only [CodePoint.isDigit, CodePoint.ofChar, Bool.and_eq_true]
  exact ⟨decide_eq_true hdigit.1, decide_eq_true hdigit.2⟩

theorem value_digits (n : Nat) : value (digits n) = n := by
  rw [value, digits, List.foldl_map]
  exact Nat.ofDigitChars_ten_toDigits

theorem length_digits_le_iff {n : Nat} : (digits n).length ≤ maxDigits ↔ n < 10 ^ maxDigits := by
  rw [digits, List.length_map]
  exact Nat.length_toDigits_le_iff (by decide) (by decide)

/-! ### Values -/

theorem value_append (front back : Text) :
    value (front ++ back) = back.foldl (fun n c => 10 * n + (c.val - 48)) (value front) := by
  rw [value, value, List.foldl_append]

theorem value_lt (run : Text) (hrun : ∀ c ∈ run, c.isDigit = true) :
    value run < 10 ^ run.length := by
  induction run using List.reverseRecOn with
  | nil => decide
  | append_singleton run c ih =>
    have hlow : value run < 10 ^ run.length := ih fun d hd => hrun d (List.mem_append_left _ hd)
    have hc : c.isDigit = true := hrun c (by simp)
    simp only [CodePoint.isDigit, Bool.and_eq_true, decide_eq_true_eq] at hc
    rw [value_append, List.length_append, List.length_singleton, Nat.pow_succ]
    show 10 * value run + (c.val - 48) < 10 ^ run.length * 10
    omega

theorem eq_nil_of_digits_eq_zero_cons {n : Nat} {rest : Text}
    (h : digits n = CodePoint.ofChar '0' :: rest) : rest = [] := by
  by_contra hne
  have hrest : ∀ c ∈ rest, c.isDigit = true := by
    intro c hc
    exact isDigit_of_mem_digits (n := n) (by rw [h]; exact List.mem_cons_of_mem _ hc)
  have hvalue : n = value rest := by
    have hzero : value (CodePoint.ofChar '0' :: rest) = value rest := rfl
    rw [← hzero, ← h, value_digits]
  have hlt := value_lt rest hrest
  rw [← hvalue] at hlt
  have hlength := (Nat.length_toDigits_le_iff (b := 10) (by decide) (List.length_pos_iff.mpr hne)).mpr hlt
  have hdigits : (digits n).length = (Nat.toDigits 10 n).length := by rw [digits, List.length_map]
  rw [h, List.length_cons] at hdigits
  omega

/-! ### Writing -/

theorem signed_natCast (n : Nat) : signed n = digits n := by
  rw [signed, if_neg (by omega), Int.natAbs_natCast]

theorem write_eq_ok_iff {n : Int} {t : Text} :
    write n = .ok t ↔ n.natAbs < 10 ^ maxDigits ∧ t = signed n := by
  have hlength := length_digits_le_iff (n := n.natAbs)
  by_cases hlong : maxDigits < (digits n.natAbs).length
  · simp only [write, if_pos hlong, ← hlength]
    exact ⟨nofun, fun h => absurd h.1 (by omega)⟩
  · simp only [write, if_neg hlong, ← hlength, signed]
    exact ⟨fun h => ⟨by omega, (Except.ok.inj h).symm⟩, fun h => by rw [h.2]⟩

theorem write_eq_ok {n : Nat} (h : n < 10 ^ maxDigits) : write n = .ok (digits n) :=
  write_eq_ok_iff.mpr ⟨h, (signed_natCast n).symm⟩

theorem lt_of_write_eq_ok {n : Nat} {t : Text} (h : write n = .ok t) :
    n < 10 ^ maxDigits ∧ t = digits n := by
  obtain ⟨hlt, ht⟩ := write_eq_ok_iff.mp h
  exact ⟨hlt, ht.trans (signed_natCast n)⟩

/-! ### Reading -/

/-- The digits behind the blanks at the front. -/
def digitRun (t : Text) : Text := (t.dropWhile CodePoint.isBlank).takeWhile CodePoint.isDigit

theorem isDigit_of_mem_digitRun {t : Text} {c : CodePoint} (h : c ∈ digitRun t) : c.isDigit = true :=
  List.mem_takeWhile_imp h

theorem read_eq_ok_iff {t : Text} {n : Nat} :
    read t = .ok n ↔ (∀ c ∈ t, c.isSeparator = false) ∧ (digitRun t).length ≤ maxDigits ∧
      n = value (digitRun t) := by
  constructor
  · intro h
    simp only [read] at h
    split at h
    · cases h
    split at h
    · cases h
    next hshort =>
    split at h
    · cases h
    next hseparator =>
    refine ⟨fun c hc => ?_, Nat.le_of_not_lt hshort, (Except.ok.inj h).symm⟩
    by_contra hc'
    exact hseparator (List.any_eq_true.mpr ⟨c, hc, by simpa using hc'⟩)
  · rintro ⟨hseparator, hshort, rfl⟩
    have hleading : (t.takeWhile CodePoint.isBlank).any CodePoint.isSeparator = false := by
      rw [List.any_eq_false]
      intro c hc
      simp [hseparator c (List.takeWhile_subset _ hc)]
    have hall : t.any CodePoint.isSeparator = false := by
      rw [List.any_eq_false]
      intro c hc
      simp [hseparator c hc]
    rw [digitRun] at hshort ⊢
    simp only [read, hleading, hall]
    rw [if_neg (by simp), if_neg (by omega), if_neg (by simp)]

theorem read_lt {t : Text} {n : Nat} (h : read t = .ok n) : n < 10 ^ maxDigits := by
  obtain ⟨-, hshort, rfl⟩ := read_eq_ok_iff.mp h
  have hlt := value_lt (digitRun t) fun _ hc => isDigit_of_mem_digitRun hc
  exact lt_of_lt_of_le hlt (Nat.pow_le_pow_right (by decide) hshort)

theorem not_isBlank_of_isDigit {c : CodePoint} (h : c.isDigit = true) : c.isBlank = false := by
  simp only [CodePoint.isDigit, Bool.and_eq_true, decide_eq_true_eq] at h
  simp only [CodePoint.isBlank, CodePoint.isSeparator, Bool.or_eq_false_iff, Bool.and_eq_false_iff,
    decide_eq_false_iff_not]
  omega

theorem not_isSeparator_of_isDigit {c : CodePoint} (h : c.isDigit = true) :
    c.isSeparator = false := by
  simp only [CodePoint.isDigit, Bool.and_eq_true, decide_eq_true_eq] at h
  simp only [CodePoint.isSeparator, Bool.and_eq_false_iff, decide_eq_false_iff_not]
  omega

section run

variable {run : Text} (hrun : ∀ c ∈ run, c.isDigit = true)
include hrun

theorem dropWhile_isBlank_run : run.dropWhile CodePoint.isBlank = run := by
  cases run with
  | nil => rfl
  | cons c rest =>
    have hc := not_isBlank_of_isDigit (hrun c (by simp))
    rw [List.dropWhile_cons, hc]
    rfl

theorem isDecimal_run (hne : run ≠ []) : isDecimal run = true := by
  have htake : run.takeWhile CodePoint.isDigit = run := List.takeWhile_eq_self_iff.mpr hrun
  have hdrop : run.dropWhile CodePoint.isDigit = [] := List.dropWhile_eq_nil_iff.mpr hrun
  simp [isDecimal, decimal?, dropWhile_isBlank_run hrun, htake, hdrop, hne]

theorem read_run (hlength : run.length ≤ maxDigits) : read run = .ok (value run) := by
  have hdigits : digitRun run = run := by
    rw [digitRun, dropWhile_isBlank_run hrun]
    exact List.takeWhile_eq_self_iff.mpr hrun
  rw [read_eq_ok_iff, hdigits]
  exact ⟨fun c hc => not_isSeparator_of_isDigit (hrun c hc), hlength, rfl⟩

end run

theorem isDecimal_digits (n : Nat) : isDecimal (digits n) = true :=
  isDecimal_run (fun _ h => isDigit_of_mem_digits h) (digits_ne_nil n)

theorem read_digits {n : Nat} (h : n < 10 ^ maxDigits) : read (digits n) = .ok n := by
  rw [read_run (fun _ h => isDigit_of_mem_digits h) (length_digits_le_iff.mpr h), value_digits]

theorem isDecimal_singleton (c : CodePoint) : isDecimal [c] = c.isDigit := by
  by_cases hc : c.isDigit = true
  · rw [hc]
    exact isDecimal_run (by simp [hc]) (by simp)
  · have hc : c.isDigit = false := by simpa using hc
    by_cases hb : c.isBlank = true <;> simp [isDecimal, decimal?, hb, hc]

end RandomText.Numeral
