import Mathlib.Tactic.Common
import RandomText.Json.Reader
import RandomText.Json.Writer

/-!
# JSON strings read back

A text is written with one escape for each code point that is no printable ASCII character, two
codes if it lies beyond the first plane. Without surrogates among the code points, reading takes
each code point back from its unit, whatever stands behind it (`stringFrom_escapeUnit`), and so the
text from its string (`stringAfter_string`).
-/

namespace RandomText.Json

/-! ### ASCII -/

/-- Text of ASCII characters only. -/
def IsAscii (t : Text) : Prop := ∀ c ∈ t, c.val < 128

instance (t : Text) : Decidable (IsAscii t) := inferInstanceAs (Decidable (∀ c ∈ t, c.val < 128))

theorem IsAscii.cons {c : CodePoint} {t : Text} (hc : c.val < 128) (ht : IsAscii t) : IsAscii (c :: t) :=
  List.forall_mem_cons.mpr ⟨hc, ht⟩

theorem IsAscii.append {s t : Text} (hs : IsAscii s) (ht : IsAscii t) : IsAscii (s ++ t) :=
  List.forall_mem_append.mpr ⟨hs, ht⟩

/-! ### Hexadecimal digits -/

theorem hexValue?_ofHexValue (n : Nat) : (CodePoint.ofHexValue n).hexValue? = some (n % 16) := by
  have hdigits : ∀ m < 16, (CodePoint.ofChar (Nat.digitChar m)).hexValue? = some m := by decide
  exact hdigits (n % 16) (Nat.mod_lt n (by decide))

theorem ofHexValue_lt (n : Nat) : (CodePoint.ofHexValue n).val < 128 := by
  have hdigits : ∀ m < 16, (CodePoint.ofChar (Nat.digitChar m)).val < 128 := by decide
  exact hdigits (n % 16) (Nat.mod_lt n (by decide))

theorem hex_four (n : Nat) : Text.hex 4 n = [CodePoint.ofHexValue (n / 16 / 16 / 16),
    CodePoint.ofHexValue (n / 16 / 16), CodePoint.ofHexValue (n / 16), CodePoint.ofHexValue n] := rfl

theorem code?_hex {n : Nat} (h : n < 0x10000) :
    code? (CodePoint.ofHexValue (n / 16 / 16 / 16)) (CodePoint.ofHexValue (n / 16 / 16))
      (CodePoint.ofHexValue (n / 16)) (CodePoint.ofHexValue n) = some n := by
  have hvalue : ((n / 16 / 16 / 16 % 16 * 16 + n / 16 / 16 % 16) * 16 + n / 16 % 16) * 16 + n % 16 = n := by
    omega
  simp only [code?, hexValue?_ofHexValue]
  exact congrArg some hvalue

theorem unit_val (c : CodePoint) : unit c.val = c := by
  rw [unit, CodePoint.ofNat?_val]
  rfl

/-! ### Units -/

theorem joinSurrogates_eq_none {n : Nat} (h : ¬(0xD800 ≤ n ∧ n < 0xDC00)) (rest : Text) :
    joinSurrogates n rest = none := by
  unfold joinSurrogates
  split
  · split
    · next hpair => exact absurd hpair.2.2 h
    · rfl
  · rfl

theorem joinSurrogates_code (high : Nat) {low : Nat} {p q r s : CodePoint}
    (hcode : code? p q r s = some low) (hhigh : 0xD800 ≤ high ∧ high < 0xDC00)
    (hlow : 0xDC00 ≤ low ∧ low < 0xE000) (x : CodePoint) (rest : Text) :
    joinSurrogates high (CodePoint.ofChar '\\' :: CodePoint.ofChar 'u' :: p :: q :: r :: s :: x :: rest) =
      CodePoint.ofNat? (0x10000 + (high - 0xD800) * 0x400 + (low - 0xDC00)) := by
  rw [joinSurrogates, if_pos ⟨rfl, rfl, hhigh⟩]
  simp only [hcode, if_pos hlow]

theorem stringFrom_code {n : Nat} {p q r s : CodePoint} (hcode : code? p q r s = some n) (start : Text)
    (fuel : Nat) (x : CodePoint) (rest : Text) :
    stringFrom start (fuel + 1)
        (CodePoint.ofChar '\\' :: CodePoint.ofChar 'u' :: p :: q :: r :: s :: x :: rest) =
      match joinSurrogates n (x :: rest) with
      | some joined => prepend joined (stringFrom start fuel (rest.drop 5))
      | none => prepend (unit n) (stringFrom start fuel (x :: rest)) := by
  rw [stringFrom, if_neg (by decide), if_neg (by decide), if_pos rfl]
  simp only [hcode]
  rfl

theorem stringFrom_plain {c : CodePoint} (hquote : c ≠ CodePoint.ofChar '"')
    (hslash : c ≠ CodePoint.ofChar '\\') (hcontrol : ¬c.val ≤ 0x1F) (start : Text) (fuel : Nat)
    (rest : Text) : stringFrom start (fuel + 1) (c :: rest) = prepend c (stringFrom start fuel rest) := by
  rw [stringFrom.eq_def]
  simp only [if_neg hquote, if_neg hcontrol, if_neg hslash]

theorem stringFrom_escape {e d : CodePoint} (h : escape? e = some d) (he : e ≠ CodePoint.ofChar 'u')
    (start : Text) (fuel : Nat) (rest : Text) :
    stringFrom start (fuel + 1) (CodePoint.ofChar '\\' :: e :: rest) =
      prepend d (stringFrom start fuel rest) := by
  have hquote : CodePoint.ofChar '\\' ≠ CodePoint.ofChar '"' := by decide
  have hcontrol : ¬(CodePoint.ofChar '\\').val ≤ 0x1F := by decide
  rw [stringFrom.eq_def]
  simp only [if_neg hquote, if_neg hcontrol, if_neg he, h]
  rfl

theorem stringFrom_pair {high low : Nat} (hhigh : 0xD800 ≤ high ∧ high < 0xDC00)
    (hlow : 0xDC00 ≤ low ∧ low < 0xE000) {c : CodePoint}
    (hc : 0x10000 + (high - 0xD800) * 0x400 + (low - 0xDC00) = c.val) (start : Text) (fuel : Nat)
    (x : CodePoint) (rest : Text) :
    stringFrom start (fuel + 1)
        ("\\u" ++ Text.hex 4 high ++ "\\u" ++ Text.hex 4 low ++ x :: rest) =
      prepend c (stringFrom start fuel (x :: rest)) := by
  have hpair := joinSurrogates_code high (code?_hex (by omega : low < 0x10000)) hhigh hlow x rest
  rw [hc, CodePoint.ofNat?_val] at hpair
  have hcode := stringFrom_code (code?_hex (by omega : high < 0x10000)) start fuel
    (CodePoint.ofChar '\\') (CodePoint.ofChar 'u' :: (Text.hex 4 low ++ x :: rest))
  simp only [hex_four, List.cons_append, List.nil_append, hpair] at hcode
  exact hcode

/-- A unit gives its code point back, whatever stands behind it. -/
theorem stringFrom_escapeUnit (start : Text) (fuel : Nat) {c : CodePoint} (hc : c.isSurrogate = false)
    (x : CodePoint) (rest : Text) : stringFrom start (fuel + 1) (escapeUnit c ++ x :: rest) =
      prepend c (stringFrom start fuel (x :: rest)) := by
  have hlt := c.isLt
  have hsurrogate : ¬(0xD800 ≤ c.val ∧ c.val < 0xE000) := by simpa [CodePoint.isSurrogate] using hc
  unfold escapeUnit
  split
  · next hmarked =>
    rcases hmarked with rfl | rfl
    · exact stringFrom_escape rfl (by decide) start fuel _
    · exact stringFrom_escape rfl (by decide) start fuel _
  next hmarked =>
  obtain ⟨hquote, hslash⟩ := not_or.mp hmarked
  split
  · next hfeed =>
    rw [hfeed]
    exact stringFrom_escape rfl (by decide) start fuel _
  split
  · next hreturn =>
    rw [hreturn]
    exact stringFrom_escape rfl (by decide) start fuel _
  split
  · next htab =>
    rw [htab]
    exact stringFrom_escape rfl (by decide) start fuel _
  split
  · next hform =>
    have hescape : escape? (CodePoint.ofChar 'f') = some c := by
      rw [← unit_val c, hform]
      rfl
    exact stringFrom_escape hescape (by decide) start fuel _
  split
  · next hback =>
    have hescape : escape? (CodePoint.ofChar 'b') = some c := by
      rw [← unit_val c, hback]
      rfl
    exact stringFrom_escape hescape (by decide) start fuel _
  split
  · next hplain =>
    exact stringFrom_plain hquote hslash (by omega) start fuel _
  split
  · next hbasic =>
    have hcode := stringFrom_code (code?_hex hbasic) start fuel x rest
    rw [joinSurrogates_eq_none (by omega), unit_val] at hcode
    exact hcode
  next hbasic =>
    exact stringFrom_pair (by omega) (by omega) (by omega) start fuel x rest

theorem escapeUnit_ne_nil (c : CodePoint) : escapeUnit c ≠ [] := by
  unfold escapeUnit
  repeat' split
  all_goals exact List.cons_ne_nil _ _

theorem isAscii_hex (n : Nat) : IsAscii (Text.hex 4 n) := by
  have hdigits : IsAscii [CodePoint.ofHexValue (n / 16 / 16 / 16), CodePoint.ofHexValue (n / 16 / 16),
      CodePoint.ofHexValue (n / 16), CodePoint.ofHexValue n] :=
    .cons (ofHexValue_lt _) <| .cons (ofHexValue_lt _) <| .cons (ofHexValue_lt _) <|
      .cons (ofHexValue_lt _) nofun
  exact hdigits

theorem isAscii_escapeUnit (c : CodePoint) : IsAscii (escapeUnit c) := by
  have hslash : IsAscii "\\u" := by decide
  unfold escapeUnit
  split
  · next hmarked => rcases hmarked with rfl | rfl <;> decide
  split
  · decide
  split
  · decide
  split
  · decide
  split
  · decide
  split
  · decide
  split
  · next hplain => exact .cons (by omega) nofun
  split
  · exact hslash.append (isAscii_hex _)
  · exact ((hslash.append (isAscii_hex _)).append hslash).append (isAscii_hex _)

/-! ### Strings -/

/-- Text without surrogates, which JSON strings give back. -/
def HasNoSurrogate (t : Text) : Prop := ∀ c ∈ t, c.isSurrogate = false

instance (t : Text) : Decidable (HasNoSurrogate t) :=
  inferInstanceAs (Decidable (∀ c ∈ t, c.isSurrogate = false))

theorem length_le_units (t : Text) : t.length ≤ (t.flatMap escapeUnit).length := by
  induction t with
  | nil => exact Nat.le_refl 0
  | cons c t ih =>
    have hunit := List.length_pos_iff.mpr (escapeUnit_ne_nil c)
    rw [List.flatMap_cons, List.length_append, List.length_cons]
    omega

theorem stringFrom_units {t : Text} (ht : HasNoSurrogate t) (start : Text) {fuel : Nat}
    (hfuel : t.length < fuel) (rest : Text) :
    stringFrom start fuel (t.flatMap escapeUnit ++ CodePoint.ofChar '"' :: rest) = .ok (t, rest) := by
  induction t generalizing fuel with
  | nil =>
    obtain ⟨fuel, rfl⟩ := Nat.exists_eq_succ_of_ne_zero (Nat.ne_of_gt hfuel)
    rfl
  | cons c t ih =>
    obtain ⟨hc, ht⟩ := List.forall_mem_cons.mp ht
    obtain ⟨fuel, rfl⟩ := Nat.exists_eq_succ_of_ne_zero (Nat.ne_zero_of_lt hfuel)
    -- A code is read with the code point behind it in view, where a low surrogate could stand; at least
    -- the closing quote is there.
    have hne : t.flatMap escapeUnit ++ CodePoint.ofChar '"' :: rest ≠ [] := by simp
    obtain ⟨x, behind, hbehind⟩ := List.exists_cons_of_ne_nil hne
    have hrest := ih ht (Nat.lt_of_succ_lt_succ hfuel)
    rw [List.flatMap_cons, List.append_assoc, hbehind, stringFrom_escapeUnit start fuel hc, ← hbehind,
      hrest]
    rfl

theorem string_eq (t : Text) :
    string t = CodePoint.ofChar '"' :: (t.flatMap escapeUnit ++ [CodePoint.ofChar '"']) := rfl

/-- A text is read back from its string. -/
theorem stringAfter_string {t : Text} (ht : HasNoSurrogate t) (rest : Text) :
    stringAfter (CodePoint.ofChar '"') (t.flatMap escapeUnit ++ CodePoint.ofChar '"' :: rest) =
      .ok (t, rest) := by
  have hlength := length_le_units t
  refine stringFrom_units ht _ ?_ rest
  rw [List.length_append, List.length_cons]
  omega

theorem isAscii_string (t : Text) : IsAscii (string t) := by
  have hunits : IsAscii (t.flatMap escapeUnit) :=
    List.forall_mem_flatMap.mpr fun c _ => isAscii_escapeUnit c
  rw [string_eq]
  exact .cons (by decide) (hunits.append (by decide))

end RandomText.Json
