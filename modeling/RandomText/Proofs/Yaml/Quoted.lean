import RandomText.Proofs.Except
import RandomText.Proofs.Yaml.Cursor

/-!
# Quoted scalars read back

Between double quotes, each unit of a text comes back on its own. Between single quotes, spaces come back
as they stand and line breaks by folding. The next line, U+0085, is the one code point that does not
survive: a document may hold it between single quotes, and there it is read as a line feed.
-/

namespace RandomText.Yaml

namespace Cursor

/-! ### Words between quotes -/

/-- A code point in front of what was read. -/
def prepended (d : CodePoint) (r : Text × Cursor) : Text × Cursor := (d :: r.1, r.2)

section quoted

variable {double : Bool} {c : Cursor} {d : CodePoint} {rest : Text}

theorem quotedWords_word (hc : c.rest = d :: rest) (hd : isQuotedWord d = true) (fuel : Nat) :
    quotedWords double (fuel + 1) c = (quotedWords double (fuel + 1) c.advance).map (prepended d) := by
  have htake : c.takeWhile isQuotedWord =
      (d :: (c.advance.takeWhile isQuotedWord).1, (c.advance.takeWhile isQuotedWord).2) := by
    simp only [Cursor.takeWhile, hc, rest_advance, List.tail_cons, List.takeWhile_cons, hd, if_true,
      List.length_cons, advanceBy]
  have hbehind : ∀ (word found : Text) (c : Cursor),
      (do let r ← quotedWords double fuel c
          return (d :: word ++ found ++ r.1, r.2)) =
      ((do let r ← quotedWords double fuel c
           return (word ++ found ++ r.1, r.2)) : Except Error (Text × Cursor)).map (prepended d) := by
    intro word found c
    cases quotedWords double fuel c <;> rfl
  -- Both sides go on in the same way behind the first word.
  rw [quotedWords, quotedWords, htake]
  simp only [hbehind]
  generalize c.advance.takeWhile isQuotedWord = taken
  split
  · rfl
  split
  · rfl
  split
  · split
    · rfl
    split
    · next width _ => cases taken.2.advance.advance.codeEscape width <;> rfl
    · split
      · next b c' _ => cases quotedBreaks (c'.rest.length + 1) c' <;> rfl
      · rfl
  · rfl

theorem takeWhile_quotedWord_nil (hd : ∀ e ∈ c.rest.head?, isQuotedWord e = false) :
    c.takeWhile isQuotedWord = ([], c) := by
  have hnil : c.rest.takeWhile isQuotedWord = [] := by
    cases hrest : c.rest with
    | nil => rfl
    | cons e rest =>
      rw [hrest] at hd
      rw [List.takeWhile_cons, hd e rfl]
      rfl
  rw [Cursor.takeWhile, hnil]
  rfl

theorem quotedWords_quote (hc : c.rest = CodePoint.ofChar '\'' :: CodePoint.ofChar '\'' :: rest)
    (fuel : Nat) :
    quotedWords false (fuel + 1) c =
      (quotedWords false fuel (c.advanceBy 2)).map (prepended (CodePoint.ofChar '\'')) := by
  have hnil : c.takeWhile isQuotedWord = ([], c) := by
    refine takeWhile_quotedWord_nil ?_
    rw [hc]
    rintro e ⟨⟩
    decide
  rw [quotedWords, hnil]
  simp only [peek_eq hc, peekAt_one_eq hc, List.headD_cons]
  cases quotedWords false fuel (c.advanceBy 2) <;> rfl

theorem quotedWords_other (hc : c.rest = d :: rest)
    (hd : (double = true ∧ d = CodePoint.ofChar '\'') ∨
      (double = false ∧ (d = CodePoint.ofChar '"' ∨ d = CodePoint.ofChar '\\'))) (fuel : Nat) :
    quotedWords double (fuel + 1) c = (quotedWords double fuel c.advance).map (prepended d) := by
  have hnil : c.takeWhile isQuotedWord = ([], c) := by
    refine takeWhile_quotedWord_nil ?_
    rw [hc]
    rintro e ⟨⟩
    rcases hd with ⟨-, rfl⟩ | ⟨-, rfl | rfl⟩ <;> decide
  rw [quotedWords, hnil]
  simp only [peek_eq hc]
  rcases hd with ⟨rfl, rfl⟩ | ⟨rfl, rfl | rfl⟩ <;>
    cases quotedWords _ fuel c.advance <;> rfl

theorem quotedWords_escape {e : CodePoint} (hc : c.rest = CodePoint.ofChar '\\' :: e :: rest)
    (he : escape? e = some d) (fuel : Nat) :
    quotedWords true (fuel + 1) c = (quotedWords true fuel c.advance.advance).map (prepended d) := by
  have hnil : c.takeWhile isQuotedWord = ([], c) := by
    refine takeWhile_quotedWord_nil ?_
    rw [hc]
    rintro e ⟨⟩
    decide
  have hnext : c.advance.rest = e :: rest := by rw [rest_advance, hc]; rfl
  rw [quotedWords, hnil]
  simp only [peek_eq hc, peek_eq hnext, he]
  cases quotedWords true fuel c.advance.advance <;> rfl

theorem quotedWords_code {x : CodePoint} {width : Nat} {c' : Cursor}
    (hc : c.rest = CodePoint.ofChar '\\' :: x :: rest) (hx : escape? x = none)
    (hwidth : escapeWidth? x = some width) (hcode : c.advance.advance.codeEscape width = .ok (d, c'))
    (fuel : Nat) :
    quotedWords true (fuel + 1) c = (quotedWords true fuel c').map (prepended d) := by
  have hnil : c.takeWhile isQuotedWord = ([], c) := by
    refine takeWhile_quotedWord_nil ?_
    rw [hc]
    rintro e ⟨⟩
    decide
  have hnext : c.advance.rest = x :: rest := by rw [rest_advance, hc]; rfl
  rw [quotedWords, hnil]
  simp only [peek_eq hc, peek_eq hnext, hx, hwidth, hcode, Except.ok_bind]
  cases quotedWords true fuel c' <;> rfl

theorem quotedWords_stop (hword : isQuotedWord c.peek = false)
    (hstop : isBlankOrEnd c.peek = true ∨ (double = true ∧ c.peek = CodePoint.ofChar '"') ∨
      (double = false ∧ c.peek = CodePoint.ofChar '\'' ∧ c.peekAt 1 ≠ CodePoint.ofChar '\''))
    (fuel : Nat) : quotedWords double (fuel + 1) c = .ok ([], c) := by
  have hnil : c.takeWhile isQuotedWord = ([], c) := by
    refine takeWhile_quotedWord_nil ?_
    intro e he
    have hpeek : c.peek = e := by
      obtain ⟨rest, hrest⟩ := List.head?_eq_some_iff.mp he
      exact peek_eq hrest
    exact hpeek ▸ hword
  have hblank : ∀ mark : CodePoint, isBlankOrEnd mark = false → isBlankOrEnd c.peek = true →
      c.peek ≠ mark := by
    rintro mark hmark hpeek rfl
    rw [hmark] at hpeek
    cases hpeek
  rw [quotedWords, hnil]
  rcases hstop with hstop | ⟨rfl, hpeek⟩ | ⟨rfl, hpeek, hnext⟩
  · have hquote := hblank (CodePoint.ofChar '\'') (by decide) hstop
    have hquotes := hblank (CodePoint.ofChar '"') (by decide) hstop
    have hslash := hblank (CodePoint.ofChar '\\') (by decide) hstop
    simp only [hquote, hquotes, hslash]
    simp
    rfl
  · simp only [hpeek]
    rfl
  · simp only [hpeek, hnext]
    rfl

end quoted

end Cursor

/-! ### Escapes -/

theorem hexValue?_ofUpperHexValue (n : Nat) : (CodePoint.ofUpperHexValue n).hexValue? = some (n % 16) := by
  have hdigits : ∀ k < 16, (CodePoint.ofChar (Nat.digitChar k).toUpper).hexValue? = some k := by decide
  exact hdigits (n % 16) (Nat.mod_lt n (by decide))

theorem length_upperHex (count n : Nat) : (Text.upperHex count n).length = count := by
  induction count generalizing n with
  | zero => rfl
  | succ count ih => rw [Text.upperHex, List.length_append, ih, List.length_singleton]

theorem hexNumber?_upperHex (count n : Nat) :
    Cursor.hexNumber? (Text.upperHex count n) = some (n % 16 ^ count) := by
  induction count generalizing n with
  | zero => rw [Nat.pow_zero, Nat.mod_one]; rfl
  | succ count ih =>
    have hfront := ih (n / 16)
    unfold Cursor.hexNumber? at hfront ⊢
    rw [Text.upperHex, List.foldl_append, hfront, List.foldl_cons, List.foldl_nil,
      hexValue?_ofUpperHexValue, Nat.pow_succ, Nat.mul_comm, Nat.mod_mul]
    show some (n / 16 % 16 ^ count * 16 + n % 16) = _
    rw [Nat.add_comm, Nat.mul_comm]

theorem codeEscape_upperHex {width : Nat} {d : CodePoint} (hwidth : d.val < 16 ^ width) {c : Cursor}
    {rest : Text} (hc : c.rest = Text.upperHex width d.val ++ rest) :
    c.codeEscape width = .ok (d, c.advanceBy width) := by
  have hlength := length_upperHex width d.val
  have htake : c.rest.take width = Text.upperHex width d.val := by
    rw [hc, List.take_append_of_le_length (by omega), List.take_of_length_le (by omega)]
  have hnumber : Cursor.hexNumber? (Text.upperHex width d.val) = some d.val := by
    rw [hexNumber?_upperHex, Nat.mod_eq_of_lt hwidth]
  have hsmall := d.isLt
  rw [Cursor.codeEscape]
  simp only [htake, hnumber]
  rw [if_neg (by omega), if_neg (by omega), CodePoint.ofNat?_val]

namespace Cursor

/-- Within a quoted text, `unit` is read as one code point. -/
def Denotes (double : Bool) (unit : Text) (d : CodePoint) : Prop :=
  ∀ (fuel : Nat) (c : Cursor) (rest : Text), c.rest = unit ++ rest →
    ∃ c' fuel', c'.rest = rest ∧ fuel ≤ fuel' ∧
      quotedWords double (fuel + 1) c = (quotedWords double fuel' c').map (prepended d)

theorem denotes_word {double : Bool} {d : CodePoint} (hd : isQuotedWord d = true) :
    Denotes double [d] d := by
  intro fuel c rest hc
  refine ⟨c.advance, fuel + 1, ?_, Nat.le_succ fuel, quotedWords_word hc hd fuel⟩
  rw [rest_advance, hc]
  rfl

theorem denotes_other {double : Bool} {d : CodePoint}
    (hd : (double = true ∧ d = CodePoint.ofChar '\'') ∨
      (double = false ∧ (d = CodePoint.ofChar '"' ∨ d = CodePoint.ofChar '\\'))) :
    Denotes double [d] d := by
  intro fuel c rest hc
  refine ⟨c.advance, fuel, ?_, Nat.le_refl fuel, quotedWords_other hc hd fuel⟩
  rw [rest_advance, hc]
  rfl

theorem denotes_code {x : CodePoint} {width : Nat} {d : CodePoint} (hx : escape? x = none)
    (hwidth : escapeWidth? x = some width) (hd : d.val < 16 ^ width) :
    Denotes true (CodePoint.ofChar '\\' :: x :: Text.upperHex width d.val) d := by
  intro fuel c rest hc
  have hbehind : c.advance.advance.rest = Text.upperHex width d.val ++ rest := by
    rw [rest_advance, rest_advance, hc]
    rfl
  refine ⟨c.advance.advance.advanceBy width, fuel, ?_, Nat.le_refl fuel,
    quotedWords_code hc hx hwidth (codeEscape_upperHex hd hbehind) fuel⟩
  rw [rest_advanceBy, hbehind, List.drop_left' (length_upperHex width d.val)]

theorem denotes_escape {e d : CodePoint} (he : escape? e = some d) :
    Denotes true [CodePoint.ofChar '\\', e] d := by
  intro fuel c rest hc
  refine ⟨c.advance.advance, fuel, ?_, Nat.le_refl fuel, quotedWords_escape hc he fuel⟩
  rw [rest_advance, rest_advance, hc]
  rfl

theorem escapeUnit_cases {d : CodePoint} (hd : Scalar.isSpace d = false) :
    (∃ more, Scalar.escapeUnit d = CodePoint.ofChar '\\' :: more ∧ Denotes true (Scalar.escapeUnit d) d) ∨
      (Scalar.escapeUnit d = [d] ∧ isBlankOrEnd d = false ∧ d ≠ CodePoint.ofChar '"' ∧
        d ≠ CodePoint.ofChar '\\') := by
  have hletters : ∀ e ∈ Scalar.letterEscapes, escape? (CodePoint.ofChar e.2) = CodePoint.ofNat? e.1 := by
    decide
  rw [Scalar.escapeUnit]
  split
  · next v letter hfind =>
    have hmem := List.mem_of_find?_eq_some hfind
    have hval : v = d.val := by simpa using List.find?_some hfind
    have hletter := hletters _ hmem
    rw [hval, CodePoint.ofNat?_val] at hletter
    exact .inl ⟨_, rfl, denotes_escape hletter⟩
  · next hfind =>
    have hnone : ∀ e ∈ Scalar.letterEscapes, e.1 ≠ d.val := by
      intro e he
      simpa using List.find?_eq_none.mp hfind e he
    split
    · next hrange =>
      have hquotes : 0x22 ≠ d.val := hnone (0x22, '"') (by decide)
      have hslash : 0x5C ≠ d.val := hnone (0x5C, '\\') (by decide)
      have hnext : 0x85 ≠ d.val := hnone (0x85, 'N') (by decide)
      have hline : 0x2028 ≠ d.val := hnone (0x2028, 'L') (by decide)
      have hparagraph : 0x2029 ≠ d.val := hnone (0x2029, 'P') (by decide)
      simp only [Scalar.isSpace, decide_eq_false_iff_not, CodePoint.eq_ofChar_iff,
        Char.reduceToNat] at hd
      refine .inr ⟨rfl, ?_, ?_, ?_⟩
      · rw [Bool.eq_false_iff, ne_eq, isBlankOrEnd_iff, isBreak_iff]
        omega
      · rw [ne_eq, CodePoint.eq_ofChar_iff]
        exact Ne.symm hquotes
      · rw [ne_eq, CodePoint.eq_ofChar_iff]
        exact Ne.symm hslash
    · have hsmall := d.isLt
      refine .inl ?_
      split
      · next hlt => exact ⟨_, rfl, denotes_code (x := CodePoint.ofChar 'x') (by decide) (by decide) hlt⟩
      split
      · next hlt => exact ⟨_, rfl, denotes_code (x := CodePoint.ofChar 'u') (by decide) (by decide) hlt⟩
      · exact ⟨_, rfl, denotes_code (x := CodePoint.ofChar 'U') (by decide) (by decide) (by omega)⟩

theorem isQuotedWord_of {d : CodePoint} (hblank : isBlankOrEnd d = false)
    (hquote : d ≠ CodePoint.ofChar '\'') (hquotes : d ≠ CodePoint.ofChar '"')
    (hslash : d ≠ CodePoint.ofChar '\\') : isQuotedWord d = true := by
  simp [isQuotedWord, hblank, hquote, hquotes, hslash]

theorem denotes_escapeUnit {d : CodePoint} (hd : Scalar.isSpace d = false) :
    Denotes true (Scalar.escapeUnit d) d := by
  rcases escapeUnit_cases hd with ⟨-, -, hdenotes⟩ | ⟨heq, hblank, hquotes, hslash⟩
  · exact hdenotes
  · rw [heq]
    by_cases hquote : d = CodePoint.ofChar '\''
    · exact denotes_other (.inl ⟨rfl, hquote⟩)
    · exact denotes_word (isQuotedWord_of hblank hquote hquotes hslash)

/-- A code point between single quotes. -/
def quoteUnit (d : CodePoint) : Text := if d = '\'' then [d, d] else [d]

theorem denotes_quoteUnit {d : CodePoint} (hd : isBlankOrEnd d = false) :
    Denotes false (quoteUnit d) d := by
  rw [quoteUnit]
  by_cases hquote : d = CodePoint.ofChar '\''
  · rw [if_pos hquote]
    subst hquote
    intro fuel c rest hc
    refine ⟨c.advanceBy 2, fuel, ?_, Nat.le_refl fuel, quotedWords_quote hc fuel⟩
    rw [rest_advanceBy, hc]
    rfl
  · rw [if_neg hquote]
    by_cases hother : d = CodePoint.ofChar '"' ∨ d = CodePoint.ofChar '\\'
    · exact denotes_other (.inr ⟨rfl, hother⟩)
    · rw [not_or] at hother
      exact denotes_word (isQuotedWord_of hd hquote hother.1 hother.2)

/-- Where the words of a quoted text end: at a blank or at the closing quote. -/
def Stops (double : Bool) (rest : Text) : Prop :=
  isBlankOrEnd (rest.headD finish) = true ∨ (double = true ∧ rest.headD finish = CodePoint.ofChar '"') ∨
    (double = false ∧ rest.headD finish = CodePoint.ofChar '\'' ∧
      rest.tail.headD finish ≠ CodePoint.ofChar '\'')

theorem quotedWords_of_stops {double : Bool} {c : Cursor} (h : Stops double c.rest) (fuel : Nat) :
    quotedWords double (fuel + 1) c = .ok ([], c) := by
  have hsecond : c.peekAt 1 = c.rest.tail.headD finish := by
    rw [peekAt]
    rcases c.rest with _ | ⟨d, _ | ⟨e, rest⟩⟩ <;> rfl
  refine quotedWords_stop ?_ ?_ fuel
  · rw [peek, isQuotedWord]
    rcases h with hblank | ⟨-, hquote⟩ | ⟨-, hquote, -⟩
    · rw [hblank]
      rfl
    · rw [hquote]
      decide
    · rw [hquote]
      decide
  · rwa [hsecond, peek]

theorem quotedWords_units {double : Bool} (unit : CodePoint → Text) {word : Text}
    (hword : ∀ d ∈ word, Denotes double (unit d) d) {rest : Text} (hrest : Stops double rest)
    (fuel : Nat) (hfuel : word.length < fuel) {c : Cursor} (hc : c.rest = word.flatMap unit ++ rest) :
    ∃ c', c'.rest = rest ∧ quotedWords double fuel c = .ok (word, c') := by
  induction word generalizing fuel c with
  | nil =>
    obtain ⟨fuel, rfl⟩ : ∃ k, fuel = k + 1 := ⟨fuel - 1, by omega⟩
    exact ⟨c, hc, quotedWords_of_stops (hc ▸ hrest) fuel⟩
  | cons d word ih =>
    obtain ⟨fuel, rfl⟩ : ∃ k, fuel = k + 1 := ⟨fuel - 1, by omega⟩
    obtain ⟨hd, hword⟩ := List.forall_mem_cons.mp hword
    rw [List.flatMap_cons, List.append_assoc] at hc
    rw [List.length_cons] at hfuel
    obtain ⟨c', fuel', hc', hle, hstep⟩ := hd fuel c _ hc
    obtain ⟨c'', hc'', hothers⟩ := ih hword fuel' (by omega) hc'
    refine ⟨c'', hc'', ?_⟩
    rw [hstep, hothers]
    rfl

/-! ### Blanks between quotes -/

/-- A break that is read as itself: the next line is not. -/
def isKeptBreak (d : CodePoint) : Bool := Scalar.isTextBreak d && d.val ≠ 0x85

theorem isKeptBreak_iff {d : CodePoint} :
    isKeptBreak d = true ↔ d.val = 10 ∨ d.val = 0x2028 ∨ d.val = 0x2029 := by
  rw [isKeptBreak, Bool.and_eq_true, Scalar.isTextBreak_iff, decide_eq_true_eq]
  omega

section blanks

variable {c : Cursor} {d : CodePoint} {rest : Text}

theorem lineBreak?_kept (hc : c.rest = d :: rest) (hd : isKeptBreak d = true) :
    c.lineBreak? = some (d, c.advance) := by
  rw [isKeptBreak_iff] at hd
  rw [lineBreak?]
  simp only [peek_eq hc]
  rw [if_neg (by omega)]
  rcases hd with hd | hd
  · rw [if_pos (by omega), show d = CodePoint.ofChar '\n' from CodePoint.ext_val hd]
  · rw [if_neg (by omega), if_pos hd]

theorem takeWhile_blank {n : Nat} (hc : c.rest = Scalar.spaces n ++ rest)
    (hrest : isBlankOrEnd (rest.headD finish) = false ∨ isBreak (rest.headD finish) = true) :
    c.takeWhile (fun d => d = ' ' || d = '\t') = (Scalar.spaces n, c.advanceBy n) := by
  have hlength := Scalar.length_spaces n
  have hstop : (decide (rest.headD finish = CodePoint.ofChar ' ') ||
      decide (rest.headD finish = CodePoint.ofChar '\t')) = false := by
    simp only [Bool.eq_false_iff, ne_eq, isBlankOrEnd_iff, isBreak_iff] at hrest
    simp only [Bool.or_eq_false_iff, decide_eq_false_iff_not, CodePoint.eq_ofChar_iff,
      Char.reduceToNat]
    omega
  have hspaces : ∀ d ∈ Scalar.spaces n, (decide (d = CodePoint.ofChar ' ') ||
      decide (d = CodePoint.ofChar '\t')) = true := by
    intro d hd
    rw [List.eq_of_mem_replicate hd]
    decide
  have htake := takeWhile_word (fun d => decide (d = CodePoint.ofChar ' ') ||
    decide (d = CodePoint.ofChar '\t')) _ rest c.index c.line c.column hspaces (.inl hstop)
  rw [← hc, hlength] at htake
  exact htake

theorem quotedBlanks_spaces {n : Nat} (hc : c.rest = Scalar.spaces n ++ rest)
    (hrest : isBlankOrEnd (rest.headD finish) = false) :
    quotedBlanks c = .ok (Scalar.spaces n, c.advanceBy n) := by
  have hbehind : (c.advanceBy n).rest = rest := by
    rw [rest_advanceBy, hc, List.drop_left' (Scalar.length_spaces _)]
  have hpeek : (c.advanceBy n).peek = rest.headD finish := by rw [peek, hbehind]
  rw [← hpeek] at hrest
  have hnone : (c.advanceBy n).lineBreak? = none := by
    refine lineBreak?_eq_none ?_
    rw [Bool.eq_false_iff]
    intro hbreak
    rw [Bool.eq_false_iff, ne_eq, isBlankOrEnd_iff] at hrest
    exact hrest (.inr (.inl hbreak))
  have hend : isEnd (c.advanceBy n).peek = false := by
    rw [Bool.eq_false_iff, ne_eq, isBlankOrEnd_iff] at hrest
    rw [isEnd, decide_eq_false_iff_not]
    exact fun h => hrest (.inl h)
  rw [quotedBlanks, takeWhile_blank hc (.inl (hpeek ▸ hrest))]
  simp only [hnone, hend]
  rfl

theorem quotedBreaks_run {run : Text} (hrun : ∀ d ∈ run, isKeptBreak d = true) {indent : Nat}
    (hindent : 1 ≤ indent) (hrest : isBlankOrEnd (rest.headD finish) = false) (fuel : Nat)
    (hfuel : run.length < fuel) (hc : c.rest = run ++ Scalar.spaces indent ++ rest) :
    ∃ c', c'.rest = rest ∧ quotedBreaks fuel c = .ok (run, c') := by
  induction run generalizing fuel c with
  | nil =>
    obtain ⟨fuel, rfl⟩ : ∃ k, fuel = k + 1 := ⟨fuel - 1, by omega⟩
    obtain ⟨indent, rfl⟩ : ∃ k, indent = k + 1 := ⟨indent - 1, by omega⟩
    have hpeek : c.peek = CodePoint.ofChar ' ' := by rw [peek, hc]; rfl
    have hbehind : (c.advanceBy (indent + 1)).rest = rest := by
      rw [rest_advanceBy, hc, List.nil_append, List.drop_left' (Scalar.length_spaces _)]
    have hnone : (c.advanceBy (indent + 1)).lineBreak? = none := by
      refine lineBreak?_eq_none ?_
      rw [Bool.eq_false_iff]
      intro hbreak
      rw [peek, hbehind] at hbreak
      rw [Bool.eq_false_iff, ne_eq, isBlankOrEnd_iff] at hrest
      exact hrest (.inr (.inl hbreak))
    refine ⟨c.advanceBy (indent + 1), hbehind, ?_⟩
    rw [quotedBreaks, hasDocumentMark_eq_false (by rw [hpeek]; decide) (by rw [hpeek]; decide)]
    simp only [skipWhile, takeWhile_blank hc (.inl hrest), hnone]
    rfl
  | cons b run ih =>
    obtain ⟨fuel, rfl⟩ : ∃ k, fuel = k + 1 := ⟨fuel - 1, by omega⟩
    obtain ⟨hb, hrun⟩ := List.forall_mem_cons.mp hrun
    have hpeek : c.peek = b := peek_eq hc
    have hbreak : isBreak b = true := by
      rw [isKeptBreak_iff] at hb
      rw [isBreak_iff]
      omega
    have hne : ∀ mark : CodePoint, isBreak mark = false → c.peek ≠ mark := by
      rintro mark hmark rfl
      rw [hpeek, hbreak] at hmark
      cases hmark
    have hskip : c.takeWhile (fun d => d = ' ' || d = '\t') = ([], c) :=
      takeWhile_blank (n := 0) hc (.inr hbreak)
    have hnext : c.advance.rest = run ++ Scalar.spaces indent ++ rest := by
      rw [rest_advance, hc]
      rfl
    rw [List.length_cons] at hfuel
    obtain ⟨c', hc', hothers⟩ := ih hrun fuel (by omega) hnext
    refine ⟨c', hc', ?_⟩
    rw [quotedBreaks, hasDocumentMark_eq_false (hne _ (by decide)) (hne _ (by decide))]
    simp only [skipWhile, hskip, lineBreak?_kept hc hb, hothers]
    rfl

/-- A run of breaks between single quotes, with its first line feed written twice, is folded to the
run. -/
theorem quotedBlanks_breaks {run : Text} (hrun : ∀ b ∈ d :: run, isKeptBreak b = true) {indent : Nat}
    (hindent : 1 ≤ indent) (hrest : isBlankOrEnd (rest.headD finish) = false)
    (hc : c.rest = (if d = '\n' then [d, d] else [d]) ++ run ++ Scalar.spaces indent ++ rest) :
    ∃ c', c'.rest = rest ∧ quotedBlanks c = .ok (d :: run, c') := by
  obtain ⟨hd, hothers⟩ := List.forall_mem_cons.mp hrun
  obtain ⟨more, hmore⟩ : ∃ more, c.rest = d :: more := by
    rw [hc]
    split <;> exact ⟨_, rfl⟩
  have hbreak : isBreak d = true := by
    rw [isKeptBreak_iff] at hd
    rw [isBreak_iff]
    omega
  have hskip : c.takeWhile (fun d => d = ' ' || d = '\t') = ([], c) :=
    takeWhile_blank (n := 0) hmore (.inr hbreak)
  have hlength : ∀ c : Cursor, ∀ run : Text, c.rest = run ++ Scalar.spaces indent ++ rest →
      run.length < c.rest.length + 1 := by
    intro c run hc
    rw [hc, List.length_append, List.length_append]
    omega
  have hnext : c.advance.rest = more := by
    rw [rest_advance, hmore]
    rfl
  rw [quotedBlanks, hskip]
  simp only [lineBreak?_kept hmore hd]
  by_cases hfeed : d = CodePoint.ofChar '\n'
  · have hbehind : c.advance.rest = (d :: run) ++ Scalar.spaces indent ++ rest := by
      rw [if_pos hfeed] at hc
      rw [rest_advance, hc]
      rfl
    obtain ⟨c', hc', hbreaks⟩ := quotedBreaks_run hrun hindent hrest _ (hlength _ _ hbehind) hbehind
    refine ⟨c', hc', ?_⟩
    have hfolded : folded d (d :: run) = d :: run := by
      rw [folded, if_neg (not_not_intro hfeed)]
      rfl
    rw [hbreaks, Except.ok_bind, hfolded]
    rfl
  · have hbehind : c.advance.rest = run ++ Scalar.spaces indent ++ rest := by
      rw [if_neg hfeed] at hc
      rw [rest_advance, hc]
      rfl
    obtain ⟨c', hc', hbreaks⟩ := quotedBreaks_run hothers hindent hrest _ (hlength _ _ hbehind) hbehind
    refine ⟨c', hc', ?_⟩
    have hfolded : folded d run = d :: run := by rw [folded, if_pos hfeed]
    rw [hbreaks, Except.ok_bind, hfolded]
    rfl

end blanks

/-! ### Quoted texts -/

/-- The mark of a style of quoting. -/
def quoteMark (double : Bool) : CodePoint :=
  if double then CodePoint.ofChar '"' else CodePoint.ofChar '\''

section loop

variable {double : Bool} {fuel : Nat} {c c' c'' : Cursor} {words blanks others : Text}

theorem quotedFrom_end (hwords : quotedWords double (fuel + 1) c = .ok (words, c'))
    (hquote : c'.peek = quoteMark double) : quotedFrom double (fuel + 1) c = .ok (words, c'.advance) := by
  rw [quotedFrom, hwords]
  exact if_pos hquote

theorem quotedFrom_blanks (hwords : quotedWords double (fuel + 1) c = .ok (words, c'))
    (hquote : c'.peek ≠ quoteMark double) (hblanks : quotedBlanks c' = .ok (blanks, c''))
    {end' : Cursor} (hothers : quotedFrom double fuel c'' = .ok (others, end')) :
    quotedFrom double (fuel + 1) c = .ok (words ++ blanks ++ others, end') := by
  rw [quotedFrom, hwords]
  refine (if_neg hquote).trans ?_
  rw [hblanks]
  simp only [Except.ok_bind, hothers]
  rfl

end loop

theorem flatMap_escapeUnit_spaces (n : Nat) :
    (Scalar.spaces n).flatMap Scalar.escapeUnit = Scalar.spaces n := by
  have hspace : Scalar.escapeUnit (CodePoint.ofChar ' ') = [CodePoint.ofChar ' '] := by decide
  rw [Scalar.spaces, List.flatMap_replicate, hspace]
  simp

theorem isBlankOrEnd_escaped {t : Text} (ht : ∀ d ∈ t.head?, Scalar.isSpace d = false)
    (rest : Text) : isBlankOrEnd
      ((t.flatMap Scalar.escapeUnit ++ CodePoint.ofChar '"' :: rest).headD finish) = false := by
  cases t with
  | nil =>
    show isBlankOrEnd (CodePoint.ofChar '"') = false
    decide
  | cons d t =>
    rw [List.flatMap_cons]
    rcases escapeUnit_cases (ht d rfl) with ⟨more, heq, -⟩ | ⟨heq, hblank, -⟩
    · rw [heq]
      show isBlankOrEnd (CodePoint.ofChar '\\') = false
      decide
    · rw [heq]
      exact hblank

/-- Between double quotes, every text is read back. -/
theorem quotedFrom_double (t rest : Text) (fuel : Nat) (hfuel : t.length < fuel) {c : Cursor}
    (hc : c.rest = t.flatMap Scalar.escapeUnit ++ CodePoint.ofChar '"' :: rest) :
    ∃ c', c'.rest = rest ∧ quotedFrom true fuel c = .ok (t, c') := by
  induction hn : t.length using Nat.strongRecOn generalizing t fuel c with
  | ind n ih =>
    subst hn
    obtain ⟨fuel, rfl⟩ : ∃ k, fuel = k + 1 := ⟨fuel - 1, by omega⟩
    obtain ⟨word, others, rfl, hword, hothers⟩ := exists_run (fun d => !Scalar.isSpace d) t
    have hunits : ∀ d ∈ word, Denotes true (Scalar.escapeUnit d) d := by
      intro d hd
      exact denotes_escapeUnit (by simpa using hword d hd)
    rw [List.flatMap_append, List.append_assoc] at hc
    rw [List.length_append] at hfuel
    cases others with
    | nil =>
      have hstops : Stops true (CodePoint.ofChar '"' :: rest) := .inr (.inl ⟨rfl, rfl⟩)
      obtain ⟨c', hc', hwords⟩ := quotedWords_units _ hunits hstops (fuel + 1) (by omega) hc
      refine ⟨c'.advance, ?_, ?_⟩
      · rw [rest_advance, hc']
        rfl
      · rw [List.append_nil]
        exact quotedFrom_end hwords (peek_eq hc')
    | cons s others =>
      have hs : Scalar.isSpace s = true := by simpa using hothers s rfl
      obtain ⟨run, t', rfl, hrun, ht'⟩ := exists_run Scalar.isSpace others
      have hspaces : s :: run = Scalar.spaces (run.length + 1) :=
        eq_spaces (List.forall_mem_cons.mpr ⟨hs, hrun⟩)
      have hwritten : (s :: (run ++ t')).flatMap Scalar.escapeUnit =
          Scalar.spaces (run.length + 1) ++ t'.flatMap Scalar.escapeUnit := by
        rw [← List.cons_append, List.flatMap_append, hspaces, flatMap_escapeUnit_spaces]
      have hnext := isBlankOrEnd_escaped ht' rest
      rw [hwritten, List.append_assoc] at hc
      have hstops : Stops true (Scalar.spaces (run.length + 1) ++
          (t'.flatMap Scalar.escapeUnit ++ CodePoint.ofChar '"' :: rest)) :=
        .inl (show isBlankOrEnd (CodePoint.ofChar ' ') = true by decide)
      obtain ⟨c', hc', hwords⟩ := quotedWords_units _ hunits hstops (fuel + 1) (by omega) hc
      have hblanks := quotedBlanks_spaces hc' hnext
      have hbehind : (c'.advanceBy (run.length + 1)).rest =
          t'.flatMap Scalar.escapeUnit ++ CodePoint.ofChar '"' :: rest := by
        rw [rest_advanceBy, hc', List.drop_left' (Scalar.length_spaces _)]
      simp only [List.length_cons, List.length_append] at hfuel
      obtain ⟨c'', hc'', hloop⟩ := ih t'.length (by simp only [List.length_cons, List.length_append]; omega)
        t' fuel (by omega) hbehind rfl
      refine ⟨c'', hc'', ?_⟩
      have hquote : c'.peek ≠ quoteMark true := by
        rw [peek, hc']
        show CodePoint.ofChar ' ' ≠ _
        decide
      rw [quotedFrom_blanks hwords hquote hblanks hloop, ← hspaces]
      simp

theorem length_le_flatMap {unit : CodePoint → Text} {t : Text} (h : ∀ d ∈ t, unit d ≠ []) :
    t.length ≤ (t.flatMap unit).length := by
  induction t with
  | nil => exact Nat.le_refl _
  | cons d t ih =>
    obtain ⟨hd, ht⟩ := List.forall_mem_cons.mp h
    have hunit := List.length_pos_iff.mpr hd
    have hrest := ih ht
    rw [List.length_cons, List.flatMap_cons, List.length_append]
    omega

theorem escapeUnit_ne_nil (d : CodePoint) : Scalar.escapeUnit d ≠ [] := by
  cases hd : Scalar.isSpace d with
  | false =>
    rcases escapeUnit_cases hd with ⟨more, heq, -⟩ | ⟨heq, -⟩ <;> rw [heq] <;> exact List.cons_ne_nil _ _
  | true =>
    rw [show d = CodePoint.ofChar ' ' from of_decide_eq_true hd]
    decide

theorem quotedScalar_double (t rest : Text) {c : Cursor} (hc : c.rest = Scalar.doubleQuoted t ++ rest) :
    ∃ c', c'.rest = rest ∧ quotedScalar true c = .ok (t, c') := by
  have hwritten : c.rest =
      CodePoint.ofChar '"' :: (t.flatMap Scalar.escapeUnit ++ CodePoint.ofChar '"' :: rest) := by
    rw [hc, Scalar.doubleQuoted, List.append_assoc, List.append_assoc]
    rfl
  have hlength := length_le_flatMap (t := t) fun d _ => escapeUnit_ne_nil d
  refine quotedFrom_double t rest _ ?_ ?_
  · rw [hwritten, List.length_cons, List.length_append]
    omega
  · rw [rest_advance, hwritten]
    rfl

end Cursor

namespace Scalar

/-- What a text between single quotes has from any of its words on. -/
structure Quotable (t : Text) : Prop where
  not_special : ∀ c ∈ t, isSpecial c = false
  ne_nextLine : ∀ c ∈ t, c.val ≠ 0x85
  breaks : hasNeighbours isTextBreak isSpace t = false
  spaces : hasNeighbours isSpace isTextBreak t = false

theorem Quotable.behind {s t : Text} (h : Quotable (s ++ t)) : Quotable t :=
  ⟨fun c hc => h.not_special c (List.mem_append_right s hc),
    fun c hc => h.ne_nextLine c (List.mem_append_right s hc),
    hasNeighbours_behind h.breaks, hasNeighbours_behind h.spaces⟩

theorem Quotable.isBlankOrEnd {t : Text} (h : Quotable t) {d : CodePoint} (hd : d ∈ t)
    (hbreak : isTextBreak d = false) (hspace : isSpace d = false) : isBlankOrEnd d = false := by
  rw [isBlankOrEnd_of_isInner (isInner_iff.mpr ⟨h.not_special d hd, hbreak⟩), hspace]

theorem Quotable.exists_word {t : Text} (ht : Quotable t) :
    ∃ word others, t = word ++ others ∧ (∀ d ∈ word, Yaml.isBlankOrEnd d = false) ∧
      (others = [] ∨ ∃ d run t', others = d :: run ++ t' ∧
        (∀ e ∈ t'.head?, isTextBreak e = false ∧ isSpace e = false) ∧
        ((∀ e ∈ d :: run, isSpace e = true) ∨ ∀ e ∈ d :: run, isTextBreak e = true)) := by
  obtain ⟨word, others, rfl, hword, hothers⟩ := exists_run (fun d => !isTextBreak d && !isSpace d) t
  have hnotBlank : ∀ d ∈ word, Yaml.isBlankOrEnd d = false := by
    intro d hd
    have := hword d hd
    rw [Bool.and_eq_true, Bool.not_eq_true', Bool.not_eq_true'] at this
    exact ht.isBlankOrEnd (List.mem_append_left others hd) this.1 this.2
  refine ⟨word, others, rfl, hnotBlank, ?_⟩
  cases others with
  | nil => exact .inl rfl
  | cons d others =>
    right
    have ht' := ht.behind
    -- The run goes on with the first kind of blank; what follows it is of neither kind.
    have hrun : ∀ p q : CodePoint → Bool, hasNeighbours p q (d :: others) = false → p d = true →
        ∃ run t', d :: others = d :: run ++ t' ∧ (∀ e ∈ d :: run, p e = true) ∧
          ∀ e ∈ t'.head?, p e = false ∧ q e = false := by
      intro p q hpq hd
      obtain ⟨run, t', rfl, hrun, hafter⟩ := exists_run p others
      have hall : ∀ e ∈ d :: run, p e = true := List.forall_mem_cons.mpr ⟨hd, hrun⟩
      refine ⟨run, t', rfl, hall, fun e he => ⟨hafter e he, ?_⟩⟩
      have hlast := List.getLast?_eq_some_getLast (List.cons_ne_nil d run)
      rw [← List.cons_append] at hpq
      exact not_neighbours hpq hlast he (hall _ (List.getLast_mem _))
    have hd := hothers d rfl
    cases hbreak : isTextBreak d with
    | true =>
      obtain ⟨run, t', heq, hall, hafter⟩ := hrun _ _ ht'.breaks hbreak
      exact ⟨d, run, t', heq, hafter, .inr hall⟩
    | false =>
      have hspace : isSpace d = true := by simpa [hbreak] using hd
      obtain ⟨run, t', heq, hall, hafter⟩ := hrun _ _ ht'.spaces hspace
      exact ⟨d, run, t', heq, fun e he => (hafter e he).symm, .inl hall⟩

theorem singleQuotedFrom_word (indent : Nat) (word t : Text) (hword : ∀ d ∈ word, isTextBreak d = false) :
    singleQuotedFrom indent false (word ++ t) =
      word.flatMap Cursor.quoteUnit ++ singleQuotedFrom indent false t := by
  induction word with
  | nil => rfl
  | cons d word ih =>
    obtain ⟨hd, hword⟩ := List.forall_mem_cons.mp hword
    rw [List.cons_append, singleQuotedFrom, if_neg (by rw [hd]; nofun), ih hword, if_neg nofun]
    rw [List.flatMap_cons, Cursor.quoteUnit, List.nil_append, List.append_assoc]

theorem singleQuotedFrom_breaks (indent : Nat) (run t : Text) (hrun : ∀ d ∈ run, isTextBreak d = true)
    (ht : ∀ d ∈ t.head?, isTextBreak d = false) :
    singleQuotedFrom indent true (run ++ t) =
      run ++ spaces indent ++ singleQuotedFrom indent false t := by
  induction run with
  | nil =>
    cases t with
    | nil => simp [singleQuotedFrom]
    | cons d t =>
      have hd : isTextBreak d = false := ht d rfl
      simp [singleQuotedFrom, hd]
  | cons d run ih =>
    obtain ⟨hd, hrun⟩ := List.forall_mem_cons.mp hrun
    rw [List.cons_append, singleQuotedFrom, if_pos hd, ih hrun]
    simp

end Scalar

namespace Cursor

theorem quotedBlanks_run {indent : Nat} (hindent : 1 ≤ indent) {d : CodePoint} {run t rest : Text}
    (hnext : ∀ e ∈ d :: run ++ t, e.val ≠ 0x85)
    (hrun : (∀ e ∈ d :: run, Scalar.isSpace e = true) ∨ ∀ e ∈ d :: run, Scalar.isTextBreak e = true)
    (ht : ∀ e ∈ t.head?, Scalar.isTextBreak e = false)
    (hrest : isBlankOrEnd ((Scalar.singleQuotedFrom indent false t ++ rest).headD finish) = false) :
    isBlankOrEnd d = true ∧ ∃ more,
      Scalar.singleQuotedFrom indent false (d :: run ++ t) ++ rest = d :: more ∧
      ∀ c : Cursor, c.rest = d :: more →
        ∃ c', c'.rest = Scalar.singleQuotedFrom indent false t ++ rest ∧
          quotedBlanks c = .ok (d :: run, c') := by
  rcases hrun with hrun | hrun
  · have hspaces := eq_spaces hrun
    have hd : d = CodePoint.ofChar ' ' := of_decide_eq_true (hrun d List.mem_cons_self)
    have hself : (d :: run).flatMap quoteUnit = d :: run := by
      rw [hspaces, Scalar.spaces, List.flatMap_replicate,
        show quoteUnit (CodePoint.ofChar ' ') = [CodePoint.ofChar ' '] from by decide]
      simp
    have hinner : ∀ e ∈ d :: run, Scalar.isTextBreak e = false := by
      intro e he
      rw [show e = CodePoint.ofChar ' ' from of_decide_eq_true (hrun e he)]
      decide
    rw [Scalar.singleQuotedFrom_word indent (d :: run) t hinner, hself, List.append_assoc]
    refine ⟨by rw [hd]; decide, run ++ (Scalar.singleQuotedFrom indent false t ++ rest), rfl, ?_⟩
    intro c hc
    rw [← List.cons_append, hspaces] at hc
    refine ⟨c.advanceBy (d :: run).length, ?_, ?_⟩
    · rw [rest_advanceBy, hc, List.drop_left' (Scalar.length_spaces _)]
    · rw [quotedBlanks_spaces hc hrest, ← hspaces]
  · have hkept : ∀ e ∈ d :: run, isKeptBreak e = true := by
      intro e he
      rw [isKeptBreak, hrun e he, decide_eq_true (hnext e (List.mem_append_left t he))]
      rfl
    have hd := hrun d List.mem_cons_self
    have hblank : isBlankOrEnd d = true := by
      rw [Scalar.isTextBreak_iff] at hd
      rw [isBlankOrEnd_iff, isBreak_iff]
      omega
    have hwritten : Scalar.singleQuotedFrom indent false (d :: run ++ t) ++ rest =
        (if d = '\n' then [d, d] else [d]) ++ run ++ Scalar.spaces indent ++
          (Scalar.singleQuotedFrom indent false t ++ rest) := by
      rw [List.cons_append, Scalar.singleQuotedFrom, if_pos hd,
        Scalar.singleQuotedFrom_breaks indent run t (List.forall_mem_cons.mp hrun).2 ht]
      simp
    obtain ⟨more, hmore⟩ : ∃ more, Scalar.singleQuotedFrom indent false (d :: run ++ t) ++ rest =
        d :: more := by
      rw [hwritten]
      split <;> exact ⟨_, rfl⟩
    refine ⟨hblank, more, hmore, ?_⟩
    intro c hc
    rw [← hmore, hwritten] at hc
    exact quotedBlanks_breaks hkept hindent hrest hc

/-- Between single quotes, a text without next lines is read back. -/
theorem quotedFrom_single {indent : Nat} (hindent : 1 ≤ indent) (t rest : Text)
    (ht : Scalar.Quotable t) (hrest : rest.headD finish ≠ CodePoint.ofChar '\'') (fuel : Nat)
    (hfuel : t.length < fuel) {c : Cursor}
    (hc : c.rest = Scalar.singleQuotedFrom indent false t ++ CodePoint.ofChar '\'' :: rest) :
    ∃ c', c'.rest = rest ∧ quotedFrom false fuel c = .ok (t, c') := by
  induction hn : t.length using Nat.strongRecOn generalizing t fuel c with
  | ind n ih =>
    subst hn
    obtain ⟨fuel, rfl⟩ : ∃ k, fuel = k + 1 := ⟨fuel - 1, by omega⟩
    obtain ⟨word, others, rfl, hword, hothers⟩ := ht.exists_word
    have hunits : ∀ d ∈ word, Denotes false (quoteUnit d) d := by
      intro d hd
      exact denotes_quoteUnit (hword d hd)
    have hinner : ∀ d ∈ word, Scalar.isTextBreak d = false := by
      intro d hd
      have := hword d hd
      rw [Bool.eq_false_iff, ne_eq, isBlankOrEnd_iff, isBreak_iff] at this
      rw [Bool.eq_false_iff, ne_eq, Scalar.isTextBreak_iff]
      omega
    rw [Scalar.singleQuotedFrom_word indent word others hinner, List.append_assoc] at hc
    rw [List.length_append] at hfuel
    rcases hothers with rfl | ⟨d, run, t', rfl, ht'head, hrun⟩
    · have hstops : Stops false (CodePoint.ofChar '\'' :: rest) := .inr (.inr ⟨rfl, rfl, hrest⟩)
      obtain ⟨c', hc', hwords⟩ := quotedWords_units _ hunits hstops (fuel + 1) (by omega) hc
      refine ⟨c'.advance, ?_, ?_⟩
      · rw [rest_advance, hc']
        rfl
      · rw [List.append_nil]
        exact quotedFrom_end hwords (peek_eq hc')
    · have ht' : Scalar.Quotable t' := ht.behind.behind
      have hnext : isBlankOrEnd
          ((Scalar.singleQuotedFrom indent false t' ++ CodePoint.ofChar '\'' :: rest).headD finish) =
            false := by
        cases t' with
        | nil => show isBlankOrEnd (CodePoint.ofChar '\'') = false; decide
        | cons e t' =>
          obtain ⟨hbreak, hspace⟩ := ht'head e rfl
          have he := ht'.isBlankOrEnd List.mem_cons_self hbreak hspace
          rw [Scalar.singleQuotedFrom, if_neg (by rw [hbreak]; nofun)]
          by_cases hquote : e = CodePoint.ofChar '\''
          · simpa [hquote] using he
          · simpa [hquote] using he
      simp only [List.length_cons, List.length_append] at hfuel ih
      obtain ⟨hd, more, heq, hblanks⟩ := quotedBlanks_run hindent ht.behind.ne_nextLine hrun
        (fun e he => (ht'head e he).1) hnext
      have hstops : Stops false (d :: more) := .inl hd
      have hquote : d ≠ quoteMark false := by
        rintro rfl
        cases hd
      rw [heq] at hc
      obtain ⟨c', hc', hwords⟩ := quotedWords_units _ hunits hstops (fuel + 1) (by omega) hc
      obtain ⟨c'', hc'', hfound⟩ := hblanks c' hc'
      obtain ⟨c₃, hc₃, hloop⟩ := ih t'.length (by omega) t' ht' fuel (by omega) hc'' rfl
      refine ⟨c₃, hc₃, ?_⟩
      rw [quotedFrom_blanks hwords (by rw [peek_eq hc']; exact hquote) hfound hloop, List.append_assoc]

theorem length_le_singleQuotedFrom (indent : Nat) (inBreaks : Bool) (t : Text) :
    t.length ≤ (Scalar.singleQuotedFrom indent inBreaks t).length := by
  induction t generalizing inBreaks with
  | nil => exact Nat.zero_le _
  | cons d t ih =>
    rw [Scalar.singleQuotedFrom]
    split
    · have := ih true
      split <;> simp only [List.length_append, List.length_cons, List.length_nil] <;> omega
    · have := ih false
      split <;> simp only [List.length_append, List.length_cons, List.length_nil] <;> split <;>
        simp only [List.length_cons, List.length_nil] <;> omega

theorem quotedScalar_single {indent : Nat} (hindent : 1 ≤ indent) (t rest : Text)
    (ht : Scalar.Quotable t) (hrest : rest.headD finish ≠ CodePoint.ofChar '\'') {c : Cursor}
    (hc : c.rest = Scalar.singleQuoted indent t ++ rest) :
    ∃ c', c'.rest = rest ∧ quotedScalar false c = .ok (t, c') := by
  have hwritten : c.rest = CodePoint.ofChar '\'' ::
      (Scalar.singleQuotedFrom indent false t ++ CodePoint.ofChar '\'' :: rest) := by
    rw [hc, Scalar.singleQuoted, List.append_assoc, List.append_assoc]
    rfl
  have hlength := length_le_singleQuotedFrom indent false t
  refine quotedFrom_single hindent t rest ht hrest _ ?_ ?_
  · rw [hwritten, List.length_cons, List.length_append]
    omega
  · rw [rest_advance, hwritten]
    rfl

end Cursor

end RandomText.Yaml