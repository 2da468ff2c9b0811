import RandomText.Proofs.Yaml.Cursor

/-!
# Plain scalars read back

A text that is written plain has no mark of the layout between its words, so it is read up to what ends
the line.
-/

namespace RandomText.Yaml

namespace Scalar

/-- What a plain text has from any of its words on. -/
structure Inline (t : Text) : Prop where
  inner : ∀ c ∈ t, isInner c = true
  colon : hasNeighbours (· = CodePoint.ofChar ':') isBlankOrEnd t = false
  comment : hasNeighbours isBlankOrEnd (· = CodePoint.ofChar '#') t = false
  last_ne_colon : t.getLast? ≠ some (CodePoint.ofChar ':')
  last_ne_space : t.getLast? ≠ some (CodePoint.ofChar ' ')

theorem Inline.behind {s t : Text} (h : Inline (s ++ t)) (hne : t ≠ []) : Inline t := by
  have hlast : (s ++ t).getLast? = t.getLast? := by
    rw [List.getLast?_append, Option.or_of_isSome (List.getLast?_isSome.mpr hne)]
  exact ⟨fun c hc => h.inner c (List.mem_append_right s hc), hasNeighbours_behind h.colon,
    hasNeighbours_behind h.comment, hlast ▸ h.last_ne_colon, hlast ▸ h.last_ne_space⟩

theorem Inline.exists_word {t : Text} (ht : Inline t) (hne : t ≠ [])
    (hspace : t.head? ≠ some (CodePoint.ofChar ' ')) :
    ∃ word others, t = word ++ others ∧ word ≠ [] ∧ (∀ d ∈ word, isBlankOrEnd d = false) ∧
      word.getLast? ≠ some (CodePoint.ofChar ':') ∧
      (others = [] ∨ ∃ n t', others = spaces (n + 1) ++ t' ∧ t' ≠ [] ∧
        t'.head? ≠ some (CodePoint.ofChar ' ') ∧ t'.head? ≠ some (CodePoint.ofChar '#')) := by
  obtain ⟨word, others, rfl, hword, hothers⟩ := exists_run (fun d => !isSpace d) t
  have hwordNe : word ≠ [] := by
    rintro rfl
    obtain ⟨d, others, rfl⟩ := List.exists_cons_of_ne_nil hne
    have hd := hothers d rfl
    simp only [Bool.not_eq_false', isSpace, decide_eq_true_eq] at hd
    exact hspace (congrArg some hd)
  have hnotBlank : ∀ d ∈ word, isBlankOrEnd d = false := by
    intro d hd
    rw [isBlankOrEnd_of_isInner (ht.inner d (List.mem_append_left others hd))]
    simpa using hword d hd
  cases others with
  | nil =>
    rw [List.append_nil]
    exact ⟨word, [], (List.append_nil _).symm, hwordNe, hnotBlank,
      List.append_nil word ▸ ht.last_ne_colon, .inl rfl⟩
  | cons c others =>
    have hc : isSpace c = true := by simpa using hothers c rfl
    have hblank : isBlankOrEnd c = true := by
      rw [isBlankOrEnd_of_isInner (ht.inner c (List.mem_append_right word List.mem_cons_self)), hc]
    obtain ⟨run, t', rfl, hrun, ht'⟩ := exists_run isSpace others
    have hspaces : c :: run = spaces (run.length + 1) := eq_spaces (List.forall_mem_cons.mpr ⟨hc, hrun⟩)
    have hlast : (word ++ c :: run).getLast? = some (CodePoint.ofChar ' ') := by
      rw [List.getLast?_append, hspaces, spaces, List.getLast?_replicate, if_neg (Nat.succ_ne_zero _)]
      rfl
    have happend : word ++ c :: (run ++ t') = (word ++ c :: run) ++ t' := by simp
    refine ⟨word, c :: (run ++ t'), rfl, hwordNe, hnotBlank, ?_, .inr ⟨run.length, t', ?_, ?_, ?_, ?_⟩⟩
    · intro hcolon
      have := not_neighbours ht.colon hcolon rfl (by decide)
      rw [hblank] at this
      cases this
    · rw [← hspaces, List.cons_append]
    · rintro rfl
      rw [List.append_nil] at ht
      exact ht.last_ne_space hlast
    · intro hd
      have := ht' _ hd
      cases this
    · intro hd
      rw [happend] at ht
      have := not_neighbours ht.comment hlast hd (by decide)
      cases this

/-- What a text has that stands in a document without quotes, whatever its type. -/
structure IsPlain (t : Text) : Prop extends Inline t where
  ne_nil : t ≠ []
  starts : startsAsMark t = false
  head_ne_space : t.head? ≠ some (CodePoint.ofChar ' ')

theorem isPlain_of_canBePlain {t : Text} (h : canBePlain t = true) : tagOf t = .str ∧ IsPlain t := by
  simp only [canBePlain, holdsMark, Bool.and_eq_true, Bool.not_eq_true', Bool.or_eq_false_iff,
    decide_eq_true_eq, decide_eq_false_iff_not, List.any_eq_false] at h
  obtain ⟨⟨⟨⟨⟨⟨htag, hstarts⟩, ⟨hcolon, hlastColon⟩, hcomment⟩, hspecial⟩, hbreak⟩, hhead⟩, hlast⟩ := h
  refine ⟨htag, ⟨⟨?_, hcolon, hcomment, hlastColon, hlast⟩, ?_, hstarts, hhead⟩⟩
  · intro c hc
    simp [isInner, hspecial c hc, hbreak c hc]
  · rintro rfl
    revert htag
    decide

theorem IsPlain.head {t : Text} (ht : IsPlain t) : ∃ c rest, t = c :: rest ∧ isBlankOrEnd c = false ∧
    isOneOf "#,[]\x7b\x7d&*!|>'\"%@\x60" c = false ∧
    (isOneOf "?:-" c = true → isBlankOrEnd (rest.headD finish) = false) := by
  obtain ⟨c, rest, rfl⟩ := List.exists_cons_of_ne_nil ht.ne_nil
  have hstarts := ht.starts
  simp only [startsAsMark, Bool.or_eq_false_iff, Bool.and_eq_false_iff] at hstarts
  refine ⟨c, rest, rfl, ?_, hstarts.1.1.1, ?_⟩
  · rw [isBlankOrEnd_of_isInner (ht.inner c List.mem_cons_self), isSpace, decide_eq_false_iff_not]
    rintro rfl
    exact ht.head_ne_space rfl
  · intro hindicator
    simpa [hindicator] using hstarts.1.1.2

end Scalar

namespace Cursor

theorem plainLength_word (word rest : Text) (hword : ∀ c ∈ word, isBlankOrEnd c = false)
    (hlast : word.getLast? ≠ some (CodePoint.ofChar ':')) (hrest : plainLength false rest = 0) :
    plainLength false (word ++ rest) = word.length := by
  induction word with
  | nil => exact hrest
  | cons c word ih =>
    obtain ⟨hc, hothers⟩ := List.forall_mem_cons.mp hword
    have hcolon : ¬(c = ':' ∧ (isBlankOrEnd ((word ++ rest).headD finish) = true ∨
        (false = true ∧ isOneOf ",[]\x7b\x7d" ((word ++ rest).headD finish) = true))) := by
      rintro ⟨rfl, hnext | ⟨hflow, -⟩⟩
      · cases word with
        | nil => exact hlast rfl
        | cons d word =>
          have hd : isBlankOrEnd d = false := hothers d List.mem_cons_self
          rw [List.cons_append, List.headD_cons, hd] at hnext
          cases hnext
      · cases hflow
    have hrec : word.getLast? ≠ some (CodePoint.ofChar ':') := by
      cases word with
      | nil => nofun
      | cons d word => exact hlast
    rw [List.cons_append, plainLength, if_neg (by rw [hc]; nofun), if_neg hcolon, if_neg (by nofun),
      ih hothers hrec, List.length_cons]

theorem plainGap_spaces (n : Nat) (rest : Text) (index line column : Nat)
    (hspace : rest.head? ≠ some (CodePoint.ofChar ' '))
    (hbreak : ∀ d ∈ rest.head?, isBreak d = false) :
    (⟨Scalar.spaces n ++ rest, index, line, column⟩ : Cursor).plainGap =
      (Scalar.spaces n, ⟨rest, index + n, line, column + n⟩, false) := by
  have hlength := Scalar.length_spaces n
  have hword : ∀ d ∈ Scalar.spaces n, decide (d = CodePoint.ofChar ' ') = true := by
    intro d hd
    exact decide_eq_true (List.eq_of_mem_replicate hd)
  have hrest : decide (rest.headD finish = CodePoint.ofChar ' ') = false ∨ rest = [] := by
    cases rest with
    | nil => exact .inr rfl
    | cons d rest =>
      refine .inl (decide_eq_false ?_)
      rintro rfl
      exact hspace rfl
  have hnone : (⟨rest, index + n, line, column + n⟩ : Cursor).lineBreak? = none := by
    cases rest with
    | nil => rfl
    | cons d rest => exact lineBreak?_eq_none (hbreak d rfl)
  have htake := takeWhile_word (fun d => decide (d = CodePoint.ofChar ' ')) _ rest index line column
    hword hrest
  rw [advanceBy_inner _ rest index line column isInner_spaces, hlength] at htake
  simp only [plainGap, htake, hnone]

theorem plainFrom_word {word behind : Text} (hne : word ≠ []) (hinner : ∀ d ∈ word, Scalar.isInner d = true)
    (hword : ∀ d ∈ word, isBlankOrEnd d = false) (hlast : word.getLast? ≠ some (CodePoint.ofChar ':'))
    (hmark : word.head? ≠ some (CodePoint.ofChar '#')) (hbehind : plainLength false behind = 0)
    (indent : Int) (fuel : Nat) (gap : Text) (broken : Bool) (index line column : Nat) :
    plainFrom false indent (fuel + 1) gap broken ⟨word ++ behind, index, line, column⟩ =
      let (next, c, broken) :=
        (⟨behind, index + word.length, line, column + word.length⟩ : Cursor).plainGap
      if next.isEmpty ∨ c.peek = '#' ∨ (!false) = true ∧ c.column < indent then (gap ++ word, c, broken)
      else
        let (others, c, broken) := plainFrom false indent fuel next broken c
        (gap ++ word ++ others, c, broken) := by
  have hpeek : (⟨word ++ behind, index, line, column⟩ : Cursor).peek ≠ CodePoint.ofChar '#' := by
    obtain ⟨d, word, rfl⟩ := List.exists_cons_of_ne_nil hne
    intro heq
    exact hmark (congrArg some heq)
  have hpositive : word.length ≠ 0 := by
    rw [ne_eq, List.length_eq_zero_iff]
    exact hne
  have hlength : plainLength false (word ++ behind) = word.length :=
    plainLength_word word behind hword hlast hbehind
  have htake : (word ++ behind).take word.length = word := by rw [List.take_left]
  have hadvance := advanceBy_inner word behind index line column hinner
  rw [plainFrom]
  simp only [if_neg hpeek, hlength, if_neg hpositive, htake, hadvance]

theorem plainFrom_text {indent : Int} {rest : Text} (hend : plainLength false rest = 0) {t : Text}
    (ht : Scalar.Inline t) (hne : t ≠ []) (hspace : t.head? ≠ some (CodePoint.ofChar ' '))
    (hmark : t.head? ≠ some (CodePoint.ofChar '#')) (gap : Text) (broken : Bool)
    (index line column : Nat) (hcolumn : indent ≤ column + 1) {next : Text} {c : Cursor} {passed : Bool}
    (hgap : (⟨rest, index + t.length, line, column + t.length⟩ : Cursor).plainGap = (next, c, passed))
    (hnext : next = [] ∨ c.column < indent) (fuel : Nat) (hfuel : t.length < fuel) :
    plainFrom false indent fuel gap broken ⟨t ++ rest, index, line, column⟩ =
      (gap ++ t, c, passed) := by
  induction hn : t.length using Nat.strongRecOn generalizing t gap broken index column fuel with
  | ind n ih =>
    subst hn
    obtain ⟨fuel, rfl⟩ : ∃ k, fuel = k + 1 := ⟨fuel - 1, by omega⟩
    obtain ⟨word, others, rfl, hwordNe, hword, hlast, hothers⟩ := ht.exists_word hne hspace
    have hinner : ∀ d ∈ word, Scalar.isInner d = true :=
      fun d hd => ht.inner d (List.mem_append_left others hd)
    have hwordMark : word.head? ≠ some (CodePoint.ofChar '#') := by
      obtain ⟨d, word, rfl⟩ := List.exists_cons_of_ne_nil hwordNe
      exact hmark
    have hstop : plainLength false (others ++ rest) = 0 := by
      rcases hothers with rfl | ⟨n, t', rfl, -⟩
      · exact hend
      · rfl
    rw [List.append_assoc, plainFrom_word hwordNe hinner hword hlast hwordMark hstop]
    rcases hothers with rfl | ⟨k, t', rfl, ht'ne, ht'space, ht'mark⟩
    · rw [List.append_nil] at hgap ⊢
      have hstops : next.isEmpty = true ∨ c.peek = '#' ∨ ((!false) = true ∧ c.column < indent) := by
        rcases hnext with rfl | hlt
        · exact .inl rfl
        · exact .inr (.inr ⟨rfl, hlt⟩)
      simp only [List.nil_append, hgap]
      rw [if_pos hstops]
    · have ht' : Scalar.Inline t' := by
        rw [← List.append_assoc] at ht
        exact ht.behind ht'ne
      obtain ⟨d, tail, rfl⟩ := List.exists_cons_of_ne_nil ht'ne
      have hbreak : ∀ e ∈ (d :: tail ++ rest).head?, isBreak e = false := by
        rintro e ⟨⟩
        exact Scalar.isBreak_of_isInner (ht'.inner d List.mem_cons_self)
      have hspaces := plainGap_spaces (k + 1) (d :: tail ++ rest) (index + word.length) line
        (column + word.length) ht'space hbreak
      let c' : Cursor := ⟨d :: tail ++ rest, index + word.length + (k + 1), line,
        column + word.length + (k + 1)⟩
      have hgoes : ¬((Scalar.spaces (k + 1)).isEmpty = true ∨ c'.peek = '#' ∨
          ((!false) = true ∧ (c'.column : Int) < indent)) := by
        rintro (hempty | heq | ⟨-, hlt⟩)
        · cases hempty
        · exact ht'mark (congrArg some heq)
        · have hlt : ((column + word.length + (k + 1) : Nat) : Int) < indent := hlt
          omega
      have hlengths : (word ++ (Scalar.spaces (k + 1) ++ d :: tail)).length =
          word.length + (k + 1) + (d :: tail).length := by
        simp only [List.length_append, Scalar.spaces, List.length_replicate]
        omega
      rw [hlengths] at hgap hfuel
      have hothers := ih (d :: tail).length (by omega) ht' ht'ne ht'space ht'mark
        (Scalar.spaces (k + 1)) false (index + word.length + (k + 1)) (column + word.length + (k + 1))
        (by omega) (by simpa only [Nat.add_assoc] using hgap) fuel (by omega) rfl
      rw [List.append_assoc, hspaces]
      refine (if_neg hgoes).trans ?_
      simp only [hothers, List.append_assoc]

/-! ### Ends of plain scalars -/

/-- What may begin a line behind its indentation: no blank, no comment, no byte order mark and no mark
between documents. -/
structure Begins (more : Text) : Prop where
  not_blank : ∀ d ∈ more.head?, isBlankOrEnd d = false
  not_mark : ∀ d ∈ more.head?, d.val ≠ 0xFEFF
  ne_comment : more.head? ≠ some (CodePoint.ofChar '#')
  ne_dashes : more.take 3 ≠ Text.ofString "---"
  ne_dots : more.take 3 ≠ Text.ofString "..."

theorem Begins.not_break {more : Text} (h : Begins more) : ∀ d ∈ more.head?, isBreak d = false := by
  intro d hd
  have := h.not_blank d hd
  rw [Bool.eq_false_iff, ne_eq, isBlankOrEnd_iff] at this
  simp only [not_or] at this
  simpa using this.2.1

theorem Begins.lineBreak?_eq_none {c : Cursor} (h : Begins c.rest) : c.lineBreak? = none := by
  refine Cursor.lineBreak?_eq_none ?_
  cases hrest : c.rest with
  | nil => rw [peek, hrest]; decide
  | cons d rest => rw [peek_eq hrest]; exact h.not_break d (by rw [hrest]; rfl)

theorem Begins.head_ne_space {more : Text} (h : Begins more) :
    more.head? ≠ some (CodePoint.ofChar ' ') := by
  intro hhead
  have := h.not_blank _ hhead
  revert this
  decide

theorem Begins.hasDocumentMark_eq_false {more : Text} (h : Begins more) {n : Nat} {c : Cursor}
    (hc : c.rest = Scalar.spaces n ++ more) : c.hasDocumentMark = false := by
  cases n with
  | zero =>
    have hrest : c.rest = more := hc
    have hdashes : c.rest.take 3 ≠ Text.ofString "---" := by rw [hrest]; exact h.ne_dashes
    have hdots : c.rest.take 3 ≠ Text.ofString "..." := by rw [hrest]; exact h.ne_dots
    show (decide (c.rest.take 3 = Text.ofString "---") && _ ||
      decide (c.rest.take 3 = Text.ofString "...") && _) = false
    rw [decide_eq_false hdashes, decide_eq_false hdots]
    rfl
  | succ n =>
    have hpeek : c.peek = CodePoint.ofChar ' ' := by rw [peek, hc]; rfl
    exact Cursor.hasDocumentMark_eq_false (by rw [hpeek]; decide) (by rw [hpeek]; decide)

theorem plainBreaks_spaces {more : Text} (h : Begins more) (n index line column : Nat) {fuel : Nat}
    (hfuel : n < fuel) :
    plainBreaks fuel ⟨Scalar.spaces n ++ more, index, line, column⟩ =
      some ([], ⟨more, index + n, line, column + n⟩) := by
  induction n generalizing index column fuel with
  | zero =>
    obtain ⟨fuel, rfl⟩ : ∃ k, fuel = k + 1 := ⟨fuel - 1, by omega⟩
    have hpeek : (⟨more, index, line, column⟩ : Cursor).peek ≠ CodePoint.ofChar ' ' := by
      cases more with
      | nil => show finish ≠ _; decide
      | cons d more => exact fun heq => h.head_ne_space (congrArg some heq)
    show plainBreaks (fuel + 1) ⟨more, index, line, column⟩ = _
    rw [plainBreaks, if_neg hpeek, Begins.lineBreak?_eq_none h]
    rfl
  | succ n ih =>
    obtain ⟨fuel, rfl⟩ : ∃ k, fuel = k + 1 := ⟨fuel - 1, by omega⟩
    have hpeek : (⟨Scalar.spaces (n + 1) ++ more, index, line, column⟩ : Cursor).peek =
        CodePoint.ofChar ' ' := rfl
    have hstep : (⟨Scalar.spaces (n + 1) ++ more, index, line, column⟩ : Cursor).advance =
        ⟨Scalar.spaces n ++ more, index + 1, line, column + 1⟩ := rfl
    rw [plainBreaks, if_pos hpeek, hstep, ih _ _ (by omega)]
    simp [Nat.add_assoc, Nat.add_comm 1 n]

theorem plainGap_lineEnd {more : Text} (h : Begins more) (n index line column : Nat) :
    (⟨CodePoint.ofChar '\n' :: (Scalar.spaces n ++ more), index, line, column⟩ : Cursor).plainGap =
      (Text.ofString " ", ⟨more, index + 1 + n, line + 1, n⟩, true) := by
  let c : Cursor := ⟨Scalar.spaces n ++ more, index + 1, line + 1, 0⟩
  have hmark : c.hasDocumentMark = false := h.hasDocumentMark_eq_false rfl
  have hbreaks : plainBreaks (c.rest.length + 1) c = some ([], ⟨more, index + 1 + n, line + 1, 0 + n⟩) := by
    refine plainBreaks_spaces h n _ _ _ ?_
    show n < (Scalar.spaces n ++ more).length + 1
    rw [List.length_append, Scalar.length_spaces]
    omega
  let start : Cursor := ⟨CodePoint.ofChar '\n' :: (Scalar.spaces n ++ more), index, line, column⟩
  have htake : start.takeWhile (fun d => d = ' ') = ([], start) := rfl
  have hbreak : start.lineBreak? = some (CodePoint.ofChar '\n', c) := rfl
  show start.plainGap = _
  rw [plainGap, htake]
  simp only [hbreak, hmark, hbreaks, Nat.zero_add]
  rfl

/-- A plain text at the end of a line is read, if the next line is not indented further than the
mapping. -/
theorem plainScalar_lineEnd {t more : Text} (ht : Scalar.IsPlain t) (hmore : Begins more) {n : Nat}
    {indent : Int} (hn : n ≤ indent) (index line : Nat) {column : Nat} (hcolumn : indent ≤ column) :
    (⟨t ++ CodePoint.ofChar '\n' :: (Scalar.spaces n ++ more), index, line, column⟩ : Cursor).plainScalar
      false indent = (t, ⟨more, index + t.length + 1 + n, line + 1, n⟩, true) := by
  have hmark : t.head? ≠ some (CodePoint.ofChar '#') := by
    obtain ⟨c, rest, rfl, -, hmarks, -⟩ := ht.head
    rintro ⟨⟩
    revert hmarks
    decide
  have hstop : plainLength false (CodePoint.ofChar '\n' :: (Scalar.spaces n ++ more)) = 0 := rfl
  have hgap := plainGap_lineEnd hmore n (index + t.length) line (column + t.length)
  rw [plainScalar, plainFrom_text hstop ht.toInline ht.ne_nil ht.head_ne_space hmark [] false index line
    column (by omega) hgap (.inr (by show (n : Int) < indent + 1; omega)) _ (by simp only [List.length_append]; omega)]
  rfl

theorem plainScalar_colon {t : Text} (ht : Scalar.IsPlain t) {d : CodePoint} (hd : isBlankOrEnd d = true)
    {indent : Int} (more : Text) (index line : Nat) {column : Nat} (hcolumn : indent ≤ column) :
    (⟨t ++ CodePoint.ofChar ':' :: d :: more, index, line, column⟩ : Cursor).plainScalar false indent =
      (t, ⟨CodePoint.ofChar ':' :: d :: more, index + t.length, line, column + t.length⟩, false) := by
  have hmark : t.head? ≠ some (CodePoint.ofChar '#') := by
    obtain ⟨c, rest, rfl, -, hmarks, -⟩ := ht.head
    rintro ⟨⟩
    revert hmarks
    decide
  have hstop : plainLength false (CodePoint.ofChar ':' :: d :: more) = 0 := by
    simp [plainLength, hd]
  have hgap := plainGap_spaces 0 (CodePoint.ofChar ':' :: d :: more) (index + t.length) line
    (column + t.length)
    (by show some (CodePoint.ofChar ':') ≠ some (CodePoint.ofChar ' '); decide)
    (by rintro e ⟨⟩; decide)
  rw [plainScalar, plainFrom_text hstop ht.toInline ht.ne_nil ht.head_ne_space hmark [] false index line
    column (by omega) hgap (.inl rfl) _ (by simp only [List.length_append]; omega)]
  rfl

end Cursor

end RandomText.Yaml
