import Mathlib.Data.List.Nodup
import RandomText.Compile
import RandomText.Proofs.Lowering
import RandomText.Proofs.Pattern.Carrying
import RandomText.Proofs.Pattern.Strictness

/-!
# Texts without their ignored characters

The characters that a lenient reading ignored may be deleted from the text. No token contains one of
them, so each token still stands in one piece, and since a token is found wherever its part of the text
stands, tokens that come together are not mistaken for others (`Reached.stripped`). What is left is
read strictly, with nothing to ignore, to the tree of the whole text, in which every node stands
further ahead by the number of characters that were deleted before it (`read_stripped`).
-/

namespace RandomText

/-! ### Deleting code points -/

/-- Of a text that begins at `index`, the code points that do not stand at one of the indices. -/
def Text.withoutFrom (indices : List Nat) (index : Nat) : Text → Text
  | [] => []
  | c :: rest =>
    if index ∈ indices then withoutFrom indices (index + 1) rest
    else c :: withoutFrom indices (index + 1) rest

/-- The text without the code points at the indices. -/
def Text.without (text : Text) (indices : List Nat) : Text := text.withoutFrom indices 0

/-- Where an index comes to stand when the code points at the indices are deleted. -/
def closedUp (indices : List Nat) (index : Nat) : Nat := index - indices.countP (· < index)

/-- The position after the code points at the indices were deleted, in the text that is left. -/
def Position.closedUp (indices : List Nat) (left : Text) (position : Position) : Position where
  origin := position.origin
  index := position.index - indices.countP fun i : Nat => (i : Int) < position.index
  input := left

section deleting

variable {indices : List Nat} {index stop : Nat} {text : Text} {c : CodePoint}

theorem countP_lt_succ (indices : List Nat) (index : Nat) :
    indices.countP (· < index + 1) = indices.countP (· < index) + indices.count index := by
  induction indices with
  | nil => rfl
  | cons i rest ih =>
    rw [List.countP_cons, List.countP_cons, List.count_cons, ih]
    rcases Nat.lt_trichotomy i index with hlt | rfl | hgt
    · simp [hlt, Nat.lt_succ_of_lt hlt, Nat.ne_of_lt hlt]
      omega
    · simp
      omega
    · simp [Nat.not_lt_of_lt hgt, Nat.not_lt.mpr hgt, Nat.ne_of_gt hgt]

theorem countP_lt_le (hnodup : indices.Nodup) (index : Nat) : indices.countP (· < index) ≤ index := by
  induction index with
  | zero => simp
  | succ index ih =>
    have hcount := List.nodup_iff_count.mp hnodup index
    rw [countP_lt_succ]
    omega

theorem closedUp_zero (indices : List Nat) : closedUp indices 0 = 0 := Nat.zero_sub _

theorem closedUp_succ_of_mem (hnodup : indices.Nodup) (h : index ∈ indices) :
    closedUp indices (index + 1) = closedUp indices index := by
  have hcount : indices.count index = 1 := List.count_eq_one_of_mem hnodup h
  have hle := countP_lt_le hnodup index
  rw [closedUp, closedUp, countP_lt_succ]
  omega

theorem closedUp_succ_of_not_mem (hnodup : indices.Nodup) (h : index ∉ indices) :
    closedUp indices (index + 1) = closedUp indices index + 1 := by
  have hcount : indices.count index = 0 := List.count_eq_zero.mpr h
  have hle := countP_lt_le hnodup index
  rw [closedUp, closedUp, countP_lt_succ]
  omega

theorem rigid_closedUp (hnodup : indices.Nodup) (h : ∀ i, index ≤ i → i < stop → i ∉ indices) :
    Pattern.Token.Rigid (closedUp indices) index stop := by
  intro i hle hstop
  induction i, hle using Nat.le_induction with
  | base => rw [Nat.sub_self, Nat.add_zero]
  | succ i hle ih =>
    rw [closedUp_succ_of_not_mem hnodup (h i hle hstop), ih (Nat.le_of_lt hstop)]
    omega

namespace Text

theorem withoutFrom_of_mem (hmark : text.HasAt index c) (h : index ∈ indices) :
    withoutFrom indices index (text.drop index) =
      withoutFrom indices (index + 1) (text.drop (index + 1)) := by
  rw [hmark.drop_eq, withoutFrom, if_pos h]

theorem withoutFrom_of_not_mem (hmark : text.HasAt index c) (h : index ∉ indices) :
    withoutFrom indices index (text.drop index) =
      c :: withoutFrom indices (index + 1) (text.drop (index + 1)) := by
  rw [hmark.drop_eq, withoutFrom, if_neg h]

theorem withoutFrom_eq_take (hle : index ≤ stop) (hstop : stop ≤ text.length)
    (h : ∀ i, index ≤ i → i < stop → i ∉ indices) :
    withoutFrom indices index (text.drop index) =
      (text.drop index).take (stop - index) ++ withoutFrom indices stop (text.drop stop) := by
  induction hle using Nat.decreasingInduction with
  | self => rw [Nat.sub_self]; rfl
  | of_succ i hlt ih =>
    have hmark : text.HasAt i text[i] := List.getElem?_eq_getElem (by omega)
    rw [withoutFrom_of_not_mem hmark (h i (Nat.le_refl _) hlt),
      ih fun j hj => h j (Nat.le_of_lt hj), hmark.drop_eq,
      show stop - i = stop - (i + 1) + 1 by omega]
    rfl

theorem drop_without (hnodup : indices.Nodup) (hle : index ≤ text.length) :
    (text.without indices).drop (closedUp indices index) =
      withoutFrom indices index (text.drop index) := by
  induction index with
  | zero => rw [closedUp_zero]; rfl
  | succ index ih =>
    have hmark : text.HasAt index text[index] := List.getElem?_eq_getElem hle
    have hbehind := ih (Nat.le_of_lt hle)
    by_cases hmem : index ∈ indices
    · rw [closedUp_succ_of_mem hnodup hmem, hbehind, withoutFrom_of_mem hmark hmem]
    · rw [closedUp_succ_of_not_mem hnodup hmem, ← List.tail_drop, hbehind,
        withoutFrom_of_not_mem hmark hmem, List.tail_cons]

end Text

end deleting

namespace Pattern

section stripping

variable {settings : Settings} {input : Text}

/-- The code points at the indices are deleted. -/
def Carry.stripped (settings : Settings) (input : Text) {indices : List Nat} (hnodup : indices.Nodup) :
    Carry settings input (input.without indices) where
  index := closedUp indices
  position := Position.closedUp indices (input.without indices)
  at_index := by
    intro i
    have hle := countP_lt_le hnodup i
    simp only [Settings.at, Option.map_some, Position.closedUp, Int.ofNat_lt, closedUp,
      Int.ofNat_sub hle]

theorem Progress.stray?_mapIndex (φ : Nat → Nat) (p : Progress) (token : Token) :
    p.stray? (token.mapIndex φ) = p.stray? token := by
  cases token <;> rfl

theorem scan_drop_of_first {index : Nat} {c : CodePoint} {lexeme : Lexeme}
    (hmark : input.HasAt index c)
    (hfirst : Token.first index c (input.drop (index + 1)) = .ok lexeme) :
    (Token.scan index (input.drop index)).1 =
      lexeme :: (Token.scan lexeme.stop (input.drop lexeme.stop)).1 := by
  obtain ⟨-, hlt, -, -⟩ := Token.first_place hfirst
  rw [hmark.drop_eq, Token.scan, hfirst]
  simp only [List.drop_drop, Nat.add_sub_cancel' (Nat.succ_le_of_lt hlt)]

theorem first_without {indices : List Nat} (hnodup : indices.Nodup) {c : CodePoint} {lexeme : Lexeme}
    (hmark : input.HasAt lexeme.index c)
    (hfirst : Token.first lexeme.index c (input.drop (lexeme.index + 1)) = .ok lexeme)
    (hle : lexeme.stop ≤ input.length)
    (hkept : ∀ i, lexeme.index ≤ i → i < lexeme.stop → i ∉ indices) :
    (input.without indices).HasAt (closedUp indices lexeme.index) c ∧
      Token.first (closedUp indices lexeme.index) c
          ((input.without indices).drop (closedUp indices lexeme.index + 1)) =
        .ok (lexeme.mapIndex (closedUp indices)) := by
  obtain ⟨-, hlt, -, -⟩ := Token.first_place hfirst
  let behind := Text.withoutFrom indices lexeme.stop (input.drop lexeme.stop)
  have hdrop : (input.without indices).drop (closedUp indices lexeme.index) =
      c :: ((input.drop (lexeme.index + 1)).take (lexeme.stop - (lexeme.index + 1)) ++ behind) := by
    rw [Text.drop_without hnodup (Nat.le_of_lt hmark.lt),
      Text.withoutFrom_eq_take (Nat.le_of_lt hlt) hle hkept, hmark.drop_eq,
      show lexeme.stop - lexeme.index = lexeme.stop - (lexeme.index + 1) + 1 by omega]
    rfl
  obtain ⟨hmark', hrest⟩ := Text.HasAt.of_drop_eq hdrop
  refine ⟨hmark', ?_⟩
  rw [hrest]
  exact Token.first_carried_of_ok (closedUp indices) hfirst (rigid_closedUp hnodup hkept) behind

theorem Progress.Alike.step_carried {whole : Text}
    (carry : Carry { settings with strict := false } input whole) {p p' q : Progress}
    {lexeme : Lexeme} (h : q.Alike (p.carriedOnto carry .start))
    (hmeant : p.stray? lexeme.token = none)
    (hstep : p.step { settings with strict := false } input lexeme = .ok p') (strict : Bool) :
    ∃ q', q.step { settings with strict := strict } whole (lexeme.mapIndex carry.index) = .ok q' ∧
      q'.Alike (p'.carriedOnto carry .start) ∧ q'.ignored = q.ignored := by
  have hcarried := Progress.stepped_carriedOnto carry .start p nofun lexeme (.inl rfl)
  rw [Progress.stepped_of_ok hstep] at hcarried
  have houtcomes : AlikeOutcomes
      (q.stepped { settings with strict := false } whole (lexeme.mapIndex carry.index))
      ((p.carriedOnto carry .start).stepped { settings with strict := false } whole
        (lexeme.mapIndex carry.index)) := h.stepped _
  rw [hcarried] at houtcomes
  obtain ⟨q', hq, hq'⟩ := houtcomes.exists_ok
  have hmeant' : q.stray? (lexeme.mapIndex carry.index).token = none := by
    rw [Lexeme.mapIndex, Progress.stray?_mapIndex, ← hmeant]
    refine Progress.stray?_congr ?_ ?_ _
    · rw [h.1]
      exact Frame.kind_carriedOnto carry _ p.top
    · rw [h.2]
      exact List.map_eq_nil_iff
  obtain ⟨hstrict, hignored⟩ :=
    Progress.step_of_meant { settings with strict := false } whole hmeant' strict
  rw [Progress.step_of_stepped hq] at hstrict hignored
  exact ⟨q', hstrict, hq', hignored⟩

/-- The indices of the characters that the lenient reading of the text ignores. -/
def ignoredIndices (settings : Settings) (input : Text) : List Nat :=
  (reading { settings with strict := false } input).progress.ignored.map Prod.snd

theorem nodup_ignoredIndices (settings : Settings) (input : Text) :
    (ignoredIndices settings input).Nodup := by
  have hordered := standInOrder_ignored { settings with strict := false } input
  exact List.pairwise_map.mpr (hordered.ordered.imp Nat.ne_of_lt)

theorem Reached.mem_ignoredIndices {current : Nat} {p : Progress} {rest : List Lexeme}
    (h : Reached { settings with strict := false } input current p rest) {index : Nat}
    (hlt : index < current) :
    index ∈ ignoredIndices settings input ↔ index ∈ p.ignored.map Prod.snd := by
  obtain ⟨new, hnew, hplaced, -⟩ := h.left_ignored
  rw [ignoredIndices, hnew, List.map_append, List.mem_append, or_iff_left]
  intro hmem
  obtain ⟨s, hs, rfl⟩ := List.mem_map.mp hmem
  exact absurd (hplaced s hs) (Nat.not_le_of_lt hlt)

/-- Without the ignored characters the same frames are reached, and nothing is ignored on the way. -/
theorem Reached.stripped {current : Nat} {p : Progress} {rest : List Lexeme}
    (h : Reached { settings with strict := false } input current p rest) (strict : Bool) :
    let indices := ignoredIndices settings input
    let left := input.without indices
    let carry := Carry.stripped { settings with strict := false } input
      (nodup_ignoredIndices settings input)
    ∃ q, Reached { settings with strict := strict } left (closedUp indices current) q
        (Token.scan (closedUp indices current) (left.drop (closedUp indices current))).1 ∧
      q.Alike (p.carriedOnto carry .start) ∧ q.ignored = [] := by
  intro indices left carry
  have hnodup := nodup_ignoredIndices settings input
  induction h with
  | start =>
    refine ⟨.start, ?_, ?_, rfl⟩
    · rw [closedUp_zero, List.drop_zero]
      exact .start
    · rw [Progress.start_carriedOnto carry rfl rfl rfl]
      exact ⟨rfl, rfl⟩
  | @token current p p' lexeme rest hreached hstep ih =>
    obtain ⟨q, hq, halike, hignored⟩ := ih
    have hnext := hreached.token hstep
    obtain ⟨-, -, hscan⟩ := hreached.orderly
    obtain ⟨c, hmark, rfl, hlt, hle, -, hfirst, -⟩ := scan_drop_eq_cons hscan
    cases hstray : p.stray? lexeme.token with
    | some d =>
      -- The character is not there any more, so there is nothing to do for it.
      obtain ⟨-, hstop⟩ := (Token.hasMark_of_first hfirst).of_stray hstray
      rw [Progress.step_of_stray hstray] at hstep
      obtain rfl := Except.ok.inj hstep
      have hmem : lexeme.index ∈ indices := by
        rw [hnext.mem_ignoredIndices hlt, Progress.ignored_note]
        simp [Event.ignored?]
      rw [hstop, closedUp_succ_of_mem hnodup hmem]
      exact ⟨q, hq, halike, hignored⟩
    | none =>
      obtain ⟨-, hsame⟩ :=
        Progress.step_of_meant { settings with strict := false } input hstray strict
      rw [hstep] at hsame
      change p'.ignored = p.ignored at hsame
      -- What was ignored before stands before the token, and what is ignored later behind it.
      have hkept : ∀ i, lexeme.index ≤ i → i < lexeme.stop → i ∉ indices := by
        intro i hi hstop hmem
        rw [hnext.mem_ignoredIndices hstop, hsame] at hmem
        obtain ⟨s, hs, rfl⟩ := List.mem_map.mp hmem
        have hbefore := (hreached.ignored.placed s hs).1
        omega
      obtain ⟨hmark', hfirst'⟩ := first_without hnodup hmark hfirst hle hkept
      obtain ⟨q', hstep', halike', hignored'⟩ := halike.step_carried carry hstray hstep strict
      rw [scan_drop_of_first hmark' hfirst'] at hq
      exact ⟨q', hq.token hstep', halike', hignored'.trans hignored⟩

theorem Reached.reading_of_root {current : Nat} {p : Progress}
    (h : Reached settings input current p []) (hend : input.drop current = [])
    (hkind : p.top.kind = .root) :
    reading settings input =
      ⟨current, p, .ok (.group (.once (settings.at input 0)) .root p.top.children)⟩ := by
  obtain ⟨-, -, hscan⟩ := h.orderly
  rw [hend, Token.scan] at hscan
  rw [h.reading_eq, ← (Prod.mk.inj hscan).2]
  simp only [readFrom, Progress.finish, hkind]
  rfl

end stripping

/-- Ignored characters carry no meaning. Without the characters that the lenient reading of a pattern
ignores, the pattern is read in either mode, with nothing left to ignore, to the same tree. Each node
stands at its index less the number of the ignored characters before it, the root still at the
beginning, and both patterns have the same lowered text. -/
theorem read_stripped (settings : Settings) {text : Text} {root : Node}
    (h : read { settings with strict := false } text = .ok root) (strict : Bool) :
    let indices := ignoredIndices settings text
    let left := text.without indices
    (reading { settings with strict := strict } left).progress.ignored = [] ∧
      ∃ root', read { settings with strict := strict } left = .ok root' ∧
        root'.same root = true ∧ root' = root.mapPosition (Position.closedUp indices left) ∧
        root'.position = settings.at left 0 ∧
        compile { settings with strict := strict } left =
          compile { settings with strict := false } text := by
  intro indices left
  have hnodup := nodup_ignoredIndices settings text
  obtain ⟨p, -, hreached, -, hkind, -, -, rfl⟩ := reached_of_read h
  obtain ⟨q, hq, ⟨htop, -⟩, hignored⟩ := hreached.stripped strict
  have hend : left.drop (closedUp indices text.length) = [] := by
    rw [Text.drop_without hnodup (Nat.le_refl _), List.drop_length]
    rfl
  change Reached _ left (closedUp indices text.length) q (Token.scan _ (left.drop _)).1 at hq
  rw [hend, Token.scan] at hq
  have hkind' : q.top.kind = .root := by
    rw [htop]
    exact (Frame.kind_carriedOnto _ _ _).trans hkind
  have hchildren : q.top.children =
      Node.mapPositionAll (Position.closedUp indices left) p.top.children := by
    rw [htop]
    exact Frame.children_carriedOnto _ _ hkind
  have hreading := hq.reading_of_root hend hkind'
  have hroot : Node.group (.once (settings.at left 0)) .root q.top.children =
      (Node.group (.once (settings.at text 0)) .root p.top.children).mapPosition
        (Position.closedUp indices left) := by
    have hplace : (settings.at text 0).map (Position.closedUp indices left) = settings.at left 0 :=
      ((Carry.stripped settings text hnodup).at_index 0).trans
        (congrArg (settings.at left) (closedUp_zero indices))
    rw [hchildren, ← hplace]
    rfl
  have hread : read { settings with strict := strict } left =
      .ok (.group (.once (settings.at left 0)) .root q.top.children) := by
    rw [read, hreading]
    rfl
  have hsame := Node.same_mapPosition (Position.closedUp indices left)
    (.group (.once (settings.at text 0)) .root p.top.children)
  rw [← hroot] at hsame
  refine ⟨by rw [hreading]; exact hignored, _, hread, hsame, hroot, rfl, ?_⟩
  rw [compile, compile, hread, h]
  exact congrArg (Except.mapError CompileError.numeral) (lower_of_same _ _ hsame)

/-- Stray closing brackets and blanks, also between an element and its repetition. -/
theorem read_stripped_closers :
    ∃ root root', read {} "(a \x7d<2> .)) \\:0-9;" = .ok root ∧
      read { strict := true } "(a<2>.):0-9;" = .ok root' ∧ root'.same root = true ∧
      root' = root.mapPosition (Position.closedUp [2, 3, 7, 10, 11, 12] "(a<2>.):0-9;") ∧
      compile { strict := true } "(a<2>.):0-9;" = compile {} "(a \x7d<2> .)) \\:0-9;" := by
  have hok : (read {} "(a \x7d<2> .)) \\:0-9;").isOk = true := by decide +kernel
  have hindices : ignoredIndices {} "(a \x7d<2> .)) \\:0-9;" = [2, 3, 7, 10, 11, 12] := by
    decide +kernel
  have hleft : Text.without "(a \x7d<2> .)) \\:0-9;" [2, 3, 7, 10, 11, 12] = "(a<2>.):0-9;" := by
    decide +kernel
  cases hroot : read {} "(a \x7d<2> .)) \\:0-9;" with
  | error e =>
    rw [hroot] at hok
    cases hok
  | ok root =>
    obtain ⟨-, root', hread, hsame, hplaces, -, hcompile⟩ := read_stripped {} hroot true
    rw [hindices, hleft] at hread hplaces hcompile
    exact ⟨root, root', rfl, hread, hsame, hplaces, hcompile⟩

end Pattern

end RandomText
