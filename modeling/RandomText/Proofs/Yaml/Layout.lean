import RandomText.Proofs.Yaml.Plain
import RandomText.Proofs.Yaml.Quoted
import RandomText.Yaml.Layout

/-!
# Steps of the layout

What one token of a written document does to the layout: the marks of its mapping or list are put in
front of it, and the collections that the next line leaves are closed before anything else is taken.
-/

namespace RandomText.Yaml

namespace Cursor

/-- What stands on a line behind its indentation: no blank and no comment. -/
structure StartsToken (more : Text) : Prop where
  not_blank : ∀ d ∈ more.head?, isBlankOrEnd d = false
  ne_comment : more.head? ≠ some (CodePoint.ofChar '#')

theorem Begins.startsToken {more : Text} (h : Begins more) : StartsToken more :=
  ⟨h.not_blank, h.ne_comment⟩

end Cursor

namespace Layout

open Cursor (Begins StartsToken)

/-! ### Skipping -/

section skipping

variable {s : Layout} {more : Text} {n : Nat}

theorem skipToToken_spaces (hrest : s.cursor.rest = Scalar.spaces n ++ more) (hmore : StartsToken more)
    (fuel : Nat) : s.skipToToken (fuel + 1) = s.moveTo (s.cursor.advanceBy n) := by
  have hbehind : (s.cursor.advanceBy n).rest = more := by
    rw [Cursor.rest_advanceBy, hrest, List.drop_left' (Scalar.length_spaces _)]
  have hspaces : s.cursor.skipSpaces = s.cursor.advanceBy n := by
    have hstop : decide (more.headD finish = CodePoint.ofChar ' ') = false ∨ more = [] := by
      cases more with
      | nil => exact .inr rfl
      | cons d more =>
        refine .inl (decide_eq_false ?_)
        rintro rfl
        have := hmore.not_blank _ rfl
        revert this
        decide
    have htake := Cursor.takeWhile_word (fun d => decide (d = CodePoint.ofChar ' ')) (Scalar.spaces n) more
      s.cursor.index s.cursor.line s.cursor.column
      (fun d hd => decide_eq_true (List.eq_of_mem_replicate hd)) hstop
    rw [← hrest, Scalar.length_spaces] at htake
    exact congrArg Prod.snd htake
  have hcomment : (s.cursor.advanceBy n).skipComment = s.cursor.advanceBy n := by
    refine if_neg ?_
    intro hpeek
    cases hmoreCase : more with
    | nil =>
      rw [Cursor.peek, hbehind, hmoreCase] at hpeek
      revert hpeek
      decide
    | cons d more =>
      rw [Cursor.peek, hbehind, hmoreCase] at hpeek
      exact hmore.ne_comment (by rw [hmoreCase]; exact congrArg some hpeek)
  have hbreak : (s.cursor.advanceBy n).lineBreak? = none := by
    refine Cursor.lineBreak?_eq_none ?_
    rw [Cursor.peek, hbehind]
    cases more with
    | nil => decide
    | cons d more =>
      have := hmore.not_blank d rfl
      rw [Bool.eq_false_iff, ne_eq, isBlankOrEnd_iff] at this
      simp only [not_or] at this
      simpa using this.2.1
  rw [skipToToken]
  simp only [hspaces, hcomment, hbreak]

theorem skipToToken_lineEnd (hflow : s.flowLevel = 0)
    (hrest : s.cursor.rest = CodePoint.ofChar '\n' :: (Scalar.spaces n ++ more)) (hmore : StartsToken more)
    (fuel : Nat) : ∃ c : Cursor, c.rest = more ∧ c.column = n ∧
      s.skipToToken (fuel + 2) = { s with cursor := c, keyAllowed := true } := by
  have hpeek := Cursor.peek_eq hrest
  have hspaces : s.cursor.skipSpaces = s.cursor := by
    show s.cursor.advanceBy (s.cursor.rest.takeWhile _).length = s.cursor
    rw [hrest]
    rfl
  have hcomment : s.cursor.skipComment = s.cursor := if_neg (by rw [hpeek]; decide)
  have hbreak := Cursor.lineBreak?_kept hrest (by decide)
  have hadvance : s.cursor.advance = ⟨Scalar.spaces n ++ more, s.cursor.index + 1, s.cursor.line + 1, 0⟩ := by
    rw [Cursor.advance, hrest]
    rfl
  have hnext := Cursor.advanceBy_inner (Scalar.spaces n) more (s.cursor.index + 1) (s.cursor.line + 1) 0
    Cursor.isInner_spaces
  rw [Scalar.length_spaces, ← hadvance] at hnext
  refine ⟨s.cursor.advance.advanceBy n, by rw [hnext], by rw [hnext]; exact Nat.zero_add n, ?_⟩
  rw [skipToToken]
  simp only [hspaces, hcomment, hbreak]
  rw [skipToToken_spaces (by rw [hadvance]) hmore]
  simp [inFlow, hflow, moveTo]

/-- The layout before the next token. -/
def arrived (s : Layout) : Layout :=
  let s := s.skipByteOrderMark
  s.skipToToken (s.cursor.rest.length + 1)

theorem arrived_spaces (hrest : s.cursor.rest = Scalar.spaces n ++ more) (hmore : StartsToken more)
    (hmark : ¬(s.cursor.index = 0 ∧ s.cursor.peek.val = 0xFEFF)) :
    s.arrived = s.moveTo (s.cursor.advanceBy n) := by
  rw [arrived, skipByteOrderMark, if_neg hmark]
  exact skipToToken_spaces hrest hmore _

theorem arrived_lineEnd (hflow : s.flowLevel = 0)
    (hrest : s.cursor.rest = CodePoint.ofChar '\n' :: (Scalar.spaces n ++ more)) (hmore : StartsToken more) :
    ∃ c : Cursor, c.rest = more ∧ c.column = n ∧
      s.arrived = { s with cursor := c, keyAllowed := true } := by
  have hmark : ¬(s.cursor.index = 0 ∧ s.cursor.peek.val = 0xFEFF) := by
    rw [Cursor.peek_eq hrest]
    rintro ⟨-, hval⟩
    revert hval
    decide
  have hlength : s.cursor.rest.length + 1 = (Scalar.spaces n ++ more).length + 2 := by
    rw [hrest, List.length_cons]
  rw [arrived, skipByteOrderMark, if_neg hmark, hlength]
  exact skipToToken_lineEnd hflow hrest hmore _

end skipping

/-! ### Closing collections -/

theorem closeBlocks_eq_self {column : Int} {s : Layout} (h : s.indent ≤ column) (outer : List Int) :
    closeBlocks column outer s = s := by
  cases outer with
  | nil => rfl
  | cons x rest => exact if_neg (by omega)

theorem dedent_eq_self {column : Int} {s : Layout} (h : s.indent ≤ column) : s.dedent column = s := by
  rw [dedent, closeBlocks_eq_self h, ite_self]

theorem closeBlocks_eq {column base : Int} (hbase : base ≤ column) (outer : List Int) {closed : List Int}
    (hclosed : ∀ x ∈ closed, column < x) (s : Layout)
    (hlevels : s.indent :: s.outerIndents = closed ++ base :: outer) :
    closeBlocks column s.outerIndents s = { s with
      indent := base, outerIndents := outer,
      pending := s.pending ++ List.replicate closed.length .closeBlock } := by
  induction closed generalizing s with
  | nil =>
    obtain ⟨rfl, rfl⟩ := List.cons.inj hlevels
    rw [closeBlocks_eq_self hbase, List.length_nil, List.replicate_zero, List.append_nil]
  | cons x closed ih =>
    obtain ⟨hx, hothers⟩ := List.forall_mem_cons.mp hclosed
    obtain ⟨rfl, houter⟩ := List.cons.inj hlevels
    obtain ⟨y, rest, hrest⟩ : ∃ y rest, s.outerIndents = y :: rest := by
      rw [houter]
      cases closed <;> exact ⟨_, _, rfl⟩
    have hstep : closeBlocks column (y :: rest) s =
        closeBlocks column rest ({ s with indent := y, outerIndents := rest }.push .closeBlock) := if_pos hx
    rw [hrest, hstep]
    have hlevels' : y :: rest = closed ++ base :: outer := hrest ▸ houter
    refine (ih hothers ({ s with indent := y, outerIndents := rest }.push .closeBlock) hlevels').trans ?_
    simp [push, List.replicate_succ]

/-! ### Delivering -/

theorem dropExpired_eq_self {s : Layout} (h : ∀ k ∈ s.keyStarts, s.isExpired k.2 = false) :
    s.dropExpired = .ok s := by
  have hany : (s.keyStarts.any fun k => s.isExpired k.2 && k.2.required) = false := by
    rw [List.any_eq_false]
    intro k hk
    simp [h k hk]
  have hfilter : s.keyStarts.filter (fun k => !s.isExpired k.2) = s.keyStarts :=
    List.filter_eq_self.mpr fun k hk => by simp [h k hk]
  rw [dropExpired, hany, hfilter]
  rfl

/-- What is delivered with some fuel: so many closing marks, and then the given tokens. -/
def Gives (fuel : Nat) (s : Layout) (closings : Nat) (tokens : List Token) : Prop :=
  s.deliver fuel = (List.replicate closings .closeBlock ++ tokens, none)

theorem Gives.of_next {fuel closings : Nat} {s s' : Layout} {tokens : List Token}
    (h : Gives fuel s' closings tokens) (hmore : s.needsMore = .ok (true, s)) (hnext : s.next = .ok s') :
    Gives (fuel + 1) s closings tokens := by
  rw [Gives, deliver, hmore]
  simp only [hnext]
  exact h

theorem deliver_pending (front : List Token) (fuel : Nat) {s : Layout} {pending : List Token}
    (hpending : s.pending = front ++ pending)
    (hkeys : s.done = true ∨ ∀ k ∈ s.keyStarts, s.isExpired k.2 = false ∧
      s.delivered + front.length ≤ k.2.number) :
    s.deliver (fuel + front.length) =
      (front ++ (deliver fuel { s with pending, delivered := s.delivered + front.length }).1,
        (deliver fuel { s with pending, delivered := s.delivered + front.length }).2) := by
  induction front generalizing s with
  | nil =>
    have hself : { s with pending, delivered := s.delivered + 0 } = s := by
      rw [← show s.pending = pending from hpending]
      rfl
    rw [List.length_nil, hself]
    rfl
  | cons token front ih =>
    have hready : s.needsMore = .ok (false, s) := by
      rw [needsMore]
      by_cases hdone : s.done = true
      · rw [if_pos hdone]
      · have hkeys := hkeys.resolve_left hdone
        have hany : (s.keyStarts.any fun k => k.2.number = s.delivered) = false := by
          rw [List.any_eq_false]
          intro k hk
          have := (hkeys k hk).2
          simp only [List.length_cons] at this
          simp
          omega
        rw [if_neg hdone, if_neg (by rw [hpending]; nofun), dropExpired_eq_self fun k hk => (hkeys k hk).1]
        show Except.ok (_, s) = _
        rw [hany]
    rw [List.length_cons, ← Nat.add_assoc, deliver, hready]
    simp only [hpending, List.cons_append]
    have hrest := @ih { s with pending := front ++ pending, delivered := s.delivered + 1 } rfl (by
      refine hkeys.imp_right fun hkeys k hk => ⟨(hkeys k hk).1, ?_⟩
      have := (hkeys k hk).2
      simp only [List.length_cons] at this
      show s.delivered + 1 + front.length ≤ _
      omega)
    rw [hrest]
    simp only [Nat.add_assoc, Nat.add_comm 1 front.length]

/-! ### Tokens at the cursor -/

section here

variable {s : Layout} {d : CodePoint} {rest : Text}

theorem isBlankOrEnd_second {t : Text} (ht : Scalar.IsPlain t) {c : Cursor} (hrest : c.rest = t ++ rest)
    (hmark : isOneOf "?:-" c.peek = true) : isBlankOrEnd (c.peekAt 1) = false := by
  obtain ⟨d, t, rfl, -, -, hindicator⟩ := ht.head
  have hnext := hindicator (by rwa [← Cursor.peek_eq hrest])
  rw [Cursor.peekAt_one_eq hrest]
  cases t with
  | nil => cases hnext
  | cons e t => exact hnext

theorem startsPlain_plain {t : Text} (ht : Scalar.IsPlain t) {c : Cursor} (hrest : c.rest = t ++ rest) :
    c.startsPlain false = true := by
  have hword := isBlankOrEnd_second ht hrest
  obtain ⟨d, t, rfl, hblank, hmarks, -⟩ := ht.head
  rw [Cursor.peek_eq hrest] at hword
  rw [Cursor.startsPlain, Cursor.peek_eq hrest]
  by_cases hc : isOneOf "?:-" d = true
  · have hcases : d = CodePoint.ofChar '?' ∨ d = CodePoint.ofChar ':' ∨ d = CodePoint.ofChar '-' := by
      simpa [isOneOf, Text.ofString] using hc
    have hnext := hword hc
    rcases hcases with h | h | h <;> simp [hnext, h]
  · have hnone : isOneOf "-?:,[]\x7b\x7d#&*!|>'\"%@\x60" d = false := by
      simp only [isOneOf, List.contains_eq_mem, decide_eq_false_iff_not]
      intro hmem
      have hsplit : ∀ m ∈ Text.ofString "-?:,[]\x7b\x7d#&*!|>'\"%@\x60",
        isOneOf "?:-" m = true ∨ isOneOf "#,[]\x7b\x7d&*!|>'\"%@\x60" m = true := by decide
      rcases hsplit d hmem with h | h
      · exact hc h
      · rw [hmarks] at h
        cases h
    simp [hblank, hnone]

theorem takeHere_plain {t : Text} (ht : Scalar.IsPlain t) (hrest : s.cursor.rest = t ++ rest)
    (hflow : s.flowLevel = 0) (hmark : s.cursor.column = 0 →
      t.head? ≠ some (CodePoint.ofChar '-') ∧ t.head? ≠ some (CodePoint.ofChar '.')) :
    s.takeHere = s.pushPlain := by
  have hstarts := startsPlain_plain ht hrest
  have hword := isBlankOrEnd_second ht hrest
  obtain ⟨c, t, rfl, hblank, hmarks, -⟩ := ht.head
  have hpeek : s.cursor.peek = c := Cursor.peek_eq hrest
  rw [hpeek] at hword
  have hne : ∀ m, isOneOf "#,[]\x7b\x7d&*!|>'\"%@\x60" m = true → c ≠ m := by
    rintro m hm rfl
    rw [hmarks] at hm
    cases hm
  have hnot : ∀ m, isOneOf "?:-" m = true → ¬(c = m ∧ isBlankOrEnd (s.cursor.peekAt 1) = true) := by
    rintro m hm ⟨rfl, hend⟩
    rw [hword hm] at hend
    cases hend
  have hmarksAt : ∀ mark, (CodePoint.ofChar '-' = mark ∨ CodePoint.ofChar '.' = mark) →
      ¬(s.cursor.column = 0 ∧ s.cursor.hasMarks mark = true) := by
    rintro mark hcase ⟨hzero, hmarked⟩
    obtain ⟨hdash, hdot⟩ := hmark hzero
    have hpeekNe : s.cursor.peek ≠ mark := by
      rintro rfl
      rcases hcase with h | h
      · exact hdash (by rw [List.cons_append] at hrest; rw [h, Cursor.peek_eq hrest]; rfl)
      · exact hdot (by rw [List.cons_append] at hrest; rw [h, Cursor.peek_eq hrest]; rfl)
    rw [Cursor.hasMarks_eq_false hpeekNe] at hmarked
    cases hmarked
  have hinFlow : s.inFlow = false := by simp [inFlow, hflow]
  have hend : ¬isEnd c = true := by
    intro h
    rw [Bool.eq_false_iff, ne_eq, isBlankOrEnd_iff] at hblank
    exact hblank (.inl (of_decide_eq_true h))
  rw [takeHere]
  simp only [hpeek, hinFlow]
  rw [if_neg hend, if_neg fun h => hne _ (by decide) h.1, if_neg (hmarksAt _ (.inl rfl)),
    if_neg (hmarksAt _ (.inr rfl)), if_neg (hne _ (by decide)), if_neg (hne _ (by decide)),
    if_neg (hne _ (by decide)), if_neg (hne _ (by decide)), if_neg (hne _ (by decide)),
    if_neg (hnot _ (by decide)), if_neg (by simpa using hnot _ (by decide)),
    if_neg (by simpa using hnot _ (by decide)), if_neg (hne _ (by decide)), if_neg (hne _ (by decide)),
    if_neg (hne _ (by decide)), if_neg fun h => hne _ (by decide) h.1,
    if_neg fun h => hne _ (by decide) h.1, if_neg fun h => h.elim (hne _ (by decide)) (hne _ (by decide)),
    if_pos hstarts]

theorem takeHere_colon (hrest : s.cursor.rest = CodePoint.ofChar ':' :: d :: rest)
    (hd : isBlankOrEnd d = true) : s.takeHere = s.startValue := by
  have hpeek := Cursor.peek_eq hrest
  have hnext : s.cursor.peekAt 1 = d := Cursor.peekAt_one_eq hrest
  have hdashes : s.cursor.hasMarks '-' = false := Cursor.hasMarks_eq_false (by rw [hpeek]; decide)
  have hdots : s.cursor.hasMarks '.' = false := Cursor.hasMarks_eq_false (by rw [hpeek]; decide)
  simp +decide [takeHere, hpeek, hnext, hd, hdashes, hdots]

theorem takeHere_dash (hrest : s.cursor.rest = CodePoint.ofChar '-' :: CodePoint.ofChar ' ' :: rest) :
    s.takeHere = s.startItem := by
  have hpeek := Cursor.peek_eq hrest
  have hnext : s.cursor.peekAt 1 = CodePoint.ofChar ' ' := Cursor.peekAt_one_eq hrest
  have hdashes : s.cursor.hasMarks '-' = false := by
    rw [Cursor.hasMarks, hrest]
    rfl
  have hdots : s.cursor.hasMarks '.' = false := Cursor.hasMarks_eq_false (by rw [hpeek]; decide)
  simp +decide [takeHere, hpeek, hnext, hdashes, hdots]

theorem takeHere_quote {double : Bool} (hrest : s.cursor.rest = Cursor.quoteMark double :: rest) :
    s.takeHere = s.pushKeyStart fun c => do
      let (text, c) ← c.quotedScalar double
      return (.scalar text false, c) := by
  have hpeek := Cursor.peek_eq hrest
  have hmarks : ∀ mark, Cursor.quoteMark double ≠ mark → s.cursor.hasMarks mark = false := by
    intro mark hne
    exact Cursor.hasMarks_eq_false (by rw [hpeek]; exact hne)
  have hdashes := hmarks '-' (by cases double <;> decide)
  have hdots := hmarks '.' (by cases double <;> decide)
  cases double <;> simp +decide [takeHere, hpeek, hdashes, hdots, Cursor.quoteMark]

theorem takeHere_openFlow (hrest : s.cursor.rest = CodePoint.ofChar '[' :: rest) :
    s.takeHere = s.enterFlow .list := by
  have hpeek := Cursor.peek_eq hrest
  have hdashes : s.cursor.hasMarks '-' = false := Cursor.hasMarks_eq_false (by rw [hpeek]; decide)
  have hdots : s.cursor.hasMarks '.' = false := Cursor.hasMarks_eq_false (by rw [hpeek]; decide)
  simp +decide [takeHere, hpeek, hdashes, hdots]

theorem takeHere_closeFlow (hrest : s.cursor.rest = CodePoint.ofChar ']' :: rest) :
    s.takeHere = s.leaveFlow .list := by
  have hpeek := Cursor.peek_eq hrest
  have hdashes : s.cursor.hasMarks '-' = false := Cursor.hasMarks_eq_false (by rw [hpeek]; decide)
  have hdots : s.cursor.hasMarks '.' = false := Cursor.hasMarks_eq_false (by rw [hpeek]; decide)
  simp +decide [takeHere, hpeek, hdashes, hdots]

end here

end Layout

end RandomText.Yaml
