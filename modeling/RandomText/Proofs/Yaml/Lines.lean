import RandomText.Proofs.Yaml.Layout

/-!
# Lines of a written document

A line of a written document is a key with a scalar, a key alone, or a dash in front of one of these. A
line may leave collections open that the next one is no longer in; their closing marks are owed until the
next line is reached.
-/

namespace RandomText.Yaml

namespace Layout

open Cursor (Begins StartsToken)

/-! ### Where a layout stands -/

/-- The layout stands before a line with the given text behind its indentation. It has still to close
some collections; then the given levels of indentation are open. -/
structure Stands (s : Layout) (closings : Nat) (levels : List Int) (more : Text) (column : Nat) : Prop where
  flowLevel_eq : s.flowLevel = 0
  keyStarts_eq : s.keyStarts = []
  pending_eq : s.pending = []
  not_done : s.done = false
  levels_eq : ∃ closed : List Int, closed.length = closings ∧ (∀ x ∈ closed, (column : Int) < x) ∧
    s.indent :: s.outerIndents = closed ++ levels
  arrives : ∃ c : Cursor, c.rest = more ∧ c.column = column ∧
    s.arrived = { s with cursor := c, keyAllowed := true }

/-- The layout behind the colon of a key. -/
def behindKey (c : Cursor) (indent : Int) (outer : List Int) (delivered : Nat) : Layout :=
  ⟨c, 0, indent, outer, false, [], [], delivered, false⟩

theorem Stands.leave {s : Layout} {n : Nat} {level : Int} {levels : List Int} {more : Text} {column : Nat}
    (h : Stands s n (level :: levels) more column) (hlevel : column < level) :
    Stands s (n + 1) levels more column := by
  obtain ⟨closed, hlength, hclosed, hlevels⟩ := h.levels_eq
  refine ⟨h.flowLevel_eq, h.keyStarts_eq, h.pending_eq, h.not_done, ⟨closed ++ [level], ?_, ?_, ?_⟩,
    h.arrives⟩
  · simp [hlength]
  · intro x hx
    rcases List.mem_append.mp hx with hx | hx
    · exact hclosed x hx
    · rw [List.mem_singleton.mp hx]
      exact hlevel
  · simp [hlevels]

theorem Gives.leave {fuel n : Nat} {s : Layout} {tokens : List Token} (h : Gives fuel s (n + 1) tokens) :
    Gives fuel s n (.closeBlock :: tokens) := by
  rw [Gives, List.replicate_succ', List.append_assoc] at h
  exact h

theorem next_of_arrived {s s' : Layout} (harrived : s.arrived = s')
    (hkeys : ∀ k ∈ s'.keyStarts, s'.isExpired k.2 = false) :
    s.next = (s'.dedent s'.cursor.column).takeHere := by
  have hnext : s.next = s.arrived.dropExpired >>= fun s => (s.dedent s.cursor.column).takeHere := rfl
  rw [hnext, harrived, dropExpired_eq_self hkeys]
  rfl

theorem needsMore_of_pending_nil {s : Layout} (hdone : s.done = false) (hpending : s.pending = []) :
    s.needsMore = .ok (true, s) := by
  rw [needsMore, if_neg (by simp [hdone]), if_pos (by rw [hpending]; rfl)]

theorem Stands.next {s : Layout} {n : Nat} {base : Int} {outer : List Int} {more : Text} {column : Nat}
    (h : Stands s n (base :: outer) more column) (hbase : base ≤ column) :
    ∃ c : Cursor, c.rest = more ∧ c.column = column ∧ s.next =
      (⟨c, 0, base, outer, true, [], List.replicate n .closeBlock, s.delivered, false⟩ :
        Layout).takeHere := by
  obtain ⟨closed, rfl, hclosed, hlevels⟩ := h.levels_eq
  obtain ⟨c, hrest, rfl, harrives⟩ := h.arrives
  refine ⟨c, hrest, rfl, ?_⟩
  have hkeys : ∀ k ∈ s.keyStarts, (⟨c, s.flowLevel, s.indent, s.outerIndents, true, s.keyStarts, s.pending,
      s.delivered, s.done⟩ : Layout).isExpired k.2 = false := by
    rw [h.keyStarts_eq]
    nofun
  rw [next_of_arrived harrives hkeys, dedent, if_neg (by simp [inFlow, h.flowLevel_eq])]
  rw [closeBlocks_eq hbase outer hclosed { s with cursor := c, keyAllowed := true } hlevels]
  simp only [h.flowLevel_eq, h.keyStarts_eq, h.pending_eq, h.not_done, List.nil_append]

theorem next_behindKey {indent : Int} {outer : List Int} {delivered : Nat} {more : Text}
    {index line column : Nat} (hmore : StartsToken more) (hcolumn : indent ≤ column) :
    (behindKey ⟨CodePoint.ofChar ' ' :: more, index, line, column⟩ indent outer delivered).next =
      (behindKey ⟨more, index + 1, line, column + 1⟩ indent outer delivered).takeHere := by
  have harrived :
      (behindKey ⟨CodePoint.ofChar ' ' :: more, index, line, column⟩ indent outer delivered).arrived =
        behindKey ⟨more, index + 1, line, column + 1⟩ indent outer delivered := by
    refine arrived_spaces (n := 1) rfl hmore ?_
    rintro ⟨-, hval⟩
    cases hval
  have hdeeper : indent ≤ ((column + 1 : Nat) : Int) := by omega
  rw [next_of_arrived harrived nofun, dedent_eq_self hdeeper]

theorem Gives.of_closings {fuel n : Nat} {s : Layout} {pending out : List Token}
    (h : Gives fuel { s with pending, delivered := s.delivered + n } 0 out)
    (hpending : s.pending = List.replicate n .closeBlock ++ pending)
    (hkeys : s.done = true ∨ ∀ k ∈ s.keyStarts, s.isExpired k.2 = false ∧ s.delivered + n ≤ k.2.number) :
    Gives (fuel + n) s n out := by
  have hlength : (List.replicate n Token.closeBlock).length = n := List.length_replicate
  have hgives : deliver fuel { s with pending, delivered := s.delivered + n } = (out, none) := h
  have hdeliver := deliver_pending (List.replicate n .closeBlock) fuel hpending (by rwa [hlength])
  rw [hlength, hgives] at hdeliver
  exact hdeliver

theorem Gives.of_pending (tokens : List Token) {fuel : Nat} {s : Layout} {out : List Token}
    (h : Gives fuel { s with pending := [], delivered := s.delivered + tokens.length } 0 out)
    (hpending : s.pending = tokens) (hkeys : s.keyStarts = []) :
    Gives (fuel + tokens.length) s 0 (tokens ++ out) := by
  have hgives : deliver fuel { s with pending := [], delivered := s.delivered + tokens.length } =
      (out, none) := h
  have hall : s.pending = tokens ++ [] := by rw [hpending, List.append_nil]
  have hdeliver := deliver_pending tokens fuel hall (.inr (by rw [hkeys]; nofun))
  rw [hgives] at hdeliver
  exact hdeliver

/-! ### Keys -/

/-- A word that can be a key at the start of a line. -/
structure IsKey (k : Text) : Prop where
  canBePlain : Scalar.canBePlain k = true
  ne_dash : k.head? ≠ some (CodePoint.ofChar '-')
  ne_dot : k.head? ≠ some (CodePoint.ofChar '.')
  short : k.length ≤ 1024

theorem IsKey.plain {k : Text} (hk : IsKey k) : Scalar.IsPlain k :=
  (Scalar.isPlain_of_canBePlain hk.canBePlain).2

/-- A key at a column goes on with the mapping there, or opens one inside of what is open. -/
inductive Opens (column : Nat) : List Int → List Token → List Int → Prop
  | same (outer : List Int) : Opens column ((column : Int) :: outer) [] outer
  | deeper {base : Int} (outer : List Int) (h : base < column) :
    Opens column (base :: outer) [.openBlock .map] (base :: outer)

theorem Opens.exists_base {column : Nat} {levels outer : List Int} {opened : List Token}
    (h : Opens column levels opened outer) : ∃ base rest, levels = base :: rest ∧ base ≤ column := by
  cases h with
  | same => exact ⟨_, _, rfl, Int.le_refl _⟩
  | deeper _ h => exact ⟨_, _, rfl, Int.le_of_lt h⟩

theorem Opens.length_le {column : Nat} {levels outer : List Int} {opened : List Token}
    (h : Opens column levels opened outer) : opened.length ≤ 1 := by
  cases h <;> simp

theorem startValue_eq {column : Nat} {base : Int} {rest outer : List Int} {opened : List Token}
    (h : Opens column (base :: rest) opened outer) (c : Cursor) (key : KeyStart) (token : Token)
    (hcolumn : key.column = column) :
    (⟨c, 0, base, rest, false, [(0, key)], [token], key.number, false⟩ : Layout).startValue =
      .ok ⟨c.advanceBy 1, 0, column, outer, false, [], opened ++ [.key, token, .value], key.number,
        false⟩ := by
  subst hcolumn
  show Except.ok (valueOf key ⟨c, 0, base, rest, false, [(0, key)], [token], key.number, false⟩) = _
  rw [valueOf]
  cases h with
  | same => simp [forgetKey, inFlow, isDeeper, insertBefore, pushMark, push, moveTo]
  | deeper _ h => simp [forgetKey, inFlow, isDeeper, h, openBlock, insertBefore, pushMark, push, moveTo]

section plain

variable {c c' : Cursor} {t : Text} {broken : Bool} {indent : Int} (outer : List Int) {pending : List Token}
  {delivered : Nat} (hplain : c.plainScalar false indent = (t, c', broken))
include hplain

theorem pushPlain_allowed :
    (⟨c, 0, indent, outer, true, [], pending, delivered, false⟩ : Layout).pushPlain =
      .ok ⟨c', 0, indent, outer, broken,
        [(0, ⟨delivered + pending.length, indent = c.column, c.index, c.line, c.column⟩)],
        pending ++ [.scalar t true], delivered, false⟩ := by
  show Except.ok (⟨(c.plainScalar false indent).2.1, 0, indent, outer, (c.plainScalar false indent).2.2,
    [(0, ⟨delivered + pending.length, indent = c.column, c.index, c.line, c.column⟩)],
    pending ++ [.scalar (c.plainScalar false indent).1 true], delivered, false⟩ : Layout) = _
  rw [hplain]

theorem pushPlain_behindKey : (behindKey c indent outer delivered).pushPlain =
    .ok ⟨c', 0, indent, outer, broken, [], [.scalar t true], delivered, false⟩ := by
  show Except.ok (⟨(c.plainScalar false indent).2.1, 0, indent, outer, (c.plainScalar false indent).2.2, [],
    [.scalar (c.plainScalar false indent).1 true], delivered, false⟩ : Layout) = _
  rw [hplain]

end plain

theorem gives_colon (token : Token) (key : KeyStart) {fuel : Nat} {out : List Token} {column : Nat}
    {base : Int} {rest outer : List Int}
    {opened : List Token} (hopens : Opens column (base :: rest) opened outer) {c : Cursor} {d : CodePoint}
    {more : Text} (hc : c.rest = CodePoint.ofChar ':' :: d :: more) (hd : isBlankOrEnd d = true)
    (hbase : base ≤ c.column) (hcolumn : key.column = column) (hline : key.line = c.line)
    (hindex : c.index ≤ key.index + 1024)
    (h : Gives fuel (behindKey (c.advanceBy 1) column outer (key.number + (opened.length + 3))) 0 out) :
    Gives (fuel + (opened.length + 3) + 1)
      ⟨c, 0, base, rest, false, [(0, key)], [token], key.number, false⟩ 0
      (opened ++ .key :: token :: .value :: out) := by
  let s : Layout := ⟨c, 0, base, rest, false, [(0, key)], [token], key.number, false⟩
  have hexpired : ∀ k ∈ s.keyStarts, s.isExpired k.2 = false := by
    intro k hk
    rw [List.mem_singleton.mp hk]
    simp [s, isExpired, hline]
    omega
  have hmore : s.needsMore = .ok (true, s) := by
    have hany : (s.keyStarts.any fun k => k.2.number = s.delivered) = true := by simp [s]
    rw [needsMore, if_neg (by simp [s]), if_neg (by simp [s]), dropExpired_eq_self hexpired]
    show Except.ok (s.keyStarts.any fun k => k.2.number = s.delivered, s) = _
    rw [hany]
  have hpeek := Cursor.peek_eq hc
  have hstarts : StartsToken c.rest := by
    rw [hc]
    exact ⟨by rintro e ⟨⟩; decide, by rintro ⟨⟩⟩
  have harrived : s.arrived = s := by
    refine arrived_spaces (n := 0) rfl hstarts ?_
    rw [hpeek]
    rintro ⟨-, hval⟩
    revert hval
    decide
  have hnext : s.next = .ok ⟨c.advanceBy 1, 0, column, outer, false, [], opened ++ [.key, token, .value],
      key.number, false⟩ := by
    rw [next_of_arrived harrived hexpired, dedent_eq_self hbase, takeHere_colon hc hd]
    exact startValue_eq hopens c key token hcolumn
  refine Gives.of_next ?_ hmore hnext
  have hlength : (opened ++ [.key, token, .value]).length = opened.length + 3 := by simp
  rw [← hlength] at h ⊢
  have hall := Gives.of_pending (opened ++ [.key, token, .value])
    (s := ⟨c.advanceBy 1, 0, column, outer, false, [], opened ++ [.key, token, .value], key.number, false⟩)
    h rfl rfl
  simpa using hall

/-- **A key.** What is owed is closed, the key is marked, and the layout is behind its colon. -/
theorem Stands.key {s : Layout} {n column : Nat} {levels outer : List Int} {opened : List Token} {k : Text}
    {d : CodePoint} {more : Text} (h : Stands s n levels (k ++ CodePoint.ofChar ':' :: d :: more) column)
    (hopens : Opens column levels opened outer) (hk : IsKey k) (hd : isBlankOrEnd d = true) :
    ∃ c delivered, c.rest = d :: more ∧ (column : Int) ≤ c.column ∧ ∀ fuel out,
      Gives fuel (behindKey c column outer delivered) 0 out →
        Gives (fuel + (opened.length + 5) + n) s n (opened ++ .key :: .scalar k true :: .value :: out) := by
  obtain ⟨base, rest, rfl, hbase⟩ := hopens.exists_base
  obtain ⟨⟨text, index, line, at'⟩, hrest, hcolumn, hnext⟩ := h.next hbase
  obtain rfl : text = _ := hrest
  obtain rfl : at' = column := hcolumn
  have hplain := Cursor.plainScalar_colon hk.plain hd more index line hbase
  rw [takeHere_plain hk.plain rfl rfl fun _ => ⟨hk.ne_dash, hk.ne_dot⟩,
    pushPlain_allowed rest hplain] at hnext
  rw [List.length_replicate] at hnext
  let behind : Cursor := ⟨CodePoint.ofChar ':' :: d :: more, index + k.length, line, at' + k.length⟩
  let key : KeyStart := ⟨s.delivered + n, base = (at' : Int), index, line, at'⟩
  have hadvance : behind.advanceBy 1 = ⟨d :: more, index + k.length + 1, line, at' + k.length + 1⟩ := rfl
  refine ⟨behind.advanceBy 1, key.number + (opened.length + 3), rfl, ?_, ?_⟩
  · rw [hadvance]
    show (at' : Int) ≤ ((at' + k.length + 1 : Nat) : Int)
    omega
  · intro fuel out hgives
    have hshort := hk.short
    have hcolon := gives_colon (.scalar k true) key (c := behind) hopens rfl hd
      (by show base ≤ ((at' + k.length : Nat) : Int); omega) rfl rfl
      (by show index + k.length ≤ index + 1024; omega) hgives
    -- The closing marks come first; the key is still undecided meanwhile.
    have hclosed := Gives.of_closings (n := n) (s := ⟨behind, 0, base, rest, false, [(0, key)],
      List.replicate n .closeBlock ++ [.scalar k true], s.delivered, false⟩) hcolon rfl (.inr (by
        intro start hstart
        rw [List.mem_singleton.mp hstart]
        refine ⟨?_, Nat.le_refl _⟩
        simp [isExpired, behind, key]
        omega))
    have hfuel : fuel + (opened.length + 5) + n = fuel + (opened.length + 3) + 1 + n + 1 := by omega
    rw [hfuel]
    exact hclosed.of_next (needsMore_of_pending_nil h.not_done h.pending_eq) hnext

/-! ### Items -/

/-- **A dash.** What is owed is closed, and a key may begin two columns further. -/
theorem Stands.dash {s : Layout} {n column : Nat} {outer : List Int} (more : Text)
    (h : Stands s n ((column : Int) :: outer) (CodePoint.ofChar '-' :: CodePoint.ofChar ' ' :: more) column)
    (hmore : StartsToken more) :
    ∃ s', Stands s' 0 ((column : Int) :: outer) more (column + 2) ∧ ∀ fuel out,
      Gives fuel s' 0 out → Gives (fuel + 2 + n) s n (.dash :: out) := by
  obtain ⟨⟨text, index, line, at'⟩, hrest, hcolumn, hnext⟩ := h.next (Int.le_refl _)
  obtain rfl : text = _ := hrest
  obtain rfl : at' = column := hcolumn
  let behind : Cursor := ⟨CodePoint.ofChar ' ' :: more, index + 1, line, at' + 1⟩
  let s' : Layout := ⟨behind, 0, at', outer, true, [], [], s.delivered + n + 1, false⟩
  have hitem : Layout.startItem ⟨⟨CodePoint.ofChar '-' :: CodePoint.ofChar ' ' :: more, index, line, at'⟩,
      0, at', outer, true, [], List.replicate n .closeBlock, s.delivered, false⟩ =
        .ok ⟨behind, 0, at', outer, true, [], List.replicate n .closeBlock ++ [.dash], s.delivered,
          false⟩ := by
    simp [startItem, inFlow, openBlockHere, isDeeper, dropKey, keyStart?, pushMark, push, moveTo]
    rfl
  rw [takeHere_dash rfl, hitem] at hnext
  have harrived : s'.arrived = s'.moveTo (behind.advanceBy 1) := by
    refine arrived_spaces (n := 1) rfl hmore ?_
    rintro ⟨hindex, -⟩
    cases hindex
  refine ⟨s', ⟨rfl, rfl, rfl, rfl, ⟨[], rfl, List.forall_mem_nil _, rfl⟩,
    ⟨behind.advanceBy 1, rfl, rfl, harrived⟩⟩, ?_⟩
  intro fuel out hgives
  have hdash := Gives.of_pending [.dash] (s := ⟨behind, 0, at', outer, true, [], [.dash],
    s.delivered + n, false⟩) hgives rfl rfl
  have hclosed := Gives.of_closings (n := n) (s := ⟨behind, 0, at', outer, true, [],
    List.replicate n .closeBlock ++ [.dash], s.delivered, false⟩) hdash rfl (.inr (List.forall_mem_nil _))
  have hfuel : fuel + 2 + n = fuel + [Token.dash].length + n + 1 := by simp; omega
  rw [hfuel]
  exact hclosed.of_next (needsMore_of_pending_nil h.not_done h.pending_eq) hnext

/-! ### Values -/

section value

variable {c : Cursor} {indent : Int} (outer : List Int) (delivered : Nat) {column : Nat} {t more : Text}

theorem stands_plain (hc : c.rest =
      CodePoint.ofChar ' ' :: (t ++ CodePoint.ofChar '\n' :: (Scalar.spaces column ++ more)))
    (hindent : indent ≤ c.column) (ht : Scalar.IsPlain t) (hmore : Begins more) (hcolumn : column ≤ indent) :
    ∃ s', Stands s' 0 (indent :: outer) more column ∧ ∀ fuel out,
      Gives fuel s' 0 out →
        Gives (fuel + 2) (behindKey c indent outer delivered) 0 (.scalar t true :: out) := by
  obtain ⟨text, index, line, at'⟩ := c
  obtain rfl : text = _ := hc
  let word : Cursor :=
    ⟨t ++ CodePoint.ofChar '\n' :: (Scalar.spaces column ++ more), index + 1, line, at' + 1⟩
  let behind : Cursor := ⟨more, index + 1 + t.length + 1 + column, line + 1, column⟩
  let s' : Layout := ⟨behind, 0, indent, outer, true, [], [], delivered + 1, false⟩
  have hle : indent ≤ ((at' + 1 : Nat) : Int) := by
    have : indent ≤ (at' : Int) := hindent
    omega
  have hstarts : StartsToken word.rest := by
    obtain ⟨d, rest, rfl, hblank, hmarks, -⟩ := ht.head
    refine ⟨by rintro e ⟨⟩; exact hblank, ?_⟩
    rintro ⟨⟩
    revert hmarks
    decide
  have hnext : (behindKey _ indent outer delivered).next = (behindKey word indent outer delivered).takeHere :=
    next_behindKey hstarts hindent
  have hplain := Cursor.plainScalar_lineEnd ht hmore hcolumn (index + 1) line hle
  rw [takeHere_plain ht rfl rfl fun hzero => absurd hzero (Nat.succ_ne_zero at'),
    pushPlain_behindKey outer hplain] at hnext
  have harrived : s'.arrived = s' := by
    refine arrived_spaces (n := 0) rfl hmore.startsToken ?_
    rintro ⟨hindex, -⟩
    have : index + 1 + t.length + 1 + column = 0 := hindex
    omega
  refine ⟨s', ⟨rfl, rfl, rfl, rfl, ⟨[], rfl, List.forall_mem_nil _, rfl⟩,
    ⟨behind, rfl, rfl, harrived⟩⟩, ?_⟩
  intro fuel out hgives
  have hscalar := Gives.of_pending [.scalar t true] (s := ⟨behind, 0, indent, outer, true, [],
    [.scalar t true], delivered, false⟩) hgives rfl rfl
  exact hscalar.of_next (needsMore_of_pending_nil rfl rfl) hnext

theorem stands_lineEnd (hc : c.rest = CodePoint.ofChar '\n' :: (Scalar.spaces column ++ more))
    (hmore : Begins more) : Stands (behindKey c indent outer delivered) 0 (indent :: outer) more column := by
  obtain ⟨c', hrest, hcolumn, harrived⟩ :=
    arrived_lineEnd (s := behindKey c indent outer delivered) rfl hc hmore.startsToken
  exact ⟨rfl, rfl, rfl, rfl, ⟨[], rfl, List.forall_mem_nil _, rfl⟩,
    ⟨c', hrest, hcolumn, harrived⟩⟩

theorem stands_quoted {double : Bool} {quoted : Text} (hc : c.rest = CodePoint.ofChar ' ' ::
      (Cursor.quoteMark double :: quoted ++ CodePoint.ofChar '\n' :: (Scalar.spaces column ++ more)))
    (hindent : indent ≤ c.column) (hmore : Begins more)
    (hquoted : ∀ c : Cursor, ∀ rest, rest.headD finish ≠ CodePoint.ofChar '\'' →
      c.rest = Cursor.quoteMark double :: quoted ++ rest →
        ∃ c', c'.rest = rest ∧ c.quotedScalar double = .ok (t, c')) :
    ∃ s', Stands s' 0 (indent :: outer) more column ∧ ∀ fuel out,
      Gives fuel s' 0 out →
        Gives (fuel + 2) (behindKey c indent outer delivered) 0 (.scalar t false :: out) := by
  obtain ⟨text, index, line, at'⟩ := c
  obtain rfl : text = _ := hc
  let word : Cursor := ⟨Cursor.quoteMark double :: quoted ++
    CodePoint.ofChar '\n' :: (Scalar.spaces column ++ more), index + 1, line, at' + 1⟩
  have hstarts : StartsToken word.rest := by
    refine ⟨?_, ?_⟩
    · rintro e ⟨⟩
      cases double <;> decide
    · cases double <;> rintro ⟨⟩
  have hnext : (behindKey _ indent outer delivered).next = (behindKey word indent outer delivered).takeHere :=
    next_behindKey hstarts hindent
  obtain ⟨c', hc', hscalar⟩ := hquoted word (CodePoint.ofChar '\n' :: (Scalar.spaces column ++ more))
    (by show CodePoint.ofChar '\n' ≠ CodePoint.ofChar '\''; decide) rfl
  have hpush : (behindKey word indent outer delivered).takeHere =
      .ok ⟨c', 0, indent, outer, false, [], [.scalar t false], delivered, false⟩ := by
    rw [takeHere_quote rfl]
    show ((word.quotedScalar double >>= fun p => pure (Token.scalar p.1 false, p.2)) >>= fun p =>
      pure (⟨p.2, 0, indent, outer, false, [], [p.1], delivered, false⟩ : Layout)) = _
    rw [hscalar]
    rfl
  rw [hpush] at hnext
  refine ⟨behindKey c' indent outer (delivered + 1), stands_lineEnd outer _ hc' hmore, ?_⟩
  intro fuel out hgives
  have hdelivered := Gives.of_pending [.scalar t false] (s := ⟨c', 0, indent, outer, false, [],
    [.scalar t false], delivered, false⟩) hgives rfl rfl
  exact hdelivered.of_next (needsMore_of_pending_nil rfl rfl) hnext

theorem stands_empty (hc : c.rest = CodePoint.ofChar ' ' :: CodePoint.ofChar '[' :: CodePoint.ofChar ']' ::
      CodePoint.ofChar '\n' :: (Scalar.spaces column ++ more))
    (hindent : indent ≤ c.column) (hmore : Begins more) :
    ∃ s', Stands s' 0 (indent :: outer) more column ∧ ∀ fuel out,
      Gives fuel s' 0 out → Gives (fuel + 4) (behindKey c indent outer delivered) 0
        (.openFlow .list :: .closeFlow .list :: out) := by
  obtain ⟨text, index, line, at'⟩ := c
  obtain rfl : text = _ := hc
  let end' : Text := CodePoint.ofChar '\n' :: (Scalar.spaces column ++ more)
  let bracket : Cursor := ⟨CodePoint.ofChar '[' :: CodePoint.ofChar ']' :: end', index + 1, line, at' + 1⟩
  have hopenStarts : StartsToken bracket.rest := ⟨by rintro e ⟨⟩; decide, by rintro ⟨⟩⟩
  have hcloseStarts : StartsToken (CodePoint.ofChar ']' :: end') := ⟨by rintro e ⟨⟩; decide, by rintro ⟨⟩⟩
  have hopen : (behindKey _ indent outer delivered).next =
      (behindKey bracket indent outer delivered).takeHere := next_behindKey hopenStarts hindent
  rw [takeHere_openFlow rfl] at hopen
  -- Inside the brackets, layout has no meaning.
  let inside : Layout := ⟨⟨CodePoint.ofChar ']' :: end', index + 2, line, at' + 2⟩, 1, indent, outer, true,
    [], [], delivered + 1, false⟩
  let behind : Cursor := ⟨end', index + 3, line, at' + 3⟩
  have hinside : inside.next = .ok ⟨behind, 0, indent, outer, false, [], [.closeFlow .list], delivered + 1,
      false⟩ := by
    have harrived : inside.arrived = inside :=
      arrived_spaces (n := 0) rfl hcloseStarts (by rintro ⟨hindex, -⟩; cases hindex)
    rw [next_of_arrived harrived nofun, dedent, if_pos (show inside.inFlow = true from rfl),
      takeHere_closeFlow rfl]
    rfl
  refine ⟨behindKey behind indent outer (delivered + 2), stands_lineEnd outer _ rfl hmore, ?_⟩
  intro fuel out hgives
  have hclose := Gives.of_pending [.closeFlow .list] (s := ⟨behind, 0, indent, outer, false, [],
    [.closeFlow .list], delivered + 1, false⟩) hgives rfl rfl
  have hbrackets := Gives.of_pending [.openFlow .list] (s := { inside with
    pending := [.openFlow .list], delivered })
      (hclose.of_next (needsMore_of_pending_nil rfl rfl) hinside) rfl rfl
  exact hbrackets.of_next (needsMore_of_pending_nil rfl rfl) hopen

end value

/-! ### The end -/

theorem Stands.finish {s : Layout} {n column : Nat} (h : Stands s n [0, -1] [] column) (fuel : Nat) :
    Gives (fuel + 4 + n) s n [.closeBlock, .streamEnd] := by
  obtain ⟨c, hrest, -, hnext⟩ := h.next (by omega)
  have hend : isEnd c.peek = true := by
    rw [Cursor.peek, hrest]
    rfl
  have htake : Layout.takeHere ⟨c, 0, 0, [-1], true, [], List.replicate n .closeBlock, s.delivered, false⟩ =
      .ok ⟨c, 0, -1, [], false, [], List.replicate n .closeBlock ++ [.closeBlock, .streamEnd], s.delivered,
        true⟩ := by
    have hclose : Layout.dedent (-1)
        ⟨c, 0, 0, [-1], true, [], List.replicate n .closeBlock, s.delivered, false⟩ =
          ⟨c, 0, -1, [], true, [], List.replicate n .closeBlock ++ [.closeBlock], s.delivered, false⟩ := rfl
    rw [takeHere, if_pos hend, endStream, hclose]
    show Except.ok (⟨c, 0, -1, [], false, [], (List.replicate n .closeBlock ++ [.closeBlock]) ++ [.streamEnd],
      s.delivered, true⟩ : Layout) = _
    rw [List.append_assoc]
    rfl
  rw [htake] at hnext
  have hnone : Gives (fuel + 1) ⟨c, 0, -1, [], false, [], [], s.delivered + n + 2, true⟩ 0 [] := rfl
  have hlast := Gives.of_pending [.closeBlock, .streamEnd]
    (s := ⟨c, 0, -1, [], false, [], [.closeBlock, .streamEnd], s.delivered + n, true⟩) hnone rfl rfl
  have hclosed := Gives.of_closings (n := n) (s := ⟨c, 0, -1, [], false, [],
    List.replicate n .closeBlock ++ [.closeBlock, .streamEnd], s.delivered, true⟩) hlast rfl (.inl rfl)
  have hfuel : fuel + 4 + n = fuel + 1 + [Token.closeBlock, Token.streamEnd].length + n + 1 := by simp; omega
  rw [hfuel]
  exact hclosed.of_next (needsMore_of_pending_nil h.not_done h.pending_eq) hnext

end Layout

end RandomText.Yaml
