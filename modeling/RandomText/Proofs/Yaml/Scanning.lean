import RandomText.Proofs.Yaml.Lines
import RandomText.Proofs.Yaml.Number

/-!
# Scanning written documents

A value of maps, lists of maps and scalars has a document, if its texts survive being written. The tokens
of the document are those of the value: scanning gives them back whatever lines follow.
-/

namespace RandomText.Yaml

open Cursor (Begins)
open Layout (Stands Gives Opens IsKey)

/-! ### Values with a document -/

/-- A text between single quotes holds no next line, which would be read as a line feed. -/
def Scalar.Faithful (t : Text) : Prop := canBeSingleQuoted t = true → ∀ c ∈ t, c.val ≠ 0x85

instance (t : Text) : Decidable (Scalar.Faithful t) :=
  inferInstanceAs (Decidable (_ → _))

mutual

/-- A value that is read back from its document: a truth value, a natural number, a text, a list of maps,
or a map with keys that are words. -/
def Storable : Data → Prop
  | .bool _ => True
  | .integer n => 0 ≤ n ∧ n.natAbs < 10 ^ Numeral.maxDigits
  | .text t => Scalar.Faithful t
  | .list items => StorableItems items
  | .map entries => entries ≠ [] ∧ (entries.map Prod.fst).Nodup ∧ StorableEntries entries
  | _ => False

def StorableItems : List Data → Prop
  | [] => True
  | v :: rest => (∃ entries, v = .map entries) ∧ Storable v ∧ StorableItems rest

def StorableEntries : List (Data × Data) → Prop
  | [] => True
  | (k, v) :: rest => (∃ name, k = .text name ∧ IsKey name) ∧ Storable v ∧ StorableEntries rest

end

mutual

/-- The tokens of a value. A list behind a key has no marks of its own around it. -/
def valueTokens : Data → List Token
  | .bool b => [.scalar (if b then "true" else "false") true]
  | .integer n => [.scalar (Numeral.digits n.natAbs) true]
  | .text t => [.scalar t (Scalar.canBePlain t)]
  | .list [] => [.openFlow .list, .closeFlow .list]
  | .list items => itemsTokens items
  | .map entries => .openBlock .map :: entriesTokens entries ++ [.closeBlock]
  | _ => []

def itemsTokens : List Data → List Token
  | [] => []
  | v :: rest => .dash :: valueTokens v ++ itemsTokens rest

def entriesTokens : List (Data × Data) → List Token
  | [] => []
  | (.text k, v) :: rest => .key :: .scalar k true :: .value :: valueTokens v ++ entriesTokens rest
  | _ :: rest => entriesTokens rest

end

/-! ### Code points of documents -/

/-- A code point that may stand in a document. -/
def isAllowed (c : CodePoint) : Bool :=
  c.val = 9 || c.val = 10 || c.val = 13 || (32 ≤ c.val && c.val ≤ 126) || c.val = 0x85 ||
    (0xA0 ≤ c.val && c.val ≤ 0xD7FF) || (0xE000 ≤ c.val && c.val ≤ 0xFFFD) || 0x10000 ≤ c.val

theorem isAllowed_iff {c : CodePoint} : isAllowed c = true ↔
    c.val = 9 ∨ c.val = 10 ∨ c.val = 13 ∨ (32 ≤ c.val ∧ c.val ≤ 126) ∨ c.val = 0x85 ∨
      (0xA0 ≤ c.val ∧ c.val ≤ 0xD7FF) ∨ (0xE000 ≤ c.val ∧ c.val ≤ 0xFFFD) ∨ 0x10000 ≤ c.val := by
  simp [isAllowed, or_assoc]

/-- All code points of a text may stand in a document. -/
def Allowed (t : Text) : Prop := ∀ c ∈ t, isAllowed c = true

section allowed

variable {s t : Text} {c : CodePoint}

theorem allowed_nil : Allowed [] := nofun

theorem allowed_cons (hc : isAllowed c = true) (ht : Allowed t) : Allowed (c :: t) :=
  List.forall_mem_cons.mpr ⟨hc, ht⟩

theorem allowed_append (hs : Allowed s) (ht : Allowed t) : Allowed (s ++ t) :=
  List.forall_mem_append.mpr ⟨hs, ht⟩

theorem allowed_spaces (n : Nat) : Allowed (Scalar.spaces n) := by
  intro c hc
  rw [List.eq_of_mem_replicate hc]
  decide

theorem isAllowed_of_not_special (h : Scalar.isSpecial c = false) : isAllowed c = true := by
  rw [Scalar.isSpecial_eq_false_iff] at h
  rw [isAllowed_iff]
  omega

theorem allowed_plain (ht : Scalar.IsPlain t) : Allowed t :=
  fun c hc => isAllowed_of_not_special (Scalar.isInner_iff.mp (ht.inner c hc)).1

theorem allowed_singleQuotedFrom (ht : Allowed t) (indent : Nat) (inBreaks : Bool) :
    Allowed (Scalar.singleQuotedFrom indent inBreaks t) := by
  induction t generalizing inBreaks with
  | nil =>
    cases inBreaks
    · exact allowed_nil
    · exact allowed_spaces indent
  | cons c t ih =>
    obtain ⟨hc, ht⟩ := List.forall_mem_cons.mp ht
    have htwice : Allowed [c, c] := allowed_cons hc (allowed_cons hc allowed_nil)
    have honce : Allowed [c] := allowed_cons hc allowed_nil
    rw [Scalar.singleQuotedFrom]
    split
    · refine allowed_append ?_ (ih ht true)
      split
      · exact htwice
      · exact honce
    · refine allowed_append (allowed_append ?_ ?_) (ih ht false)
      · cases inBreaks
        · exact allowed_nil
        · exact allowed_spaces indent
      · split
        · exact htwice
        · exact honce

theorem allowed_upperHex (count n : Nat) : Allowed (Text.upperHex count n) := by
  have hdigits : ∀ k < 16, isAllowed (CodePoint.ofChar (Nat.digitChar k).toUpper) = true := by decide
  induction count generalizing n with
  | zero => exact allowed_nil
  | succ count ih =>
    exact allowed_append (ih _) (allowed_cons (hdigits (n % 16) (Nat.mod_lt n (by decide))) allowed_nil)

theorem allowed_escapeUnit (c : CodePoint) : Allowed (Scalar.escapeUnit c) := by
  have hletters : ∀ e ∈ Scalar.letterEscapes, isAllowed (CodePoint.ofChar e.2) = true := by decide
  rw [Scalar.escapeUnit]
  split
  · next v letter hfind =>
    have hletter : isAllowed (CodePoint.ofChar letter) = true :=
      hletters (v, letter) (List.mem_of_find?_eq_some hfind)
    have hbackslash : isAllowed (CodePoint.ofChar '\\') = true := by decide
    exact allowed_cons hbackslash (allowed_cons hletter allowed_nil)
  split
  · next hrange =>
    refine allowed_cons ?_ allowed_nil
    rw [isAllowed_iff]
    omega
  split
  · exact allowed_append (by decide : ∀ c ∈ Text.ofString "\\x", isAllowed c = true) (allowed_upperHex 2 _)
  split
  · exact allowed_append (by decide : ∀ c ∈ Text.ofString "\\u", isAllowed c = true) (allowed_upperHex 4 _)
  · exact allowed_append (by decide : ∀ c ∈ Text.ofString "\\U", isAllowed c = true) (allowed_upperHex 8 _)

theorem allowed_flatMap {unit : CodePoint → Text} (h : ∀ c, Allowed (unit c)) : Allowed (t.flatMap unit) := by
  intro c hc
  obtain ⟨d, -, hd⟩ := List.mem_flatMap.mp hc
  exact h d c hd

end allowed

/-! ### What is scanned -/

/-- A text behind a key at the level `indent`, and the tokens it is scanned as whatever lines follow. -/
structure IsBehindKey (indent : Nat) (text : Text) (tokens : List Token) : Prop where
  head : ∃ d rest, text = d :: rest ∧ isBlankOrEnd d = true
  allowed : Allowed text
  scans : ∀ (c : Cursor) (outer : List Int) (delivered : Nat) (more : Text) (column : Nat),
    c.rest = text ++ CodePoint.ofChar '\n' :: (Scalar.spaces column ++ more) → (indent : Int) ≤ c.column →
    Begins more → column ≤ indent →
      ∃ s cost n, Stands s n ((indent : Int) :: outer) more column ∧ cost + n ≤ 8 * text.length ∧
        ∀ fuel out, Gives fuel s n out →
          Gives (fuel + cost) (Layout.behindKey c indent outer delivered) 0 (tokens ++ out)

/-- The lines of the items of a list at the level `indent`. -/
structure AreItems (indent : Nat) (text : Text) (tokens : List Token) : Prop where
  begins : ∀ more, Begins (text ++ more)
  allowed : Allowed text
  scans : ∀ (s : Layout) (n : Nat) (outer : List Int) (more : Text) (column : Nat),
    Stands s n ((indent : Int) :: outer)
      (text ++ CodePoint.ofChar '\n' :: (Scalar.spaces column ++ more)) indent →
    Begins more → column ≤ indent →
      ∃ s' cost n', Stands s' n' ((indent : Int) :: outer) more column ∧ cost + n' ≤ n + 8 * text.length ∧
        ∀ fuel out, Gives fuel s' n' out → Gives (fuel + cost) s n (tokens ++ out)

/-- The lines of the entries of a map at the level `indent`, which may open it. -/
structure AreEntries (indent : Nat) (text : Text) (tokens : List Token) : Prop where
  begins : ∀ more, Begins (text ++ more)
  allowed : Allowed text
  scans : ∀ (s : Layout) (n : Nat) (levels outer : List Int) (opened : List Token) (more : Text)
    (column : Nat),
    Opens indent levels opened outer →
    Stands s n levels (text ++ CodePoint.ofChar '\n' :: (Scalar.spaces column ++ more)) indent →
    Begins more → column ≤ indent →
      ∃ s' cost n', Stands s' n' ((indent : Int) :: outer) more column ∧ cost + n' < n + 8 * text.length ∧
        ∀ fuel out, Gives fuel s' n' out → Gives (fuel + cost) s n (opened ++ tokens ++ out)

section scalar

variable {indent : Nat} {t : Text}

theorem isBehindKey_plain (ht : Scalar.IsPlain t) :
    IsBehindKey indent (CodePoint.ofChar ' ' :: t) [.scalar t true] where
  head := ⟨_, _, rfl, by decide⟩
  allowed := allowed_cons (by decide) (allowed_plain ht)
  scans := by
    intro c outer delivered more column hc hindent hmore hcolumn
    obtain ⟨s, hs, hgives⟩ := Layout.stands_plain outer delivered hc hindent ht hmore
      (by exact_mod_cast hcolumn)
    refine ⟨s, 2, 0, hs, ?_, hgives⟩
    simp only [List.length_cons]
    omega

theorem isBehindKey_quoted (double : Bool) {quoted : Text}
    (hallowed : Allowed (Cursor.quoteMark double :: quoted))
    (hquoted : ∀ c : Cursor, ∀ rest, rest.headD finish ≠ CodePoint.ofChar '\'' →
      c.rest = Cursor.quoteMark double :: quoted ++ rest →
        ∃ c', c'.rest = rest ∧ c.quotedScalar double = .ok (t, c')) :
    IsBehindKey indent (CodePoint.ofChar ' ' :: Cursor.quoteMark double :: quoted) [.scalar t false] where
  head := ⟨_, _, rfl, by decide⟩
  allowed := allowed_cons (by decide) hallowed
  scans := by
    intro c outer delivered more column hc hindent hmore hcolumn
    obtain ⟨s, hs, hgives⟩ := Layout.stands_quoted outer delivered hc hindent hmore
      hquoted
    refine ⟨s, 2, 0, hs, ?_, hgives⟩
    simp only [List.length_cons]
    omega

theorem isBehindKey_written (ht : Scalar.Faithful t) :
    IsBehindKey indent (CodePoint.ofChar ' ' :: Scalar.written (indent + 2) t)
      [.scalar t (Scalar.canBePlain t)] := by
  rw [Scalar.written]
  cases hplain : Scalar.canBePlain t with
  | true => exact isBehindKey_plain (Scalar.isPlain_of_canBePlain hplain).2
  | false =>
    cases hsingle : Scalar.canBeSingleQuoted t with
    | true =>
      have hquotable : Scalar.Quotable t := by
        have hnext := ht hsingle
        simp only [Scalar.canBeSingleQuoted, Bool.and_eq_true, Bool.not_eq_true',
          List.any_eq_false] at hsingle
        obtain ⟨⟨hspecial, hbreaks⟩, hspaces⟩ := hsingle
        exact ⟨fun c hc => by simpa using hspecial c hc, hnext, hbreaks, hspaces⟩
      have hquote : isAllowed (CodePoint.ofChar '\'') = true := by decide
      refine isBehindKey_quoted false (t := t) ?_ ?_
      · refine allowed_cons hquote (allowed_append (allowed_singleQuotedFrom ?_ _ _)
          (allowed_cons hquote allowed_nil))
        exact fun c hc => isAllowed_of_not_special (hquotable.not_special c hc)
      · intro c rest hrest hc
        exact Cursor.quotedScalar_single (by omega) t rest hquotable hrest hc
    | false =>
      have hquote : isAllowed (CodePoint.ofChar '"') = true := by decide
      refine isBehindKey_quoted true (t := t) ?_ ?_
      · exact allowed_cons hquote (allowed_append (allowed_flatMap allowed_escapeUnit)
          (allowed_cons hquote allowed_nil))
      · intro c rest hrest hc
        exact Cursor.quotedScalar_double t rest hc

theorem isBehindKey_empty : IsBehindKey indent " []" [.openFlow .list, .closeFlow .list] where
  head := ⟨_, _, rfl, by decide⟩
  allowed := (by decide : ∀ c ∈ Text.ofString " []", isAllowed c = true)
  scans := by
    intro c outer delivered more column hc hindent hmore hcolumn
    obtain ⟨s, hs, hgives⟩ := Layout.stands_empty outer delivered hc hindent hmore
    exact ⟨s, 4, 0, hs, by decide, hgives⟩

end scalar

section lines

variable {indent : Nat} {text value lines : Text} {tokens others : List Token} {k : Text}

theorem AreEntries.isBehindKey (h : AreEntries (indent + 2) text tokens) :
    IsBehindKey indent (Writer.lineStart (indent + 2) ++ text)
      (.openBlock .map :: tokens ++ [.closeBlock]) where
  head := ⟨_, _, rfl, by decide⟩
  allowed := allowed_append (allowed_cons (by decide) (allowed_spaces _)) h.allowed
  scans := by
    intro c outer delivered more column hc hindent hmore hcolumn
    rw [Writer.lineStart, List.append_assoc, List.cons_append] at hc
    have hstands : Stands (Layout.behindKey c indent outer delivered) 0 ((indent : Int) :: outer) _ _ :=
      Layout.stands_lineEnd outer delivered hc (h.begins _)
    obtain ⟨s, cost, n, hs, hcost, hgives⟩ := h.scans _ _ _ _ _ more column
      (.deeper outer (by omega)) hstands hmore (by omega)
    refine ⟨s, cost, n + 1, hs.leave (by omega), ?_, ?_⟩
    · simp only [List.length_append]
      omega
    · intro fuel out hout
      have hclosed := hgives fuel _ hout.leave
      simpa using hclosed

theorem AreItems.isBehindKey (h : AreItems indent text tokens) :
    IsBehindKey indent (Writer.lineStart indent ++ text) tokens where
  head := ⟨_, _, rfl, by decide⟩
  allowed := allowed_append (allowed_cons (by decide) (allowed_spaces _)) h.allowed
  scans := by
    intro c outer delivered more column hc hindent hmore hcolumn
    rw [Writer.lineStart, List.append_assoc, List.cons_append] at hc
    have hstands : Stands (Layout.behindKey c indent outer delivered) 0 ((indent : Int) :: outer) _ _ :=
      Layout.stands_lineEnd outer delivered hc (h.begins _)
    obtain ⟨s, cost, n, hs, hcost, hgives⟩ := h.scans _ _ _ more column hstands hmore hcolumn
    refine ⟨s, cost, n, hs, ?_, hgives⟩
    simp only [List.length_append]
    omega

theorem begins_key (hk : IsKey k) (more : Text) : Begins (k ++ more) := by
  obtain ⟨d, rest, rfl, hblank, hmarks, -⟩ := hk.plain.head
  have hne : ∀ word : Text, word.head? ≠ some d → (d :: rest ++ more).take 3 ≠ word := by
    rintro word hword rfl
    exact hword rfl
  refine ⟨by rintro e ⟨⟩; exact hblank, ?_, ?_, hne _ fun h => hk.ne_dash h.symm,
    hne _ fun h => hk.ne_dot h.symm⟩
  · rintro e ⟨⟩
    exact Scalar.ne_mark_of_isInner (hk.plain.inner d List.mem_cons_self)
  · rintro ⟨⟩
    revert hmarks
    decide

theorem areEntries_last (hk : IsKey k) (hvalue : IsBehindKey indent value tokens) :
    AreEntries indent (k ++ CodePoint.ofChar ':' :: value) (.key :: .scalar k true :: .value :: tokens) where
  begins more := by
    rw [List.append_assoc]
    exact begins_key hk _
  allowed := allowed_append (allowed_plain hk.plain) (allowed_cons (by decide) hvalue.allowed)
  scans := by
    intro s n levels outer opened more column hopens hs hmore hcolumn
    obtain ⟨d, rest, rfl, hd⟩ := hvalue.head
    rw [List.append_assoc] at hs
    obtain ⟨c, delivered, hc, hindent, hkey⟩ := hs.key hopens hk hd
    obtain ⟨s', cost, n', hs', hcost, hgives⟩ :=
      hvalue.scans c outer delivered more column hc hindent hmore hcolumn
    refine ⟨s', cost + (opened.length + 5) + n, n', hs', ?_, ?_⟩
    · have hopened := hopens.length_le
      have hpositive := List.length_pos_iff.mpr hk.plain.ne_nil
      simp only [List.length_append, List.length_cons] at hcost ⊢
      omega
    · intro fuel out hout
      have hall := hkey _ _ (hgives fuel out hout)
      simpa [Nat.add_assoc] using hall

theorem AreEntries.cons (h : AreEntries indent lines others) (hk : IsKey k)
    (hvalue : IsBehindKey indent value tokens) :
    AreEntries indent (k ++ CodePoint.ofChar ':' :: value ++ (Writer.lineStart indent ++ lines))
      (.key :: .scalar k true :: .value :: tokens ++ others) where
  begins more := by
    rw [List.append_assoc, List.append_assoc]
    exact begins_key hk _
  allowed := allowed_append
    (allowed_append (allowed_plain hk.plain) (allowed_cons (by decide) hvalue.allowed))
    (allowed_append (allowed_cons (by decide) (allowed_spaces _)) h.allowed)
  scans := by
    intro s n levels outer opened more column hopens hs hmore hcolumn
    have hfirst : Stands s n levels ((k ++ CodePoint.ofChar ':' :: value) ++ CodePoint.ofChar '\n' ::
        (Scalar.spaces indent ++ (lines ++ CodePoint.ofChar '\n' :: (Scalar.spaces column ++ more))))
          indent := by
      simpa [Writer.lineStart] using hs
    obtain ⟨s', cost, n', hs', hcost, hgives⟩ :=
      (areEntries_last hk hvalue).scans s n levels outer opened _ indent
      hopens hfirst (h.begins _) (Nat.le_refl _)
    obtain ⟨s'', cost', n'', hs'', hcost', hgives'⟩ := h.scans s' n' _ outer [] more column (.same outer) hs'
      hmore hcolumn
    refine ⟨s'', cost' + cost, n'', hs'', ?_, ?_⟩
    · simp only [List.length_append, List.length_cons] at hcost ⊢
      omega
    · intro fuel out hout
      have hall := hgives _ _ (hgives' fuel out hout)
      simpa [Nat.add_assoc] using hall

theorem begins_dash (more : Text) : Begins (CodePoint.ofChar '-' :: CodePoint.ofChar ' ' :: more) := by
  refine ⟨by rintro e ⟨⟩; decide, by rintro e ⟨⟩; decide, by rintro ⟨⟩, ?_, ?_⟩
  · intro htake
    rw [List.take_succ_cons, List.take_succ_cons] at htake
    have hspace := (List.cons.inj (List.cons.inj htake).2).1
    revert hspace
    decide
  · intro htake
    rw [List.take_succ_cons] at htake
    have hdash := (List.cons.inj htake).1
    revert hdash
    decide

theorem areItems_last (h : AreEntries (indent + 2) text tokens) :
    AreItems indent ("- " ++ text) (.dash :: (.openBlock .map :: tokens ++ [.closeBlock])) where
  begins more := begins_dash (text ++ more)
  allowed := allowed_cons (by decide) (allowed_cons (by decide) h.allowed)
  scans := by
    intro s n outer more column hs hmore hcolumn
    obtain ⟨s', hs', hdash⟩ := Stands.dash (text ++ CodePoint.ofChar '\n' ::
      (Scalar.spaces column ++ more)) hs (h.begins _).startsToken
    obtain ⟨s'', cost, n', hs'', hcost, hgives⟩ := h.scans _ _ _ _ _ more column
      (.deeper outer (by omega)) hs' hmore (by omega)
    refine ⟨s'', cost + 2 + n, n' + 1, hs''.leave (by omega), ?_, ?_⟩
    · show cost + 2 + n + (n' + 1) ≤ n + 8 * (text.length + 2)
      omega
    · intro fuel out hout
      have hall := hdash _ _ (hgives fuel _ hout.leave)
      simpa [Nat.add_assoc] using hall

theorem AreItems.cons (h : AreItems indent lines others) (hitem : AreEntries (indent + 2) text tokens) :
    AreItems indent ("- " ++ text ++ (Writer.lineStart indent ++ lines))
      (.dash :: (.openBlock .map :: tokens ++ [.closeBlock]) ++ others) where
  begins more := by
    rw [List.append_assoc, List.append_assoc]
    exact begins_dash _
  allowed := allowed_append (areItems_last hitem).allowed
    (allowed_append (allowed_cons (by decide) (allowed_spaces _)) h.allowed)
  scans := by
    intro s n outer more column hs hmore hcolumn
    have hfirst : Stands s n ((indent : Int) :: outer) (("- " ++ text) ++ CodePoint.ofChar '\n' ::
        (Scalar.spaces indent ++ (lines ++ CodePoint.ofChar '\n' :: (Scalar.spaces column ++ more))))
          indent := by
      simpa [Writer.lineStart] using hs
    obtain ⟨s', cost, n', hs', hcost, hgives⟩ := (areItems_last hitem).scans s n outer _ indent hfirst
      (h.begins _) (Nat.le_refl _)
    obtain ⟨s'', cost', n'', hs'', hcost', hgives'⟩ := h.scans s' n' outer more column hs' hmore hcolumn
    refine ⟨s'', cost' + cost, n'', hs'', ?_, ?_⟩
    · simp only [List.length_append] at hcost ⊢
      omega
    · intro fuel out hout
      have hall := hgives _ _ (hgives' fuel out hout)
      simpa [Nat.add_assoc] using hall

end lines

/-! ### Documents -/

theorem isPlain_true : Scalar.IsPlain "true" := by
  refine ⟨⟨by decide, by decide, by decide, by decide, by decide⟩, by decide, by decide, by decide⟩

theorem isPlain_false : Scalar.IsPlain "false" := by
  refine ⟨⟨by decide, by decide, by decide, by decide, by decide⟩, by decide, by decide, by decide⟩

mutual

/-- **A value behind a key is written**, and scanned as its tokens. -/
theorem exists_behindKey (v : Data) (h : Storable v) (indent : Nat) :
    ∃ text, Writer.behindKey indent v = .ok text ∧ IsBehindKey indent text (valueTokens v) := by
  match v, h with
  | .bool b, _ =>
    cases b with
    | true => exact ⟨_, rfl, isBehindKey_plain isPlain_true⟩
    | false => exact ⟨_, rfl, isBehindKey_plain isPlain_false⟩
  | .integer n, ⟨hpositive, hn⟩ =>
    obtain ⟨k, rfl⟩ := Int.eq_ofNat_of_zero_le hpositive
    have hwrite := Numeral.write_eq_ok (n := k) hn
    refine ⟨CodePoint.ofChar ' ' :: Numeral.digits k, ?_, isBehindKey_plain (Scalar.isPlain_digits k)⟩
    simp only [Writer.behindKey, Writer.inline?, hwrite]
    rfl
  | .text t, ht => exact ⟨_, rfl, isBehindKey_written ht⟩
  | .list [], _ => exact ⟨_, rfl, isBehindKey_empty⟩
  | .list (v :: rest), hitems =>
    obtain ⟨text, htext, hlines⟩ := exists_items (v :: rest) hitems (List.cons_ne_nil v rest) indent
    refine ⟨_, ?_, hlines.isBehindKey⟩
    rw [Writer.behindKey, htext]
    rfl
  | .map entries, ⟨hne, _, hentries⟩ =>
    obtain ⟨text, htext, hlines⟩ := exists_entries entries hentries hne (indent + 2)
    refine ⟨_, ?_, hlines.isBehindKey⟩
    rw [Writer.behindKey, if_neg (by simpa using hne), htext]
    rfl

theorem exists_items (items : List Data) (h : StorableItems items) (hne : items ≠ []) (indent : Nat) :
    ∃ text, Writer.blockItems indent items = .ok text ∧ AreItems indent text (itemsTokens items) := by
  match items, h with
  | .map entries :: rest, ⟨_, ⟨hentriesNe, _, hentries⟩, hrest⟩ =>
    obtain ⟨item, hitem, hlines⟩ := exists_entries entries hentries hentriesNe (indent + 2)
    have hblock : Writer.block (indent + 2) (.map entries) = .ok item := by
      rw [Writer.block, if_neg (by simpa using hentriesNe), hitem]
    match rest, hrest with
    | [], _ =>
      have hlast := areItems_last hlines
      refine ⟨"- " ++ item, ?_, by simpa [itemsTokens, valueTokens] using hlast⟩
      rw [Writer.blockItems, hblock]
      simp only [Except.ok_bind, Writer.blockItems]
      simp
      rfl
    | w :: rest, hrest =>
      obtain ⟨others, hothers, hmore⟩ := exists_items (w :: rest) hrest (List.cons_ne_nil w rest) indent
      refine ⟨_, ?_, hmore.cons hlines⟩
      rw [Writer.blockItems, hblock, hothers]
      simp
      rfl

theorem exists_entries (entries : List (Data × Data)) (h : StorableEntries entries) (hne : entries ≠ [])
    (indent : Nat) :
    ∃ text, Writer.blockEntries indent entries = .ok text ∧
      AreEntries indent text (entriesTokens entries) := by
  match entries, h with
  | (.text k, v) :: rest, ⟨⟨_, hname, hk⟩, hv, hrest⟩ =>
    obtain rfl := Data.text.inj hname
    obtain ⟨value, hvalue, hbehind⟩ := exists_behindKey v hv indent
    have hkey : Writer.key (.text k) = .ok k := by
      rw [Writer.key, Scalar.writtenKey, if_pos hk.canBePlain]
    match rest, hrest with
    | [], _ =>
      have hlast := areEntries_last hk hbehind
      refine ⟨k ++ CodePoint.ofChar ':' :: value, ?_, by simpa [entriesTokens] using hlast⟩
      rw [Writer.blockEntries, hkey, hvalue]
      simp only [Except.ok_bind, Writer.blockEntries]
      simp
      rfl
    | e :: rest, hrest =>
      obtain ⟨others, hothers, hmore⟩ := exists_entries (e :: rest) hrest (List.cons_ne_nil e rest) indent
      refine ⟨_, ?_, hmore.cons hk hbehind⟩
      rw [Writer.blockEntries, hkey, hvalue, hothers]
      simp
      rfl

end

/-- **The document of a map** is written with code points that documents may hold, and scanned as the
tokens of the map. -/
theorem exists_document {entries : List (Data × Data)} (h : Storable (.map entries)) :
    ∃ text, write (.map entries) = .ok text ∧ Allowed text ∧
      Token.ofText text = (valueTokens (.map entries) ++ [.streamEnd], none) := by
  obtain ⟨hne, -, hentries⟩ := h
  obtain ⟨lines, hlines, hall⟩ := exists_entries entries hentries hne 0
  have hwrite : write (.map entries) = .ok (lines ++ [CodePoint.ofChar '\n']) := by
    obtain ⟨e, rest, rfl⟩ := List.exists_cons_of_ne_nil hne
    rw [write]
    simp only [Writer.inline?, Writer.block, hlines]
    rfl
  have hstart : Stands (.start (lines ++ [CodePoint.ofChar '\n'])) 0 [-1]
      (lines ++ CodePoint.ofChar '\n' :: (Scalar.spaces 0 ++ [])) 0 := by
    have hbegins := hall.begins [CodePoint.ofChar '\n']
    have harrived := Layout.arrived_spaces (n := 0) (s := .start (lines ++ [CodePoint.ofChar '\n'])) rfl
      hbegins.startsToken (by
        rintro ⟨-, hmark⟩
        obtain ⟨d, rest, heq⟩ := List.exists_cons_of_ne_nil
          (List.append_ne_nil_of_right_ne_nil lines (List.cons_ne_nil (CodePoint.ofChar '\n') []))
        rw [heq] at hbegins hmark
        exact hbegins.not_mark d rfl hmark)
    exact ⟨rfl, rfl, rfl, rfl, ⟨[], rfl, nofun, rfl⟩, ⟨_, rfl, rfl, harrived⟩⟩
  have hnone : Begins [] := ⟨nofun, nofun, nofun, nofun, nofun⟩
  obtain ⟨s, cost, n, hs, hcost, hgives⟩ := hall.scans _ _ _ _ _ [] 0 (.deeper [] (by decide)) hstart hnone
    (Nat.le_refl 0)
  refine ⟨_, hwrite, allowed_append hall.allowed (allowed_cons (by decide) allowed_nil), ?_⟩
  -- The fuel is for eight tokens at every code point.
  obtain ⟨spare, hspare⟩ : ∃ spare,
      8 * (lines ++ [CodePoint.ofChar '\n']).length + 32 = spare + 4 + n + cost := by
    refine ⟨8 * (lines ++ [CodePoint.ofChar '\n']).length + 28 - n - cost, ?_⟩
    rw [List.length_append]
    omega
  have hscan := hgives _ _ (hs.finish spare)
  rw [Token.ofText, hspare]
  simpa [Gives, valueTokens] using hscan

end RandomText.Yaml
