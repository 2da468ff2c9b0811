import Mathlib.Data.List.Forall2
import Mathlib.Data.List.Nodup
import RandomText.Proofs.Except
import RandomText.Proofs.Json.Strings
import RandomText.Proofs.Numeral

/-!
# JSON texts read back

Data without floating-point numbers and lone surrogates, whose maps have distinct keys, are written
as pure ASCII and read back from it, whatever the indent (`read_write`). A written value stands in the
text with an end that no number goes on with behind it; from there on, reading takes exactly the value
(`ReadsAs`). Items and entries are put together from the texts of their parts.
-/

namespace RandomText.Json

/-! ### What can be stored -/

mutual

/-- Data that JSON text gives back. -/
def Storable : Data → Prop
  | .null => True
  | .bool _ => True
  | .integer n => n.natAbs < 10 ^ Numeral.maxDigits
  | .text t => HasNoSurrogate t
  | .list items => StorableAll items
  | .map entries => (entries.map Prod.fst).Nodup ∧ StorableEntries entries
  | _ => False

def StorableAll : List Data → Prop
  | [] => True
  | d :: rest => Storable d ∧ StorableAll rest

def StorableEntries : List (Data × Data) → Prop
  | [] => True
  | (key, d) :: rest =>
    (∃ name, key = .text name ∧ HasNoSurrogate name) ∧ Storable d ∧ StorableEntries rest

end

/-! ### Numbers -/

/-- A text that a number before it does not go on with. -/
def Ends (rest : Text) : Prop :=
  ∀ c ∈ rest.head?, c.isDigit = false ∧ c ≠ CodePoint.ofChar '.' ∧ c ≠ CodePoint.ofChar 'e' ∧
    c ≠ CodePoint.ofChar 'E'

theorem takeWhile_digits {run rest : Text} (hrun : ∀ c ∈ run, c.isDigit = true) (h : Ends rest) :
    (run ++ rest).takeWhile CodePoint.isDigit = run := by
  rw [List.takeWhile_append_of_pos hrun]
  cases rest with
  | nil => exact List.append_nil run
  | cons c rest =>
    obtain ⟨hdigit, -⟩ := h c rfl
    rw [List.takeWhile_cons_of_neg (by simp [hdigit]), List.append_nil]

theorem fraction_eq_none {rest : Text} (h : Ends rest) : fraction rest = none := by
  cases rest with
  | nil => rfl
  | cons c rest =>
    obtain ⟨-, hpoint, -⟩ := h c rfl
    simp [fraction, hpoint]

theorem exponent_eq_none {rest : Text} (h : Ends rest) : exponent rest = none := by
  cases rest with
  | nil => rfl
  | cons c rest =>
    obtain ⟨-, -, hlower, hupper⟩ := h c rfl
    simp [exponent, hlower, hupper]

theorem unsigned_digits {n : Nat} (hn : n < 10 ^ Numeral.maxDigits) {rest : Text} (h : Ends rest)
    (negative : Bool) (start : Text) : unsigned negative start (Numeral.digits n ++ rest) =
      .ok (.integer (if negative then -(n : Int) else n), rest) := by
  have hrun : ∀ c ∈ Numeral.digits n, c.isDigit = true := fun c hc => Numeral.isDigit_of_mem_digits hc
  have hlength := Numeral.length_digits_le_iff.mpr hn
  have hne : (Numeral.digits n).isEmpty = false := by simp [Numeral.digits_ne_nil]
  have htake := takeWhile_digits hrun h
  obtain ⟨c, others, hcons⟩ := List.exists_cons_of_ne_nil (Numeral.digits_ne_nil n)
  have htext : Numeral.digits n ++ rest = c :: (others ++ rest) := by rw [hcons, List.cons_append]
  have hdigits : (if c = CodePoint.ofChar '0' then [c]
      else (c :: (others ++ rest)).takeWhile CodePoint.isDigit) = Numeral.digits n := by
    -- Only the numeral of zero begins with `0`, where reading stops at once.
    split
    · next hzero =>
      rw [hzero] at hcons ⊢
      rw [hcons, Numeral.eq_nil_of_digits_eq_zero_cons hcons]
    · rw [← htext, htake]
  rw [htext, unsigned]
  simp only [hdigits]
  rw [← htext]
  simp only [hne, List.drop_left, fraction_eq_none h, exponent_eq_none h, Option.map_none,
    Option.getD_none, Option.isNone_none, Bool.and_self, if_true, Numeral.value_digits]
  rw [if_neg (by simp), if_neg (by omega)]

theorem named?_eq_none {t : Text} {c : CodePoint} (hc : c ∈ t.take 2) (hdigit : c.isDigit = true) :
    named? t = none := by
  have hnames : ∀ n ∈ names, 2 ≤ n.1.length ∧ ∀ c ∈ n.1.take 2, c.isDigit = false := by decide
  have hnone : names.find? (fun n => n.1.isPrefixOf t) = none := by
    refine List.find?_eq_none.mpr fun n hn hstart => ?_
    obtain ⟨hlength, hdigits⟩ := hnames n hn
    obtain ⟨rest, rfl⟩ := List.isPrefixOf_iff_prefix.mp hstart
    rw [List.take_append_of_le_length hlength] at hc
    have hfalse := hdigits c hc
    rw [hdigit] at hfalse
    cases hfalse
  rw [named?, hnone]
  rfl

theorem scalar_signed {n : Int} (hn : n.natAbs < 10 ^ Numeral.maxDigits) {rest : Text} (h : Ends rest) :
    scalar (Numeral.signed n ++ rest) = .ok (.integer n, rest) := by
  obtain ⟨c, others, hcons⟩ := List.exists_cons_of_ne_nil (Numeral.digits_ne_nil n.natAbs)
  have hc : c.isDigit = true :=
    Numeral.isDigit_of_mem_digits (n := n.natAbs) (by rw [hcons]; exact List.mem_cons_self)
  have hunsigned := unsigned_digits hn h
  have htext : Numeral.digits n.natAbs ++ rest = c :: (others ++ rest) := by rw [hcons, List.cons_append]
  by_cases hneg : n < 0
  · have hname : named? (CodePoint.ofChar '-' :: c :: (others ++ rest)) = none :=
      named?_eq_none (by simp : c ∈ _) hc
    have hvalue : -(n.natAbs : Int) = n := by omega
    rw [Numeral.signed, if_pos hneg, List.cons_append, htext, scalar, hname]
    simp only [if_true]
    rw [← htext, hunsigned true, if_pos rfl, hvalue]
  · have hname : named? (c :: (others ++ rest)) = none := named?_eq_none (by simp : c ∈ _) hc
    have hminus : c ≠ CodePoint.ofChar '-' := by
      rintro rfl
      cases hc
    have hvalue : (n.natAbs : Int) = n := by omega
    rw [Numeral.signed, if_neg hneg, htext, scalar, hname]
    simp only [if_neg hminus]
    rw [← htext, hunsigned false, if_neg (by simp), hvalue]

/-! ### Gaps -/

/-- Blanks, which reading skips. -/
def IsGap (gap : Text) : Prop := ∀ c ∈ gap, isBlank c = true

/-- The start of a value: no blank and no closing bracket. -/
def Opens (t : Text) : Prop :=
  ∃ c rest, t = c :: rest ∧ isBlank c = false ∧ c ≠ CodePoint.ofChar ']' ∧ c ≠ CodePoint.ofChar '\x7d'

theorem Opens.length_pos {t : Text} (h : Opens t) : 0 < t.length := by
  obtain ⟨c, rest, rfl, -⟩ := h
  exact Nat.zero_lt_succ _

theorem skip_gap {gap : Text} (hgap : IsGap gap) {c : CodePoint} (hc : isBlank c = false) (rest : Text) :
    skip (gap ++ c :: rest) = c :: rest := by
  rw [skip, List.dropWhile_append_of_pos hgap, List.dropWhile_cons_of_neg (by simp [hc])]

theorem skip_cons {c : CodePoint} (hc : isBlank c = false) (rest : Text) :
    skip (c :: rest) = c :: rest :=
  List.dropWhile_cons_of_neg (by simp [hc])

theorem ends_of_isBlank {c : CodePoint} (h : isBlank c = true) (rest : Text) : Ends (c :: rest) := by
  intro d hd
  obtain rfl := Option.some.inj hd
  simp only [isBlank, Bool.or_eq_true, decide_eq_true_eq] at h
  rcases h with ((rfl | rfl) | rfl) | rfl <;> decide

theorem ends_gap {gap : Text} (hgap : IsGap gap) {rest : Text} (h : Ends rest) : Ends (gap ++ rest) := by
  cases gap with
  | nil => exact h
  | cons c others => exact ends_of_isBlank (hgap c List.mem_cons_self) _

/-- What stands behind the comma between two entries. -/
def spacing (indent : Option Int) (depth : Nat) : Text :=
  match indent with
  | none => [CodePoint.ofChar ' ']
  | some _ => lineStart indent depth

theorem separator_eq (indent : Option Int) (depth : Nat) :
    separator indent depth = CodePoint.ofChar ',' :: spacing indent depth := by
  cases indent <;> rfl

theorem isGap_lineStart (indent : Option Int) (depth : Nat) : IsGap (lineStart indent depth) := by
  intro c hc
  cases indent with
  | none => cases hc
  | some width =>
    rcases List.mem_cons.mp hc with rfl | hc
    · decide
    · rw [(List.mem_replicate.mp hc).2]
      decide

theorem isGap_spacing (indent : Option Int) (depth : Nat) : IsGap (spacing indent depth) := by
  cases indent with
  | none =>
    intro c hc
    rw [List.mem_singleton.mp hc]
    decide
  | some width => exact isGap_lineStart (some width) depth

theorem IsGap.isAscii {gap : Text} (hgap : IsGap gap) : IsAscii gap := by
  intro c hc
  have hblank := hgap c hc
  simp only [isBlank, Bool.or_eq_true, decide_eq_true_eq] at hblank
  rcases hblank with ((rfl | rfl) | rfl) | rfl <;> decide

/-! ### Items and entries -/

/-- The text is pure ASCII, and reading takes the value from its start, if there is a step of fuel
for each code point and no number goes on behind it. -/
structure ReadsAs (d : Data) (t : Text) : Prop where
  opens : Opens t
  ascii : IsAscii t
  reads : ∀ (fuel : Nat) (rest : Text), t.length ≤ fuel → Ends rest →
    value fuel (t ++ rest) = .ok (d, rest)

/-- The text of an entry: the name as a string, and a text of the value. -/
def EntryReadsAs (entry : Data × Data) (t : Text) : Prop :=
  ∃ name v, entry.1 = .text name ∧ HasNoSurrogate name ∧ t = string name ++ ": " ++ v ∧ ReadsAs entry.2 v

theorem joined_cons (separator t u : Text) (ts : List Text) :
    Text.joined separator (t :: u :: ts) = t ++ separator ++ Text.joined separator (u :: ts) := rfl

theorem Opens.append {t : Text} (h : Opens t) (rest : Text) : Opens (t ++ rest) := by
  obtain ⟨c, others, rfl, hc⟩ := h
  exact ⟨c, others ++ rest, rfl, hc⟩

theorem Opens.joined {t : Text} (h : Opens t) (separator : Text) (ts : List Text) :
    Opens (Text.joined separator (t :: ts)) := by
  cases ts with
  | nil => exact h
  | cons u ts =>
    rw [joined_cons, List.append_assoc]
    exact h.append _

theorem Opens.skip_eq {t gap : Text} (h : Opens t) (hgap : IsGap gap) (rest : Text) :
    skip (gap ++ (t ++ rest)) = t ++ rest := by
  obtain ⟨c, others, rfl, hc, -⟩ := h
  exact skip_gap hgap hc _

theorem ends_cons {c : CodePoint} (hdigit : c.isDigit = false) (hpoint : c ≠ CodePoint.ofChar '.')
    (hlower : c ≠ CodePoint.ofChar 'e') (hupper : c ≠ CodePoint.ofChar 'E') (rest : Text) :
    Ends (c :: rest) := by
  intro d hd
  obtain rfl := Option.some.inj hd
  exact ⟨hdigit, hpoint, hlower, hupper⟩

theorem ends_comma (rest : Text) : Ends (CodePoint.ofChar ',' :: rest) :=
  ends_cons (by decide) (by decide) (by decide) (by decide) rest

/-- A loop that reads what stands between brackets, with commas between: each part `x` from a text `t`
with `R x t`, then the next part or the bracket. -/
structure ReadsEach {α : Type} (R : α → Text → Prop) (close : CodePoint) (finish : List α → Data)
    (loop : Nat → List α → Text → Except Failure (Data × Text)) : Prop where
  opens : ∀ {x t}, R x t → Opens t
  closed : isBlank close = false ∧ ∀ rest, Ends (close :: rest)
  last : ∀ {x t fuel latest rest after}, R x t → t.length ≤ fuel → Ends rest →
    skip rest = close :: after →
      loop (fuel + 1) latest (t ++ rest) = .ok (finish (x :: latest).reverse, after)
  more : ∀ {x t fuel latest rest after}, R x t → t.length ≤ fuel → Ends rest →
    skip rest = CodePoint.ofChar ',' :: after →
      loop (fuel + 1) latest (t ++ rest) = loop fuel (x :: latest) (skip after)

theorem ReadsEach.joined {α : Type} {R : α → Text → Prop} {close : CodePoint} {finish : List α → Data}
    {loop : Nat → List α → Text → Except Failure (Data × Text)} (hloop : ReadsEach R close finish loop)
    {gap final : Text} (hgap : IsGap gap) (hfinal : IsGap final) {xs : List α} {ts : List Text}
    (h : List.Forall₂ R xs ts) (hne : ts ≠ []) {fuel : Nat}
    (hfuel : (Text.joined (CodePoint.ofChar ',' :: gap) ts).length < fuel) (latest : List α)
    (rest : Text) :
    loop fuel latest (Text.joined (CodePoint.ofChar ',' :: gap) ts ++ (final ++ close :: rest)) =
      .ok (finish (latest.reverse ++ xs), rest) := by
  obtain ⟨hblank, hends⟩ := hloop.closed
  -- The last part is ended by the closing bracket, any other by the comma behind it.
  induction h generalizing fuel latest with
  | nil => exact absurd rfl hne
  | @cons x t xs ts hfirst hrest ih =>
    obtain ⟨fuel, rfl⟩ := Nat.exists_eq_succ_of_ne_zero (Nat.ne_zero_of_lt hfuel)
    cases hrest with
    | nil =>
      rw [Text.joined, hloop.last hfirst (Nat.le_of_lt_succ hfuel) (ends_gap hfinal (hends rest))
        (skip_gap hfinal hblank rest), List.reverse_cons]
    | @cons y u ys us hsecond hrest =>
      rw [joined_cons, List.length_append, List.length_append, List.length_cons] at hfuel
      have hlater : loop fuel (x :: latest) _ = _ := ih (List.cons_ne_nil u us) (by omega) (x :: latest)
      have hskip := ((hloop.opens hsecond).joined (CodePoint.ofChar ',' :: gap) us).skip_eq hgap
        (final ++ close :: rest)
      set others := Text.joined (CodePoint.ofChar ',' :: gap) (u :: us) ++ (final ++ close :: rest)
        with hothers
      have htext : Text.joined (CodePoint.ofChar ',' :: gap) (t :: u :: us) ++ (final ++ close :: rest) =
          t ++ CodePoint.ofChar ',' :: (gap ++ others) := by
        rw [joined_cons, hothers]
        simp only [List.append_assoc, List.cons_append]
      rw [htext, hloop.more hfirst (by omega) (ends_comma _) (skip_cons rfl _), hskip, hlater]
      simp only [List.reverse_cons, List.append_assoc, List.singleton_append]

theorem readsEach_items : ReadsEach ReadsAs (CodePoint.ofChar ']') Data.list items where
  opens h := h.opens
  closed := ⟨rfl, ends_cons (by decide) (by decide) (by decide) (by decide)⟩
  last h hfuel hends hskip := by
    rw [items, h.reads _ _ hfuel hends]
    simp only [Except.ok_bind, hskip, if_true]
    rfl
  more h hfuel hends hskip := by
    rw [items, h.reads _ _ hfuel hends]
    simp only [Except.ok_bind, hskip]
    rfl

theorem entries_entry {entry : Data × Data} {t : Text} (h : EntryReadsAs entry t) {fuel : Nat}
    (hfuel : t.length ≤ fuel) {rest : Text} (hrest : Ends rest) (latest : List (Data × Data)) :
    entries (fuel + 1) latest (t ++ rest) =
      match skip rest with
      | c :: after =>
        if c = CodePoint.ofChar '\x7d' then
          .ok (.map (Data.mapOf (entry :: latest).reverse), after)
        else if c = CodePoint.ofChar ',' then entries fuel (entry :: latest) (skip after)
        else .error (.malformed .expectedComma (c :: after))
      | [] => .error (.malformed .expectedComma []) := by
  obtain ⟨key, d⟩ := entry
  obtain ⟨name, v, rfl, hname, rfl, hv⟩ := h
  have hcolon : isBlank (CodePoint.ofChar ':') = false := rfl
  have hstring := stringAfter_string hname (CodePoint.ofChar ':' :: CodePoint.ofChar ' ' :: (v ++ rest))
  have hskip := hv.opens.skip_eq (isGap_spacing none 0) rest
  rw [List.length_append] at hfuel
  have hread := hv.reads fuel rest (by omega) hrest
  have htext : string name ++ ": " ++ v ++ rest = CodePoint.ofChar '"' :: (name.flatMap escapeUnit ++
      CodePoint.ofChar '"' :: CodePoint.ofChar ':' :: CodePoint.ofChar ' ' :: (v ++ rest)) := by
    rw [string_eq]
    simp only [List.append_assoc, List.cons_append]
    rfl
  have hspace : CodePoint.ofChar ' ' :: (v ++ rest) = spacing none 0 ++ (v ++ rest) := rfl
  rw [htext, entries, hstring]
  simp only [Except.ok_bind, skip_cons hcolon, hspace, hskip, hread]
  rfl

theorem EntryReadsAs.opens {entry : Data × Data} {t : Text} (h : EntryReadsAs entry t) : Opens t := by
  obtain ⟨name, v, -, -, rfl, -⟩ := h
  exact ⟨_, _, rfl, rfl, by decide, by decide⟩

theorem EntryReadsAs.ascii {entry : Data × Data} {t : Text} (h : EntryReadsAs entry t) : IsAscii t := by
  obtain ⟨name, v, -, -, rfl, hv⟩ := h
  have hcolon : IsAscii ": " := by decide
  exact ((isAscii_string name).append hcolon).append hv.ascii

theorem readsEach_entries : ReadsEach EntryReadsAs (CodePoint.ofChar '\x7d')
    (fun es => .map (Data.mapOf es)) entries where
  opens h := h.opens
  closed := ⟨rfl, ends_cons (by decide) (by decide) (by decide) (by decide)⟩
  last h hfuel hends hskip := by
    rw [entries_entry h hfuel hends, hskip]
    rfl
  more h hfuel hends hskip := by
    rw [entries_entry h hfuel hends, hskip]
    rfl

/-! ### Brackets -/

theorem isAscii_joined {separator : Text} (hseparator : IsAscii separator) {ts : List Text}
    (h : ∀ t ∈ ts, IsAscii t) : IsAscii (Text.joined separator ts) := by
  induction ts with
  | nil => exact nofun
  | cons t ts ih =>
    obtain ⟨ht, hts⟩ := List.forall_mem_cons.mp h
    cases ts with
    | nil => exact ht
    | cons u ts => exact (ht.append hseparator).append (ih hts)

theorem bracketed_cons (indent : Option Int) (depth : Nat) (first last : CodePoint) (t : Text)
    (ts : List Text) : bracketed indent depth first last (t :: ts) = first ::
      (lineStart indent (depth + 1) ++
        (Text.joined (CodePoint.ofChar ',' :: spacing indent (depth + 1)) (t :: ts) ++
          (lineStart indent depth ++ [last]))) := by
  rw [bracketed, separator_eq]
  simp only [List.isEmpty_cons, List.append_assoc, List.singleton_append]
  rfl

theorem isAscii_bracketed (indent : Option Int) (depth : Nat) {first last : CodePoint}
    (hfirst : first.val < 128) (hlast : last.val < 128) {ts : List Text} (h : ∀ t ∈ ts, IsAscii t) :
    IsAscii (bracketed indent depth first last ts) := by
  cases ts with
  | nil => exact .cons hfirst (.cons hlast nofun)
  | cons t ts =>
    have hspacing := (isGap_spacing indent (depth + 1)).isAscii
    have hjoined := isAscii_joined (.cons (by decide : (CodePoint.ofChar ',').val < 128) hspacing) h
    have hstart := (isGap_lineStart indent (depth + 1)).isAscii
    have hend := (isGap_lineStart indent depth).isAscii
    rw [bracketed_cons]
    exact .cons hfirst (hstart.append (hjoined.append (hend.append (.cons hlast nofun))))

theorem forall_mem_of_forall₂ {α β : Type} {R : α → β → Prop} {P : β → Prop} {xs : List α} {ys : List β}
    (h : List.Forall₂ R xs ys) (hR : ∀ x y, R x y → P y) : ∀ y ∈ ys, P y := by
  induction h with
  | nil => exact nofun
  | cons hfirst _ ih => exact List.forall_mem_cons.mpr ⟨hR _ _ hfirst, ih⟩

theorem ReadsEach.readsAs {α : Type} {R : α → Text → Prop} {first close : CodePoint}
    {finish : List α → Data} {loop : Nat → List α → Text → Except Failure (Data × Text)}
    (hloop : ReadsEach R close finish loop) (hascii : ∀ x t, R x t → IsAscii t)
    (hfirst : Opens [first] ∧ first.val < 128) (hclose : close.val < 128)
    (hempty : ∀ fuel rest, value (fuel + 1) (first :: close :: rest) = .ok (finish [], rest))
    (henter : ∀ fuel inner, Opens (skip inner) →
      value (fuel + 1) (first :: inner) = loop fuel [] (skip inner))
    {xs : List α} {ts : List Text} (h : List.Forall₂ R xs ts) (indent : Option Int) (depth : Nat) :
    ReadsAs (finish xs) (bracketed indent depth first close ts) := by
  have hts := isAscii_bracketed indent depth hfirst.2 hclose (forall_mem_of_forall₂ h hascii)
  have hopens : Opens (bracketed indent depth first close ts) := by
    cases ts with
    | nil => exact hfirst.1.append [close]
    | cons t ts =>
      rw [bracketed_cons]
      exact hfirst.1.append _
  refine ⟨hopens, hts, fun fuel rest hfuel _ => ?_⟩
  have hpos := hopens.length_pos
  obtain ⟨fuel, rfl⟩ := Nat.exists_eq_succ_of_ne_zero (by omega : fuel ≠ 0)
  cases h with
  | nil => exact hempty fuel rest
  | @cons x t xs ts hone hmore =>
    have hinner := (hloop.opens hone).joined (CodePoint.ofChar ',' :: spacing indent (depth + 1)) ts
    have hskip := hinner.skip_eq (isGap_lineStart indent (depth + 1))
      (lineStart indent depth ++ close :: rest)
    rw [bracketed_cons] at hfuel ⊢
    simp only [List.length_cons, List.length_append] at hfuel
    have hread : loop fuel [] _ = _ := hloop.joined (isGap_spacing indent (depth + 1))
      (isGap_lineStart indent depth) (.cons hone hmore) (List.cons_ne_nil t ts) (by omega) [] rest
    have htext : ∀ a b c : Text, first :: (a ++ (b ++ (c ++ [close]))) ++ rest =
        first :: (a ++ (b ++ (c ++ close :: rest))) := by
      intro a b c
      simp only [List.append_assoc, List.cons_append, List.nil_append]
    rw [htext, henter fuel _ (by rw [hskip]; exact hinner.append _), hskip, hread]
    rfl

/-! ### Values -/

theorem readsAs_list {ds : List Data} {ts : List Text} (h : List.Forall₂ ReadsAs ds ts)
    (indent : Option Int) (depth : Nat) :
    ReadsAs (.list ds) (bracketed indent depth (CodePoint.ofChar '[') (CodePoint.ofChar ']') ts) := by
  have hopens : Opens [CodePoint.ofChar '['] := ⟨_, _, rfl, rfl, by decide, by decide⟩
  refine readsEach_items.readsAs (fun d t h => h.ascii) ⟨hopens, by decide⟩ (by decide)
    (fun fuel rest => rfl) ?_ h indent depth
  rintro fuel inner ⟨c, after, hskip, -, hbracket, -⟩
  rw [value, if_neg (by decide), if_pos rfl, hskip]
  simp only [if_neg hbracket]

theorem readsAs_map {es : List (Data × Data)} {ts : List Text} (h : List.Forall₂ EntryReadsAs es ts)
    (indent : Option Int) (depth : Nat) : ReadsAs (.map (Data.mapOf es))
      (bracketed indent depth (CodePoint.ofChar '\x7b') (CodePoint.ofChar '\x7d') ts) := by
  have hopens : Opens [CodePoint.ofChar '\x7b'] := ⟨_, _, rfl, rfl, by decide, by decide⟩
  refine readsEach_entries.readsAs (fun e t h => h.ascii) ⟨hopens, by decide⟩ (by decide)
    (fun fuel rest => rfl) ?_ h indent depth
  rintro fuel inner ⟨c, after, hskip, -, -, hbrace⟩
  rw [value, if_neg (by decide), if_neg (by decide), if_pos rfl, hskip]
  simp only [if_neg hbrace]

theorem readsAs_text {t : Text} (ht : HasNoSurrogate t) : ReadsAs (.text t) (string t) := by
  refine ⟨⟨_, _, rfl, rfl, by decide, by decide⟩, isAscii_string t, fun fuel rest hfuel _ => ?_⟩
  rw [string_eq, List.length_cons] at hfuel
  obtain ⟨fuel, rfl⟩ := Nat.exists_eq_succ_of_ne_zero (by omega : fuel ≠ 0)
  rw [string_eq, List.cons_append, List.append_assoc, value, if_pos rfl]
  show (stringAfter (CodePoint.ofChar '"') (t.flatMap escapeUnit ++ CodePoint.ofChar '"' :: rest)).map _ = _
  rw [stringAfter_string ht]
  rfl

theorem value_of_scalar {c : CodePoint} (hquote : c ≠ CodePoint.ofChar '"')
    (hbracket : c ≠ CodePoint.ofChar '[') (hbrace : c ≠ CodePoint.ofChar '\x7b') (fuel : Nat)
    (rest : Text) : value (fuel + 1) (c :: rest) = scalar (c :: rest) := by
  rw [value, if_neg hquote, if_neg hbracket, if_neg hbrace]

theorem signed_head (n : Int) :
    ∃ c others, Numeral.signed n = c :: others ∧ (c = CodePoint.ofChar '-' ∨ c.isDigit = true) := by
  obtain ⟨c, others, hcons⟩ := List.exists_cons_of_ne_nil (Numeral.digits_ne_nil n.natAbs)
  unfold Numeral.signed
  split
  · exact ⟨_, _, rfl, .inl rfl⟩
  · refine ⟨c, others, hcons, .inr (Numeral.isDigit_of_mem_digits (n := n.natAbs) ?_)⟩
    rw [hcons]
    exact List.mem_cons_self

theorem isAscii_signed (n : Int) : IsAscii (Numeral.signed n) := by
  have hdigits : IsAscii (Numeral.digits n.natAbs) := by
    intro c hc
    have hdigit := Numeral.isDigit_of_mem_digits hc
    simp only [CodePoint.isDigit, Bool.and_eq_true, decide_eq_true_eq] at hdigit
    omega
  unfold Numeral.signed
  split
  · exact .cons (by decide) hdigits
  · exact hdigits

theorem readsAs_integer {n : Int} (hn : n.natAbs < 10 ^ Numeral.maxDigits) :
    ReadsAs (.integer n) (Numeral.signed n) := by
  obtain ⟨c, others, hcons, hhead⟩ := signed_head n
  have hmark : ∀ d : CodePoint, d ≠ CodePoint.ofChar '-' → d.isDigit = false → c ≠ d := by
    rintro d hminus hdigit rfl
    rcases hhead with hhead | hhead
    · exact hminus hhead
    · rw [hdigit] at hhead
      cases hhead
  have hblank : isBlank c = false := by
    rcases hhead with rfl | hdigit
    · rfl
    · simp only [isBlank, Bool.or_eq_false_iff, decide_eq_false_iff_not]
      exact ⟨⟨⟨hmark _ (by decide) rfl, hmark _ (by decide) rfl⟩, hmark _ (by decide) rfl⟩,
        hmark _ (by decide) rfl⟩
  refine ⟨⟨c, others, hcons, hblank, hmark _ (by decide) rfl, hmark _ (by decide) rfl⟩, isAscii_signed n,
    fun fuel rest hfuel hrest => ?_⟩
  have hscalar := scalar_signed hn hrest
  rw [hcons] at hfuel hscalar ⊢
  obtain ⟨fuel, rfl⟩ := Nat.exists_eq_succ_of_ne_zero (Nat.ne_zero_of_lt hfuel)
  rw [List.cons_append, value_of_scalar (hmark _ (by decide) rfl) (hmark _ (by decide) rfl)
    (hmark _ (by decide) rfl)]
  exact hscalar

theorem readsAs_name {name : Text} {d : Data}
    (h : (name, d) ∈ [(Text.ofString "null", Data.null), (Text.ofString "true", .bool true),
      (Text.ofString "false", .bool false)]) : ReadsAs d name := by
  simp only [List.mem_cons, Prod.mk.injEq, List.not_mem_nil, or_false] at h
  rcases h with ⟨rfl, rfl⟩ | ⟨rfl, rfl⟩ | ⟨rfl, rfl⟩
  all_goals
    refine ⟨⟨_, _, rfl, rfl, by decide, by decide⟩, by decide, fun fuel rest hfuel _ => ?_⟩
    obtain ⟨fuel, rfl⟩ := Nat.exists_eq_succ_of_ne_zero (Nat.ne_zero_of_lt hfuel)
    rfl

/-! ### Whole texts -/

theorem equal_text (s t : Text) : (Data.text s).equal (.text t) = decide (s = t) := rfl

theorem insert_of_absent {α : Type} {key : Data} {value : α} {m : List (Data × α)}
    (h : ∀ e ∈ m, e.1.equal key = false) : Data.insert key value m = m ++ [(key, value)] := by
  induction m with
  | nil => rfl
  | cons e m ih =>
    obtain ⟨he, hm⟩ := List.forall_mem_cons.mp h
    rw [Data.insert, he, ih hm]
    rfl

theorem mapOf_of_nodup {es : List (Data × Data)} (hnames : ∀ e ∈ es, ∃ name, e.1 = .text name)
    (hnodup : (es.map Prod.fst).Nodup) : Data.mapOf es = es := by
  -- Insertion only appends as long as no name so far is among those to come.
  have hfold : ∀ m : List (Data × Data), (∀ e ∈ m, ∀ e' ∈ es, e.1.equal e'.1 = false) →
      es.foldl (fun m e => Data.insert e.1 e.2 m) m = m ++ es := by
    induction es with
    | nil => exact fun m _ => (List.append_nil m).symm
    | cons first rest ih =>
      intro m hm
      obtain ⟨⟨name, hname⟩, hnames⟩ := List.forall_mem_cons.mp hnames
      obtain ⟨hnew, hnodup⟩ := List.nodup_cons.mp hnodup
      have hfirst : ∀ e ∈ m, e.1.equal first.1 = false := fun e he => hm e he first List.mem_cons_self
      rw [List.foldl_cons, insert_of_absent hfirst, ih hnames hnodup, List.append_assoc]
      · rfl
      · intro e he e' he'
        rcases List.mem_append.mp he with he | he
        · exact hm e he e' (List.mem_cons_of_mem first he')
        · obtain rfl := List.mem_singleton.mp he
          obtain ⟨name', hname'⟩ := hnames e' he'
          have hne : first.1 ≠ e'.1 := fun heq => hnew (heq ▸ List.mem_map_of_mem he')
          rw [hname, hname'] at hne
          rw [hname, hname', equal_text]
          exact decide_eq_false fun heq => hne (congrArg Data.text heq)
  exact hfold [] nofun

theorem names_of_storableEntries {es : List (Data × Data)} (h : StorableEntries es) :
    ∀ e ∈ es, ∃ name, e.1 = .text name := by
  induction es with
  | nil => exact nofun
  | cons first rest ih =>
    obtain ⟨⟨name, hname, -⟩, -, hrest⟩ := h
    exact List.forall_mem_cons.mpr ⟨⟨name, hname⟩, ih hrest⟩

mutual

theorem writeAt_of_storable (indent : Option Int) (depth : Nat) (d : Data) (h : Storable d) :
    ∃ t, writeAt indent depth d = .ok t ∧ ReadsAs d t := by
  match d, h with
  | .null, _ => exact ⟨_, rfl, readsAs_name (by simp)⟩
  | .bool true, _ => exact ⟨_, rfl, readsAs_name (by simp)⟩
  | .bool false, _ => exact ⟨_, rfl, readsAs_name (by simp)⟩
  | .integer n, hn =>
    refine ⟨_, ?_, readsAs_integer hn⟩
    rw [writeAt, Numeral.write_eq_ok_iff.mpr ⟨hn, rfl⟩]
    rfl
  | .text t, ht => exact ⟨_, rfl, readsAs_text ht⟩
  | .list items, hitems =>
    obtain ⟨ts, hts, hreads⟩ := writeItems_of_storable indent (depth + 1) items hitems
    refine ⟨_, ?_, readsAs_list hreads indent depth⟩
    rw [writeAt, hts]
    rfl
  | .map es, ⟨hnodup, hes⟩ =>
    obtain ⟨ts, hts, hreads⟩ := writeEntries_of_storable indent (depth + 1) es hes
    have hmap := readsAs_map hreads indent depth
    rw [mapOf_of_nodup (names_of_storableEntries hes) hnodup] at hmap
    refine ⟨_, ?_, hmap⟩
    rw [writeAt, hts]
    rfl

theorem writeItems_of_storable (indent : Option Int) (depth : Nat) (ds : List Data) (h : StorableAll ds) :
    ∃ ts, writeItems indent depth ds = .ok ts ∧ List.Forall₂ ReadsAs ds ts := by
  match ds, h with
  | [], _ => exact ⟨[], rfl, .nil⟩
  | d :: rest, ⟨hd, hrest⟩ =>
    obtain ⟨t, ht, hread⟩ := writeAt_of_storable indent depth d hd
    obtain ⟨ts, hts, hreads⟩ := writeItems_of_storable indent depth rest hrest
    refine ⟨t :: ts, ?_, .cons hread hreads⟩
    rw [writeItems, ht, hts]
    rfl

theorem writeEntries_of_storable (indent : Option Int) (depth : Nat) (es : List (Data × Data))
    (h : StorableEntries es) :
    ∃ ts, writeEntries indent depth es = .ok ts ∧ List.Forall₂ EntryReadsAs es ts := by
  match es, h with
  | [], _ => exact ⟨[], rfl, .nil⟩
  | (key, d) :: rest, ⟨⟨name, hkey, hname⟩, hd, hrest⟩ =>
    subst hkey
    obtain ⟨t, ht, hread⟩ := writeAt_of_storable indent depth d hd
    obtain ⟨ts, hts, hreads⟩ := writeEntries_of_storable indent depth rest hrest
    refine ⟨(string name ++ ": " ++ t) :: ts, ?_, .cons ⟨name, t, rfl, hname, rfl, hread⟩ hreads⟩
    rw [writeEntries, ht, hts]
    rfl

end

/-- **What is written is read back.** Storable data have a JSON text with any indent; it is pure ASCII,
and reading it gives the data. -/
theorem read_write (indent : Option Int) {d : Data} (h : Storable d) :
    ∃ t, write indent d = .ok t ∧ IsAscii t ∧ read t = .ok d := by
  obtain ⟨t, hwrite, hread⟩ := writeAt_of_storable indent 0 d h
  refine ⟨t, hwrite, hread.ascii, ?_⟩
  have hascii := hread.ascii
  obtain ⟨c, rest, rfl, hblank, -⟩ := hread.opens
  have hstart : skip (c :: rest) = c :: rest := skip_cons hblank rest
  have hmark : (c :: rest).head?.any (·.val = 0xFEFF) = false := by
    have hc := hascii c List.mem_cons_self
    exact decide_eq_false (by omega)
  -- A whole text is read with twice the fuel that its length asks for.
  have hvalue := hread.reads (2 * (c :: rest).length + 2) [] (by omega) nofun
  rw [List.append_nil] at hvalue
  have hdocument : document (c :: rest) = .ok d := by
    simp only [document, hmark, hstart, hvalue, Except.ok_bind]
    rfl
  rw [read, hdocument]
  rfl

end RandomText.Json
