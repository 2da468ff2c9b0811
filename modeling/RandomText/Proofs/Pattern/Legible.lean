import RandomText.Pattern.Lower
import RandomText.Proofs.Except
import RandomText.Proofs.Numeral
import RandomText.Proofs.Pattern.Descent
import RandomText.Proofs.Pattern.WellFormed

/-!
# Legible numerals

Cutting a pattern into tokens hands numerals over to be read: the count of a repetition and the bounds
of a number range (`Token.numerals`). They are decimal, and still need not be numbers: an information
separator may stand beside the digits, or there may be too many of them. A text is `Legible` if all its
numerals can be read and the number after the end of each range can be written. What stands in literals
or is ignored has no part in it. Reading a legible text ends in a tree or in a fault within the text,
never in a numeral that cannot be read, and the tree can be lowered (`read_of_legible`).
-/

namespace RandomText

/-! ### Numbers -/

namespace Numeral

/-- The text can be read, and the number that is `above` more than the one it denotes can be
written. -/
structure Legible (above : Nat) (t : Text) : Prop where
  noSeparator : ∀ c ∈ t, c.isSeparator = false
  short : (digitRun t).length ≤ maxDigits
  writable : value (digitRun t) + above < 10 ^ maxDigits

theorem legible_iff {above : Nat} {t : Text} :
    Legible above t ↔ ∃ n, read t = .ok n ∧ n + above < 10 ^ maxDigits := by
  constructor
  · rintro ⟨hseparator, hshort, hwritable⟩
    exact ⟨_, read_eq_ok_iff.mpr ⟨hseparator, hshort, rfl⟩, hwritable⟩
  · rintro ⟨n, hread, hwritable⟩
    obtain ⟨hseparator, hshort, rfl⟩ := read_eq_ok_iff.mp hread
    exact ⟨hseparator, hshort, hwritable⟩

theorem legible_of_sublist {above : Nat} {t text : Text} (h : t.Sublist text)
    (hlength : text.length < maxDigits) (hseparator : ∀ c ∈ text, c.isSeparator = false)
    (habove : above ≤ 1) : Legible above t := by
  have hrun : (digitRun t).length ≤ t.length :=
    ((List.takeWhile_prefix _).sublist.trans (List.dropWhile_suffix _).sublist).length_le
  have hle := h.length_le
  refine ⟨fun c hc => hseparator c (h.subset hc), by omega, ?_⟩
  have hlt := value_lt (digitRun t) fun _ hc => isDigit_of_mem_digitRun hc
  have hstep : 10 ^ (digitRun t).length * 10 ≤ 10 ^ maxDigits := by
    rw [← Nat.pow_succ]
    exact Nat.pow_le_pow_right (by decide) (by omega)
  have hpos : 0 < 10 ^ (digitRun t).length := Nat.pow_pos (by decide)
  omega

end Numeral

/-! ### The numerals of a text -/

namespace Pattern.Token

/-- The bounds of a segment between numbers, each behind what is added to it before it is written. -/
def bounds (segment : Text) : List (Nat × Text) :=
  match divide? segment with
  | some (first, last) =>
    if Numeral.isDecimal first ∧ Numeral.isDecimal last then [(0, first), (1, last)] else []
  | none => []

/-- The bounds of the segments of a range, up to the first segment that is at fault. -/
def rangeNumerals (index : Nat) : Text → List (Nat × Text)
  | [] => []
  | c :: rest =>
    match upTo segmentStops (c :: rest) with
    | none => []
    | some e =>
      bounds e.text ++
        match segment index e.text with
        | .error _ => []
        | .ok _ =>
          if e.stop = ';' then [] else rangeNumerals (index + e.width + 1) (rest.drop e.width)
termination_by text => text.length
decreasing_by simp only [List.length_drop, List.length_cons]; omega

/-- The count of a repetition. -/
def countNumerals (rest : Text) : List (Nat × Text) :=
  match upTo ['>'] rest with
  | some e => if Numeral.isDecimal e.text then [(0, e.text)] else []
  | none => []

/-- The numerals of the token that begins with `c` at `index`. -/
def firstNumerals (index : Nat) (c : CodePoint) (rest : Text) : List (Nat × Text) :=
  if c = '<' then countNumerals rest
  else if c = ':' then rangeNumerals (index + 1) rest
  else []

/-- The numerals that cutting a text into tokens hands over to be read, each behind what is added to it
before it is written. -/
def numerals (index : Nat) : Text → List (Nat × Text)
  | [] => []
  | c :: rest =>
    firstNumerals index c rest ++
      match first index c rest with
      | .error _ => []
      | .ok lexeme => numerals lexeme.stop (rest.drop (lexeme.stop - (index + 1)))
termination_by text => text.length
decreasing_by simp only [List.length_drop, List.length_cons]; omega

/-- All numerals are legible. -/
def AllLegible (numerals : List (Nat × Text)) : Prop := ∀ n ∈ numerals, Numeral.Legible n.1 n.2

theorem allLegible_append {front back : List (Nat × Text)} :
    AllLegible (front ++ back) ↔ AllLegible front ∧ AllLegible back :=
  List.forall_mem_append

/-! ### Numerals as parts of a text -/

/-- The numerals stand in the text, and at most one is added to each. -/
def PartsOf (text : Text) (numerals : List (Nat × Text)) : Prop :=
  ∀ n ∈ numerals, n.2.Sublist text ∧ n.1 ≤ 1

theorem PartsOf.mono {s t : Text} {numerals : List (Nat × Text)} (h : PartsOf s numerals)
    (hsub : s.Sublist t) : PartsOf t numerals :=
  fun n hn => ⟨(h n hn).1.trans hsub, (h n hn).2⟩

theorem PartsOf.append {text : Text} {front back : List (Nat × Text)} (hfront : PartsOf text front)
    (hback : PartsOf text back) : PartsOf text (front ++ back) :=
  List.forall_mem_append.mpr ⟨hfront, hback⟩

theorem sublist_of_upTo {stops : List CodePoint} {text : Text} {e : Enclosed}
    (h : upTo stops text = some e) : e.text.Sublist text := by
  fun_induction upTo stops text generalizing e with
  | case1 => cases h
  | case2 c rest hstop =>
    obtain rfl := Option.some.inj h
    exact List.nil_sublist _
  | case3 => cases h
  | case4 d rest hstop ih =>
    obtain ⟨inner, hinner, rfl⟩ := Option.map_eq_some_iff.mp h
    exact .cons _ ((ih hinner).cons_cons d)
  | case5 c rest hstop hslash ih =>
    obtain ⟨inner, hinner, rfl⟩ := Option.map_eq_some_iff.mp h
    exact (ih hinner).cons_cons c

theorem eq_of_split? {c : CodePoint} {t : Text} {p : Text × Text} (h : Text.split? c t = some p) :
    t = p.1 ++ c :: p.2 := by
  induction t generalizing p with
  | nil => cases h
  | cons d rest ih =>
    rw [Text.split?] at h
    split at h
    · next hd =>
      obtain rfl := Option.some.inj h
      rw [hd]
      rfl
    · obtain ⟨q, hq, rfl⟩ := Option.map_eq_some_iff.mp h
      rw [ih hq]
      rfl

theorem eq_of_divide? {segment first last : Text} (h : divide? segment = some (first, last)) :
    segment = first ++ CodePoint.ofChar '-' :: last := by
  unfold divide? at h
  split at h
  · next a b c =>
    split at h
    · next hdash =>
      obtain ⟨rfl, rfl⟩ := Prod.mk.inj (Option.some.inj h)
      rw [hdash]
      rfl
    · exact eq_of_split? h
  · exact eq_of_split? h

theorem partsOf_bounds (segment : Text) : PartsOf segment (bounds segment) := by
  unfold bounds
  split
  · next first last hdivide =>
    obtain rfl := eq_of_divide? hdivide
    have hlast : last.Sublist (first ++ CodePoint.ofChar '-' :: last) :=
      (List.sublist_cons_self _ _).trans (List.sublist_append_right _ _)
    split
    · exact List.forall_mem_cons.mpr ⟨⟨List.sublist_append_left _ _, Nat.zero_le _⟩,
        List.forall_mem_singleton.mpr ⟨hlast, Nat.le_refl _⟩⟩
    · exact List.forall_mem_nil _
  · exact List.forall_mem_nil _

theorem partsOf_rangeNumerals (index : Nat) (text : Text) :
    PartsOf text (rangeNumerals index text) := by
  fun_induction rangeNumerals index text with
  | case1 => exact List.forall_mem_nil _
  | case2 => exact List.forall_mem_nil _
  | case3 index c rest e hupTo ih =>
    refine ((partsOf_bounds e.text).mono (sublist_of_upTo hupTo)).append ?_
    split
    · exact List.forall_mem_nil _
    split
    · exact List.forall_mem_nil _
    · exact ih.mono ((List.drop_sublist _ _).trans (List.sublist_cons_self _ _))

theorem partsOf_countNumerals (rest : Text) : PartsOf rest (countNumerals rest) := by
  unfold countNumerals
  split
  · next e hupTo =>
    split
    · exact List.forall_mem_singleton.mpr ⟨sublist_of_upTo hupTo, Nat.zero_le _⟩
    · exact List.forall_mem_nil _
  · exact List.forall_mem_nil _

theorem partsOf_firstNumerals (index : Nat) (c : CodePoint) (rest : Text) :
    PartsOf rest (firstNumerals index c rest) := by
  unfold firstNumerals
  split
  · exact partsOf_countNumerals rest
  split
  · exact partsOf_rangeNumerals _ rest
  · exact List.forall_mem_nil _

theorem partsOf_numerals (index : Nat) (text : Text) : PartsOf text (numerals index text) := by
  fun_induction numerals index text with
  | case1 => exact List.forall_mem_nil _
  | case2 index c rest ih =>
    refine ((partsOf_firstNumerals index c rest).mono (List.sublist_cons_self _ _)).append ?_
    split
    · exact List.forall_mem_nil _
    · next lexeme hfirst =>
      exact (ih lexeme).mono ((List.drop_sublist _ _).trans (List.sublist_cons_self _ _))

end Pattern.Token

/-- Every numeral that cutting the text into tokens hands over to be read is legible. -/
def Text.Legible (t : Text) : Prop := Pattern.Token.AllLegible (Pattern.Token.numerals 0 t)

/-- Without separators a text needs to be as long as the longest numeral not to be legible. -/
theorem Text.legible_of_length {t : Text} (hlength : t.length < Numeral.maxDigits)
    (hseparator : ∀ c ∈ t, c.isSeparator = false) : t.Legible := by
  intro n hn
  obtain ⟨hsub, habove⟩ := Pattern.Token.partsOf_numerals 0 t n hn
  exact Numeral.legible_of_sublist hsub hlength hseparator habove

/-! ### Atoms of trees and tokens -/

namespace Atom

/-- The numbers of the lowered text have at most `Numeral.maxDigits` digits. -/
def Writable : Atom → Prop
  | range first last _ =>
    first.natAbs < 10 ^ Numeral.maxDigits ∧ (last + 1).natAbs < 10 ^ Numeral.maxDigits
  | _ => True

end Atom

namespace Pattern

/-- The error is a fault at `limit` or before it. -/
def ReadError.IsFaultUpTo (limit : Nat) (e : ReadError) : Prop :=
  ∃ f, e = .fault f ∧ f.index ≤ limit

theorem ReadError.IsFaultUpTo.mono {limit limit' : Nat} {e : ReadError} (h : e.IsFaultUpTo limit)
    (hle : limit ≤ limit') : e.IsFaultUpTo limit' := by
  obtain ⟨f, rfl, hf⟩ := h
  exact ⟨f, rfl, Nat.le_trans hf hle⟩

theorem isFaultUpTo {limit index : Nat} (cause : Cause) (h : index ≤ limit) :
    ReadError.IsFaultUpTo limit (.fault ⟨cause, index⟩) := ⟨_, rfl, h⟩

namespace Token

/-- Every atom that the token puts into the tree has the property `P`. -/
def EveryAtom (P : Atom → Prop) : Token → Prop
  | atom a => P a
  | range segments => ∀ s ∈ segments, P s.2
  | _ => True

/-! ### Tokens of legible text -/

theorem segment_of_legible (index : Nat) {text : Text} (h : AllLegible (bounds text)) :
    (∀ atom, segment index text = .ok atom → atom.Writable) ∧
    ∀ e, segment index text = .error e → e.IsFaultUpTo index := by
  unfold segment
  split
  · exact Except.forall_outcome_error (isFaultUpTo _ (Nat.le_refl _))
  · next first last hdivide =>
    split
    · next hfirst =>
      split
      · next hlast =>
        have hbounds : bounds text = [(0, first), (1, last)] := by
          simp only [bounds, hdivide, hfirst, hlast, and_self, if_true]
        rw [hbounds] at h
        obtain ⟨low, hlow, hlow_lt⟩ := Numeral.legible_iff.mp (h (0, first) List.mem_cons_self)
        obtain ⟨high, hhigh, hhigh_lt⟩ :=
          Numeral.legible_iff.mp (h (1, last) (List.mem_cons_of_mem _ List.mem_cons_self))
        have hrange : numberRange index first last =
            if h : high < low then throw (.fault ⟨.rangeReversed low high, index⟩)
            else return .range low high (by omega) := by
          rw [numberRange, hlow, hhigh]
          rfl
        rw [hrange]
        split
        · exact Except.forall_outcome_error (isFaultUpTo _ (Nat.le_refl _))
        · refine Except.forall_outcome_ok ⟨?_, ?_⟩
          · show Int.natAbs (low : Int) < _
            omega
          · show Int.natAbs ((high : Int) + 1) < _
            omega
      · exact Except.forall_outcome_error (isFaultUpTo _ (Nat.le_refl _))
    · unfold charRange
      split
      · split
        · exact Except.forall_outcome_error (isFaultUpTo _ (Nat.le_refl _))
        · exact Except.forall_outcome_ok trivial
      · exact Except.forall_outcome_error (isFaultUpTo _ (Nat.le_refl _))

theorem segments_of_legible (index : Nat) {text : Text} (h : AllLegible (rangeNumerals index text)) :
    (∀ s ∈ (segments index text).1, s.2.Writable) ∧
    (∀ e stop, (segments index text).2 = .error (e, stop) → e.IsFaultUpTo (index + text.length)) ∧
    ∀ stop, (segments index text).2 = .ok stop → stop ≤ index + text.length := by
  fun_induction segments index text with
  | case1 index =>
    refine ⟨List.forall_mem_nil _, fun e stop he => ?_, fun _ h => absurd h Except.error_ne_ok⟩
    obtain ⟨rfl, -⟩ := Prod.mk.inj (Except.error.inj he)
    exact isFaultUpTo _ (Nat.le_refl _)
  | case2 index c rest hupTo last =>
    refine ⟨List.forall_mem_nil _, fun e stop he => ?_, fun _ h => absurd h Except.error_ne_ok⟩
    obtain ⟨rfl, -⟩ := Prod.mk.inj (Except.error.inj he)
    exact isFaultUpTo _ (Nat.le_refl _)
  | case3 index c rest e hupTo next error hsegment =>
    simp only [rangeNumerals, hupTo] at h
    obtain ⟨-, hfault⟩ := segment_of_legible index (allLegible_append.mp h).1
    refine ⟨List.forall_mem_nil _, fun e' stop he => ?_, fun _ h => absurd h Except.error_ne_ok⟩
    obtain ⟨rfl, -⟩ := Prod.mk.inj (Except.error.inj he)
    exact (hfault error hsegment).mono (Nat.le_add_right _ _)
  | case4 index c rest e hupTo next leaf hsegment hstop =>
    simp only [rangeNumerals, hupTo] at h
    obtain ⟨hwritable, -⟩ := segment_of_legible index (allLegible_append.mp h).1
    have hwidth := Descent.upTo_width_lt hupTo
    refine ⟨fun s hs => ?_, fun _ _ h => absurd h Except.ok_ne_error, fun stop hstop => ?_⟩
    · obtain rfl := List.mem_singleton.mp hs
      exact hwritable leaf hsegment
    · obtain rfl := Except.ok.inj hstop
      show index + e.width + 1 ≤ _
      omega
  | case5 index c rest e hupTo next leaf hsegment hstop others ih =>
    simp only [rangeNumerals, hupTo, hsegment, if_neg hstop] at h
    obtain ⟨hbounds, hnumerals⟩ := allLegible_append.mp h
    obtain ⟨hwritable, -⟩ := segment_of_legible index hbounds
    have hwidth := Descent.upTo_width_lt hupTo
    rw [List.length_cons] at hwidth
    obtain ⟨hrest, hfault, hend⟩ := ih hnumerals
    have hlength : next + (rest.drop e.width).length = index + (c :: rest).length := by
      show index + e.width + 1 + _ = _
      rw [List.length_drop, List.length_cons]
      omega
    rw [hlength] at hfault hend
    refine ⟨fun s hs => ?_, hfault, hend⟩
    cases hs with
    | head => exact hwritable leaf hsegment
    | tail _ hs => exact hrest s hs

theorem enclosed_of_legible {index : Nat} {stop : CodePoint} {make : Text → Except ReadError Token}
    {rest : Text} (htoken : ∀ text token, make text = .ok token → token.EveryAtom Atom.Writable)
    (hfault : ∀ e, upTo [stop] rest = some e →
      ∀ error, make e.text = .error error → error.IsFaultUpTo index) :
    (∀ l, enclosed index stop make rest = .ok l →
      l.token.EveryAtom Atom.Writable ∧ l.index = index ∧ l.stop ≤ index + 1 + rest.length) ∧
    ∀ m, enclosed index stop make rest = .error m → m.error.IsFaultUpTo (index + 1 + rest.length) := by
  unfold enclosed
  split
  · exact Except.forall_outcome_error (isFaultUpTo _ (Nat.le_refl _))
  · next e hupTo =>
    have hwidth := Descent.upTo_width_lt hupTo
    split
    · next error hmake =>
      exact Except.forall_outcome_error ((hfault e hupTo error hmake).mono (by omega))
    · next token hmake =>
      refine Except.forall_outcome_ok ⟨htoken e.text token hmake, rfl, ?_⟩
      show index + 1 + e.width + 1 ≤ _
      omega

theorem repetitionOf_of_legible {index : Nat} {rest : Text} {e : Enclosed} {error : ReadError}
    (h : AllLegible (countNumerals rest)) (hupTo : upTo ['>'] rest = some e)
    (herror : repetitionOf index e.text = .error error) : error.IsFaultUpTo index := by
  unfold repetitionOf at herror
  split at herror
  · next hdecimal =>
    simp only [countNumerals, hupTo, hdecimal, if_true] at h
    obtain ⟨count, hcount, -⟩ := Numeral.legible_iff.mp (h (0, e.text) List.mem_cons_self)
    have hread : (Numeral.read e.text).mapError ReadError.numeral = .ok count := by
      rw [hcount]
      rfl
    rw [hread] at herror
    change dite (count < 1) _ _ = Except.error error at herror
    split at herror
    · exact Except.error.inj herror ▸ isFaultUpTo _ (Nat.le_refl _)
    · cases herror
  · exact Except.error.inj herror ▸ isFaultUpTo _ (Nat.le_refl _)

theorem repetitionOf_everyAtom {P : Atom → Prop} {index : Nat} {text : Text} {token : Token}
    (h : repetitionOf index text = .ok token) : token.EveryAtom P := by
  unfold repetitionOf at h
  split at h
  · cases hread : Numeral.read text with
    | error error =>
      rw [hread] at h
      cases h
    | ok count =>
      rw [hread] at h
      change dite (count < 1) _ _ = Except.ok token at h
      split at h
      · cases h
      · obtain rfl := Except.ok.inj h
        trivial
  · cases h

theorem single_everyAtom (c : CodePoint) :
    ((single? c).getD (.other c)).EveryAtom Atom.Writable := by
  unfold single?
  repeat' split
  all_goals trivial

theorem first_of_legible (index : Nat) (c : CodePoint) {rest : Text}
    (h : AllLegible (firstNumerals index c rest)) :
    (∀ l, first index c rest = .ok l →
      l.token.EveryAtom Atom.Writable ∧ l.index = index ∧ l.stop ≤ index + 1 + rest.length) ∧
    ∀ m, first index c rest = .error m → m.error.IsFaultUpTo (index + 1 + rest.length) := by
  unfold first
  split
  · refine enclosed_of_legible (fun text token htoken => ?_) (fun e _ error he => ?_)
    · exact Except.ok.inj htoken ▸ trivial
    · cases he
  split
  · refine enclosed_of_legible (fun text token htoken => ?_) (fun e _ error he => ?_)
    · unfold sampleSetOf at htoken
      split at htoken
      · cases htoken
      · exact Except.ok.inj htoken ▸ trivial
    · unfold sampleSetOf at he
      split at he
      · exact Except.error.inj he ▸ isFaultUpTo _ (Nat.le_refl _)
      · cases he
  split
  · next hmark =>
    simp only [firstNumerals, if_pos hmark] at h
    exact enclosed_of_legible (fun _ _ => repetitionOf_everyAtom)
      (fun e hupTo error => repetitionOf_of_legible h hupTo)
  split
  · next hmark hcolon =>
    simp only [firstNumerals, if_neg hmark, if_pos hcolon] at h
    obtain ⟨hleaves, hfault, hstop⟩ := segments_of_legible (index + 1) h
    unfold rangeOf
    split
    · next leaves error stop hsegments =>
      exact Except.forall_outcome_error (hfault error stop (by rw [hsegments]))
    · next leaves stop hsegments =>
      rw [hsegments] at hleaves hstop
      exact Except.forall_outcome_ok ⟨hleaves, rfl, hstop stop rfl⟩
  · exact Except.forall_outcome_ok ⟨single_everyAtom c, rfl, Nat.le_add_right _ _⟩

theorem scan_of_legible (index : Nat) {text : Text} (h : AllLegible (numerals index text)) :
    (∀ l ∈ (scan index text).1, l.token.EveryAtom Atom.Writable ∧ l.index ≤ index + text.length) ∧
    ∀ m, (scan index text).2 = some m → m.error.IsFaultUpTo (index + text.length) := by
  fun_induction scan index text with
  | case1 => exact ⟨nofun, nofun⟩
  | case2 index c rest m hfirst =>
    rw [numerals] at h
    obtain ⟨-, hfault⟩ := first_of_legible index c (allLegible_append.mp h).1
    refine ⟨nofun, fun m' hm' => ?_⟩
    obtain rfl := Option.some.inj hm'
    exact (hfault m hfirst).mono (by rw [List.length_cons]; omega)
  | case3 index c rest lexeme hfirst others ih =>
    simp only [numerals, hfirst] at h
    obtain ⟨hnumerals, hrest⟩ := allLegible_append.mp h
    obtain ⟨htoken, -⟩ := first_of_legible index c hnumerals
    obtain ⟨hatoms, hindex, hstop⟩ := htoken lexeme hfirst
    obtain ⟨hothers, hfault⟩ := ih hrest
    have hlength : lexeme.stop + (rest.drop (lexeme.stop - (index + 1))).length ≤
        index + (c :: rest).length := by
      rw [List.length_drop, List.length_cons]
      omega
    refine ⟨fun l hl => ?_, fun m hm => (hfault m hm).mono hlength⟩
    cases hl with
    | head => exact ⟨hatoms, by omega⟩
    | tail _ hl =>
      obtain ⟨hl_atoms, hl_index⟩ := hothers l hl
      exact ⟨hl_atoms, by omega⟩

end Token

/-! ### Readings -/

section reading

variable {P : Atom → Prop} {settings : Settings} {input : Text} {p : Progress} {limit : Nat}

/-- Every node on the stack has only atoms with the property `P`. -/
def Progress.EveryAtom (P : Atom → Prop) (p : Progress) : Prop :=
  ∀ f ∈ p.frames, ∀ node ∈ f.latest, node.EveryAtom P

theorem Progress.EveryAtom.push (h : p.EveryAtom P) {node : Node} (hnode : node.EveryAtom P) :
    (p.push node).EveryAtom P := by
  intro f hf other hother
  rcases List.mem_cons.mp hf with rfl | hf
  · rcases List.mem_cons.mp hother with rfl | hother
    · exact hnode
    · exact h p.top List.mem_cons_self other hother
  · exact h f (List.mem_cons_of_mem _ hf) other hother

theorem everyAtom_close {kind : FrameKind} {position : Option Position} {nodes : List Node}
    (h : ∀ node ∈ nodes, node.EveryAtom P) : (kind.close position nodes).EveryAtom P := by
  unfold FrameKind.close
  split
  case h_4 child => exact h child (List.mem_singleton_self child)
  all_goals exact Node.everyAtomAll_iff.mpr h

theorem step_everyAtom (settings : Settings) (input : Text) (h : p.EveryAtom P) {lexeme : Lexeme}
    (htoken : lexeme.token.EveryAtom P) :
    (∀ q, p.step settings input lexeme = .ok q → q.EveryAtom P) ∧
    ∀ halt, p.step settings input lexeme = .error halt →
      halt.error.IsFaultUpTo lexeme.index := by
  have hignore : ∀ c, (∀ q, p.ignore settings c lexeme.index = .ok q → q.EveryAtom P) ∧
      ∀ halt, p.ignore settings c lexeme.index = .error halt →
        halt.error.IsFaultUpTo lexeme.index := by
    intro c
    unfold Progress.ignore
    split
    · exact Except.forall_outcome_error (isFaultUpTo _ (Nat.le_refl _))
    · exact Except.forall_outcome_ok h
  obtain ⟨index, token, stop⟩ := lexeme
  cases token with
  | atom a => exact Except.forall_outcome_ok (h.push htoken)
  | range segments =>
    refine Except.forall_outcome_ok ?_
    refine h.push (everyAtom_close fun node hnode => ?_)
    obtain ⟨s, hs, rfl⟩ := List.mem_map.mp hnode
    exact htoken s hs
  | repetition count pos =>
    simp only [Progress.step, Progress.applyRepetition]
    split
    · exact Except.forall_outcome_error (isFaultUpTo _ (Nat.le_refl _))
    · next node earlier htop =>
      split
      · exact Except.forall_outcome_error (isFaultUpTo _ (Nat.le_refl _))
      · refine Except.forall_outcome_ok ?_
        intro f hf other hother
        have htop_every := h p.top List.mem_cons_self
        rw [htop] at htop_every
        rcases List.mem_cons.mp hf with rfl | hf
        · rcases List.mem_cons.mp hother with rfl | hother
          · exact Node.everyAtom_withRepeatCount (htop_every node List.mem_cons_self) count pos
          · exact htop_every other (List.mem_cons_of_mem _ hother)
        · exact h f (List.mem_cons_of_mem _ hf) other hother
  | opening bracket =>
    simp only [Progress.step, Progress.openBracket]
    split
    · exact Except.forall_outcome_error (isFaultUpTo _ (Nat.le_refl _))
    · refine Except.forall_outcome_ok ?_
      intro f hf node hnode
      rcases List.mem_cons.mp hf with rfl | hf
      · cases hnode
      · exact h f hf node hnode
  | closing bracket =>
    simp only [Progress.step, Progress.closeBracket]
    split
    · exact hignore _
    · next parent below hbelow =>
      have houter : Progress.EveryAtom P { p with top := parent, below := below } := by
        intro f hf
        refine h f (List.mem_cons_of_mem _ ?_)
        rw [hbelow]
        exact hf
      split
      · split
        · exact Except.forall_outcome_error (isFaultUpTo _ (Nat.le_refl _))
        · refine Except.forall_outcome_ok ?_
          refine Progress.EveryAtom.push (p := { p with top := parent, below := below, noted := _ })
            houter (everyAtom_close fun node hnode => ?_)
          exact h p.top List.mem_cons_self node (List.mem_reverse.mp hnode)
      · exact hignore _
  | other c => exact hignore c

theorem readFrom_everyAtom {misspelling : Option Misspelling} {lexemes : List Lexeme} {current : Nat}
    (hlexemes : ∀ l ∈ lexemes, l.token.EveryAtom P ∧ l.index ≤ limit)
    (hmisspelling : ∀ m, misspelling = some m → m.error.IsFaultUpTo limit)
    (hinput : input.length ≤ limit) (h : p.EveryAtom P) :
    (∀ root, (readFrom settings input misspelling current p lexemes).result = .ok root →
      root.EveryAtom P) ∧
    ∀ e, (readFrom settings input misspelling current p lexemes).result = .error e →
      e.IsFaultUpTo limit := by
  -- The frames vary: what holds of their nodes is what each token keeps.
  induction lexemes generalizing p current with
  | nil =>
    cases misspelling with
    | some m => exact Except.forall_outcome_error (hmisspelling m rfl)
    | none =>
      simp only [readFrom, Progress.finish]
      cases p.top.kind.closer? with
      | some closer => exact Except.forall_outcome_error (isFaultUpTo _ hinput)
      | none =>
        exact Except.forall_outcome_ok <| everyAtom_close fun node hnode =>
          h p.top List.mem_cons_self node (List.mem_reverse.mp hnode)
  | cons lexeme rest ih =>
    obtain ⟨htoken, hindex⟩ := hlexemes lexeme List.mem_cons_self
    obtain ⟨hok, herror⟩ := step_everyAtom settings input h htoken
    cases hstep : p.step settings input lexeme with
    | ok q =>
      simp only [readFrom, hstep]
      exact ih (fun l hl => hlexemes l (List.mem_cons_of_mem _ hl)) (hok q hstep)
    | error halt =>
      simp only [readFrom, hstep]
      exact Except.forall_outcome_error ((herror halt hstep).mono hindex)

end reading

/-- Reading a legible text ends in a tree whose numbers can be written, or in a fault within the
text. -/
theorem read_of_legible (settings : Settings) {text : Text} (h : text.Legible) :
    (∀ root, read settings text = .ok root → root.EveryAtom Atom.Writable) ∧
    ∀ e, read settings text = .error e → e.IsFaultUpTo text.length := by
  obtain ⟨hlexemes, hmisspelling⟩ := Token.scan_of_legible 0 h
  rw [Nat.zero_add] at hlexemes hmisspelling
  refine readFrom_everyAtom hlexemes hmisspelling (Nat.le_refl _) ?_
  intro f hf node hnode
  obtain rfl := List.mem_singleton.mp hf
  cases hnode

end Pattern

end RandomText
