import RandomText.Proofs.Except
import RandomText.Proofs.Pattern.Descent
import RandomText.Proofs.Pattern.Spelling

/-!
# Where tokens stand

What cutting a text into tokens says about places. A token begins with its mark and ends within the
text, and the segments of a range begin inside the range (`first_place`, `misspelling_place`).
-/

namespace RandomText.Pattern

namespace Token

/-- The segments begin between two indices, the first of them included. -/
def SegmentsWithin (first stop : Nat) (segments : List (Nat × Atom)) : Prop :=
  ∀ s ∈ segments, first ≤ s.1 ∧ s.1 < stop

/-- The token may stand for the text from `index` to `stop` that begins with `c`. -/
def BeginsWith (index : Nat) (c : CodePoint) (stop : Nat) : Token → Prop
  | .opening bracket => c = bracket.opener
  | .range segments => c = ':' ∧ SegmentsWithin (index + 1) stop segments
  | _ => True

/-- The index up to which segments were read. -/
def segmentsStop : Except (ReadError × Nat) Nat → Nat
  | .ok stop => stop
  | .error failure => failure.2

theorem segments_place (index : Nat) (text : Text) :
    index ≤ segmentsStop (segments index text).2 ∧
      segmentsStop (segments index text).2 ≤ index + text.length ∧
      SegmentsWithin index (segmentsStop (segments index text).2) (segments index text).1 := by
  fun_induction segments index text with
  | case1 index => simp [segmentsStop, SegmentsWithin]
  | case2 index c rest hupTo stop =>
    simp only [segmentsStop, SegmentsWithin, List.length_cons]
    exact ⟨by omega, by omega, List.forall_mem_nil _⟩
  | case3 index c rest e hupTo next error =>
    have hwidth := Descent.upTo_width_lt hupTo
    simp only [segmentsStop, SegmentsWithin]
    exact ⟨by omega, by omega, List.forall_mem_nil _⟩
  | case4 index c rest e hupTo next leaf =>
    have hwidth := Descent.upTo_width_lt hupTo
    simp only [segmentsStop, SegmentsWithin, List.forall_mem_singleton]
    omega
  | case5 index c rest e hupTo next leaf _ _ others ih =>
    have hwidth := Descent.upTo_width_lt hupTo
    obtain ⟨hnext, hstop, hwithin⟩ := ih
    rw [List.length_drop] at hstop
    rw [List.length_cons] at hwidth ⊢
    change next ≤ segmentsStop others.2 at hnext
    change segmentsStop others.2 ≤ _ at hstop
    show index ≤ segmentsStop others.2 ∧ segmentsStop others.2 ≤ _ ∧
      SegmentsWithin index (segmentsStop others.2) ((index, leaf) :: others.1)
    refine ⟨by omega, by omega, ?_⟩
    intro s hs
    rcases List.mem_cons.mp hs with rfl | hs
    · exact ⟨Nat.le_refl _, by simp only; omega⟩
    · obtain ⟨hfirst, hlast⟩ := hwithin s hs
      exact ⟨by omega, hlast⟩

section place

variable {index : Nat} {c stop : CodePoint} {rest : Text} {lexeme : Lexeme} {m : Misspelling}

theorem enclosed_place {make : Text → Except ReadError Token}
    (h : enclosed index stop make rest = .ok lexeme) :
    lexeme.index = index ∧ index < lexeme.stop ∧ lexeme.stop ≤ index + 1 + rest.length ∧
      ∃ text, make text = .ok lexeme.token := by
  unfold enclosed at h
  split at h
  · cases h
  · next e hupTo =>
    have hwidth := Descent.upTo_width_lt hupTo
    split at h
    · cases h
    · next token hmake =>
      obtain rfl := Except.ok.inj h
      exact ⟨rfl, by simp only; omega, by simp only; omega, e.text, hmake⟩

theorem enclosed_misspelling {make : Text → Except ReadError Token}
    (h : enclosed index stop make rest = .error m) :
    m.index = index ∧ index < m.stop ∧ m.stop ≤ index + 1 + rest.length ∧ m.segments = none := by
  unfold enclosed at h
  split at h
  · obtain rfl := Except.error.inj h
    exact ⟨rfl, by simp only; omega, Nat.le_refl _, rfl⟩
  · next e hupTo =>
    have hwidth := Descent.upTo_width_lt hupTo
    split at h
    · obtain rfl := Except.error.inj h
      exact ⟨rfl, by simp only; omega, by simp only; omega, rfl⟩
    · cases h

theorem beginsWith_sampleSetOf {text : Text} {token : Token} {last : Nat}
    (h : sampleSetOf index text = .ok token) : token.BeginsWith index c last := by
  unfold sampleSetOf at h
  split at h
  · cases h
  · obtain rfl := Except.ok.inj h
    trivial

theorem beginsWith_repetitionOf {text : Text} {token : Token} {last : Nat}
    (h : repetitionOf index text = .ok token) : token.BeginsWith index c last := by
  unfold repetitionOf at h
  split at h
  · obtain ⟨count, -, h⟩ := Except.bind_eq_ok.mp h
    split at h
    · cases h
    · obtain rfl := Except.ok.inj h
      trivial
  · cases h

theorem beginsWith_single (index : Nat) (c : CodePoint) (last : Nat) :
    ((single? c).getD (.other c)).BeginsWith index c last := by
  unfold single?
  repeat' split
  all_goals first | assumption | trivial

theorem rangeOf_place (h : rangeOf index rest = .ok lexeme) :
    lexeme.index = index ∧ index < lexeme.stop ∧ lexeme.stop ≤ index + 1 + rest.length ∧
      lexeme.token.BeginsWith index ':' lexeme.stop := by
  obtain ⟨hfirst, hlast, hwithin⟩ := segments_place (index + 1) rest
  unfold rangeOf at h
  split at h
  · cases h
  · next leaves last hsegments =>
    obtain rfl := Except.ok.inj h
    rw [hsegments] at hfirst hlast hwithin
    exact ⟨rfl, hfirst, hlast, rfl, hwithin⟩

theorem rangeOf_misspelling (h : rangeOf index rest = .error m) :
    m.index = index ∧ index < m.stop ∧ m.stop ≤ index + 1 + rest.length ∧
      ∃ leaves, m.segments = some leaves ∧ SegmentsWithin (index + 1) m.stop leaves := by
  obtain ⟨hfirst, hlast, hwithin⟩ := segments_place (index + 1) rest
  unfold rangeOf at h
  split at h
  · next leaves error last hsegments =>
    obtain rfl := Except.error.inj h
    rw [hsegments] at hfirst hlast hwithin
    exact ⟨rfl, hfirst, hlast, leaves, rfl, hwithin⟩
  · cases h

/-- A token begins with its mark and takes a part of the text. -/
theorem first_place (h : first index c rest = .ok lexeme) :
    lexeme.index = index ∧ index < lexeme.stop ∧ lexeme.stop ≤ index + 1 + rest.length ∧
      lexeme.token.BeginsWith index c lexeme.stop := by
  have henclosed : ∀ {stop : CodePoint} {make : Text → Except ReadError Token},
      (∀ text token, make text = .ok token → token.BeginsWith index c lexeme.stop) →
      enclosed index stop make rest = .ok lexeme →
      lexeme.index = index ∧ index < lexeme.stop ∧ lexeme.stop ≤ index + 1 + rest.length ∧
        lexeme.token.BeginsWith index c lexeme.stop := by
    intro stop make hmake h
    obtain ⟨hindex, hlt, hle, text, htoken⟩ := enclosed_place h
    exact ⟨hindex, hlt, hle, hmake text lexeme.token htoken⟩
  unfold first at h
  split at h
  · refine henclosed ?_ h
    intro text token htoken
    obtain rfl := Except.ok.inj htoken
    trivial
  split at h
  · exact henclosed (fun text token => beginsWith_sampleSetOf) h
  split at h
  · exact henclosed (fun text token => beginsWith_repetitionOf) h
  split at h
  · next hcolon =>
    rw [hcolon]
    exact rangeOf_place h
  · obtain rfl := Except.ok.inj h
    exact ⟨rfl, Nat.lt_succ_self _, Nat.le_add_right _ _, beginsWith_single index c _⟩

/-- A misspelling begins with the mark of its token and lies within the text; only in a range, some
segments may be read before it. -/
theorem misspelling_place (h : first index c rest = .error m) :
    m.index = index ∧ index < m.stop ∧ m.stop ≤ index + 1 + rest.length ∧
      (m.segments = none ∨ c = ':' ∧ ∃ leaves, m.segments = some leaves ∧
        SegmentsWithin (index + 1) m.stop leaves) := by
  unfold first at h
  split at h
  · obtain ⟨hindex, hlt, hle, hnone⟩ := enclosed_misspelling h
    exact ⟨hindex, hlt, hle, .inl hnone⟩
  split at h
  · obtain ⟨hindex, hlt, hle, hnone⟩ := enclosed_misspelling h
    exact ⟨hindex, hlt, hle, .inl hnone⟩
  split at h
  · obtain ⟨hindex, hlt, hle, hnone⟩ := enclosed_misspelling h
    exact ⟨hindex, hlt, hle, .inl hnone⟩
  split at h
  · next hcolon =>
    obtain ⟨hindex, hlt, hle, hleaves⟩ := rangeOf_misspelling h
    exact ⟨hindex, hlt, hle, .inr ⟨hcolon, hleaves⟩⟩
  · cases h

end place

end Token

end RandomText.Pattern
