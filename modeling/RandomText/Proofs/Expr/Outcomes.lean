import RandomText.Draw.Replay
import RandomText.Fault
import RandomText.Proofs.Expr.Blame
import RandomText.Proofs.Expr.Viability
import RandomText.Proofs.Expr.Writing

/-!
# What can come of running a text

A text comes to a text or to a fault of the evaluation, with an index in the text where there is one.
There is one kind of text that breaks off instead: an expression that could be evaluated if it did not
hold an integer with more digits than can be read (`BreaksOff`).

Where the integers can be read, none that arises is too long to be written, so that all messages can be
worded (`Cause.Sayable`).
-/

namespace RandomText.Expr

variable {σ : Type}

/-! ### Texts that break off -/

section breaksOff

variable [CallStack] {text : Text}

/-- The text is an expression that the stack has room for, but with an integer of too many digits. -/
def BreaksOff (text : Text) : Prop :=
  demand text ≤ CallStack.room ∧ (∃ e, Renders text e) ∧ ¬ ShortIntegers (Token.lex 0 text).lexemes

theorem breaksOff_of_read {error : NumeralError} (h : read text = .error (.numeral error)) :
    BreaksOff text := by
  have hroom : ¬ CallStack.room < demand text := by
    rw [← read_eq_nestedTooDeeply_iff, h]
    nofun
  rcases read_eq_error_iff.mp h with hrun | ⟨⟨e, hrun⟩, hcheck⟩
  · rcases error_of_run hrun with ⟨i, expected, herror⟩ | herror <;> cases herror
  · obtain ⟨he, hcomplete⟩ := (Consumed.start .nil).hasLexemes_of_run hrun
    refine ⟨Nat.not_lt.mp hroom, ⟨e, _, he, written_of_lex hcomplete⟩, fun hshort => ?_⟩
    rw [checkNumerals_of_short hshort] at hcheck
    cases hcheck

theorem BreaksOff.read (h : BreaksOff text) : ∃ n, Numeral.maxDigits < n ∧
    read text = .error (.numeral (.tooLongToRead n)) := by
  obtain ⟨hroom, ⟨e, hrenders⟩, hlong⟩ := h
  rw [demand_of_renders hrenders] at hroom
  obtain ⟨ls, he, hwritten⟩ := hrenders
  cases hcheck : checkNumerals (Token.lex 0 text).lexemes with
  | ok => exact absurd (.of_check hcheck) hlong
  | error error =>
    obtain ⟨n, hn, rfl⟩ := tooLong_of_check hcheck
    refine ⟨n, hn, read_eq_error_iff.mpr (.inr ⟨⟨e, ?_⟩, hcheck⟩)⟩
    rw [hwritten.lex_eq he.apart, he.run_start, if_neg (Nat.not_lt.mpr hroom)]

theorem read_tooLong (hdigits : ∀ c ∈ text, c.isDigit = true)
    (hlong : Numeral.maxDigits < text.length) :
    Expr.read text = .error (.numeral (.tooLongToRead text.length)) := by
  have hspelt := Token.spelt_integer (List.ne_nil_of_length_pos (Nat.zero_lt_of_lt hlong)) hdigits
  have he : HasLexemes (.integer 0 (Numeral.value text)) [⟨0, .integer text⟩] := .integer
  have hlex := (written_token hspelt 0).lex_eq he.apart
  refine read_eq_error_iff.mpr (.inr ⟨⟨.integer 0 (Numeral.value text), ?_⟩, ?_⟩)
  · rw [hlex, he.run_start]
    exact if_neg (Nat.not_lt_zero _)
  · rw [hlex, checkNumerals, if_pos hlong]

end breaksOff

/-! ### Writable integers -/

/-- The integer is not negative and has few enough digits to be written. -/
def Writable (n : Int) : Prop := ∃ m : Nat, n = m ∧ m < 10 ^ Numeral.maxDigits

def Value.Writable : Value → Prop
  | integer n => Expr.Writable n
  | _ => True

/-- The integers that a message shows. -/
def CallError.shown : CallError → List Int
  | repeatCount n => [n]
  | emptyRange range => [range.low, range.high]
  | _ => []

/-- The message of the cause shows integers that can be written, and the cause is not that one cannot. -/
def Cause.Sayable : Cause → Prop
  | unknownFunction _ => True
  | failedCall _ error => (∀ n ∈ error.shown, Writable n) ∧ ∀ e, error ≠ .numeral e

theorem sayable_of_arises (name : Text) {error : CallError} (h : error.Arises Value.Writable) :
    (Cause.failedCall name error).Sayable := by
  cases error with
  | emptyRange range =>
    obtain ⟨hlow, hhigh⟩ := h
    refine ⟨fun n hn => ?_, nofun⟩
    rcases List.mem_cons.mp hn with rfl | hn
    · exact hlow
    · exact List.mem_singleton.mp hn ▸ hhigh
  | repeatCount n => exact ⟨fun m hm => List.mem_singleton.mp hm ▸ h.1, nofun⟩
  | numeral error =>
    obtain ⟨_, ⟨m, rfl, hm⟩, hwrite⟩ := h
    rw [Numeral.write_eq_ok hm] at hwrite
    cases hwrite
  | _ => exact ⟨nofun, nofun⟩

/-- All integers in the expression can be written. -/
def HasWritable (e : Expr) : Prop := ∀ i n, .integer i n ∈ e.nodes → n < 10 ^ Numeral.maxDigits

theorem HasWritable.of_subset {e x : Expr} (h : HasWritable e) (hx : x.nodes ⊆ e.nodes) :
    HasWritable x := fun i n hn => h i n (hx hn)

/-- What comes of an expression whose integers can be written. -/
def Fit : Except Cause Value → Prop
  | .ok v => v.Writable
  | .error cause => cause.Sayable

theorem HasWritable.plan_upholds {e : Expr} (h : HasWritable e) :
    e.plan.Upholds HasWritable Value.Writable Fit := by
  cases e with
  | string => trivial
  | integer i n => exact ⟨n, rfl, h i n (mem_nodes_self _)⟩
  | list i items =>
    have hitems : ∀ x ∈ items, HasWritable x := fun x hx =>
      h.of_subset fun y hy => List.mem_cons_of_mem _ (nodes_subset_nodesAll hx hy)
    exact Plan.values_upholds hitems fun _ => trivial
  | call i name args =>
    have hargs : ∀ x ∈ args, HasWritable x := fun x hx =>
      h.of_subset fun y hy => List.mem_cons_of_mem _ (nodes_subset_nodesAll hx hy)
    rw [plan]
    split
    · trivial
    · refine Function.plan_upholds name _ hargs (fun j items hitems x hx => ?_)
        (fun low high n hlow hhigh hln hnh => ?_) (fun _ => trivial)
        fun _ => sayable_of_arises name
      · exact (hargs _ hitems).of_subset fun y hy =>
          List.mem_cons_of_mem _ (nodes_subset_nodesAll hx hy)
      · obtain ⟨a, rfl, -⟩ := hlow
        obtain ⟨b, rfl, hb⟩ := hhigh
        exact ⟨n.toNat, by omega, by omega⟩

theorem Written.spelt {i : Nat} {ls : List Lexeme} {t : Text} (h : Written i ls t) :
    ∀ lexeme ∈ ls, ∃ word, lexeme.token.Spelt word := by
  induction h with
  | nil => exact nofun
  | @cons _ _ word _ _ _ _ _ hword _ ih => exact List.forall_mem_cons.mpr ⟨⟨word, hword⟩, ih⟩

theorem hasWritable_of_read [CallStack] {text : Text} {e : Expr} (h : read text = .ok e) : HasWritable e := by
  intro i n hn
  obtain ⟨ls, he, hwritten⟩ := renders_of_read h
  have hshort := shortIntegers_of_read h
  rw [hwritten.lex_eq he.apart] at hshort
  obtain ⟨part, hpart, front, back, rfl⟩ := he.within _ hn
  cases hpart with
  | @integer _ digits =>
    have hmem : ⟨i, .integer digits⟩ ∈ front ++ ([⟨i, .integer digits⟩] ++ back) := by simp
    have hlength := hshort _ hmem digits rfl
    obtain ⟨word, hword⟩ := hwritten.spelt _ hmem
    cases hword with
    | integer hfirst hrest =>
      have hlt := Numeral.value_lt _ (List.forall_mem_cons.mpr ⟨hfirst, hrest⟩)
      exact lt_of_lt_of_le hlt (Nat.pow_le_pow_right (by decide) hlength)

/-! ### Outcomes -/

/-- The fault that a failure to run `source` is, unless reading broke off at an integer. -/
def RunError.fault? (source : Text) : RunError → Option RandomText.Fault
  | unreadable (.numeral _) => none
  | error => some ⟨.evaluation, error.message source, error.index?.map Int.ofNat⟩

theorem StandsIn.index_le {text : Text} {e : Expr} (h : StandsIn text e) : e.index ≤ text.length := by
  obtain ⟨before, c, t, after, rfl, hbefore, -⟩ := h
  rw [← hbefore, List.length_append]
  exact Nat.le_add_right _ _

/-- The failure is a fault of the evaluation, at a place of the text if at any, and its message can be
worded. -/
structure IsFault (text : Text) (error : RunError) : Prop where
  fault : ∃ fault, error.fault? text = some fault ∧ fault.kind = .evaluation ∧
    ∀ i, fault.index = some i → 0 ≤ i ∧ i ≤ text.length
  sayable : ∀ fault, error = .fault fault → fault.cause.Sayable

theorem index_within {text : Text} {n : Nat} (h : n ≤ text.length) (i : Int)
    (hi : (some n).map Int.ofNat = some i) : 0 ≤ i ∧ i ≤ text.length := by
  cases hi
  exact ⟨Int.natCast_nonneg n, Int.ofNat_le.mpr h⟩

theorem isFault_unreadable [CallStack] {text : Text} {error : ReadError} (hread : read text = .error error)
    (h : ¬ BreaksOff text) : IsFault text (.unreadable error) := by
  cases error with
  | malformed i expected =>
    obtain ⟨front, p, rest, hrefused⟩ := exists_refused hread
    exact ⟨⟨_, rfl, rfl, index_within hrefused.le_length⟩, nofun⟩
  | nestedTooDeeply => exact ⟨⟨_, rfl, rfl, nofun⟩, nofun⟩
  | numeral error => exact absurd (breaksOff_of_read hread) h

theorem isFault_notAText [CallStack] {text : Text} {e : Expr} (hread : read text = .ok e) (typeName : Text) :
    IsFault text (.notAText typeName e.index) := by
  have hstands := (renders_of_read hread).standsIn (mem_nodes_self e)
  exact ⟨⟨_, rfl, rfl, index_within hstands.index_le⟩, nofun⟩

theorem isFault_fault [CallStack] {text : Text} {e : Expr} (hread : read text = .ok e) {source : Source σ}
    {d d' : Draws σ} {trace : List Event} {fault : Fault}
    (h : Evaluates source e d trace (.error fault) d') : IsFault text (.fault fault) := by
  obtain ⟨front, call, outer, -, hblames⟩ := h.blames (plan_keepsTo e)
  have hstands := (renders_of_read hread).standsIn hblames.inside.mem_nodes
  have hfit := h.upholds (fun x hx => HasWritable.plan_upholds hx) (fun _ hv => hv)
    (hasWritable_of_read hread).plan_upholds
  refine ⟨⟨_, rfl, rfl, index_within (hblames.index ▸ hstands.index_le)⟩, ?_⟩
  rintro _ ⟨⟩
  exact hfit

/-- **Running a text yields a text or a fault of the evaluation.** The one exception is an expression
that could be evaluated if it did not hold an integer of too many digits. Reading it breaks off before
anything is drawn. -/
theorem run_yields_or_faults [CallStack] (source : Source σ) (text : Text) (d : Draws σ) :
    (¬ BreaksOff text →
      (∃ t d', (run source text).outcome d = (.ok t, d')) ∨
      ∃ error d', (run source text).outcome d = (.error error, d') ∧ IsFault text error) ∧
    (BreaksOff text → ∃ n, Numeral.maxDigits < n ∧
      (run source text).outcome d = (.error (.unreadable (.numeral (.tooLongToRead n))), d)) := by
  refine ⟨fun hbreaks => ?_, fun hbreaks => ?_⟩
  · cases hread : read text with
    | error error =>
      exact .inr ⟨_, d, outcome_run_unreadable source hread d, isFault_unreadable hread hbreaks⟩
    | ok e =>
      obtain ⟨trace, r, d', hevaluates, hrun⟩ := exists_evaluates source hread d
      match r with
      | .ok (.text t) => exact .inl ⟨t, d', hrun⟩
      | .ok (.integer _) => exact .inr ⟨_, d', hrun, isFault_notAText hread _⟩
      | .ok (.list _) => exact .inr ⟨_, d', hrun, isFault_notAText hread _⟩
      | .error _ => exact .inr ⟨_, d', hrun, isFault_fault hread hevaluates⟩
  · obtain ⟨n, hn, hread⟩ := hbreaks.read
    exact ⟨n, hn, outcome_run_unreadable source hread d⟩

theorem read_ones [CallStack] : read (List.replicate 4301 (CodePoint.ofChar '1')) =
    .error (.numeral (.tooLongToRead 4301)) := by
  have hdigits : ∀ c ∈ List.replicate 4301 (CodePoint.ofChar '1'), c.isDigit = true := by
    intro c hc
    rw [List.eq_of_mem_replicate hc]
    decide
  have hread := read_tooLong hdigits (by rw [List.length_replicate]; decide)
  rwa [List.length_replicate] at hread

/-- The theorem at a repetition that fails and at an integer of too many digits. -/
theorem run_yields_or_faults_repeat :
    (¬ BreaksOff "repeat(0, \"a\")" ∧
      ∃ error d', (run Replay.source "repeat(0, \"a\")").outcome (.start (.start [] 0)) =
        (.error error, d') ∧ IsFault "repeat(0, \"a\")" error) ∧
    BreaksOff (List.replicate 4301 (CodePoint.ofChar '1')) ∧
      ∃ n, Numeral.maxDigits < n ∧
        (run Replay.source (List.replicate 4301 (CodePoint.ofChar '1'))).outcome (.start (.start [] 0)) =
          (.error (.unreadable (.numeral (.tooLongToRead n))), .start (.start [] 0)) := by
  have hread : read "repeat(0, \"a\")" = .ok (.call 0 "repeat" [.integer 7 0, .string 10 "a"]) := by
    cbv
  have hgood : ¬ BreaksOff "repeat(0, \"a\")" := by
    intro hbreaks
    obtain ⟨n, -, herror⟩ := hbreaks.read
    cases herror.symm.trans hread
  have hlong := breaksOff_of_read read_ones
  refine ⟨⟨hgood, ?_⟩, hlong, (run_yields_or_faults Replay.source _ _).2 hlong⟩
  rcases (run_yields_or_faults Replay.source _ (.start (.start [] 0))).1 hgood with ⟨t, d', hrun⟩ | hfault
  · have hrun' : (run Replay.source "repeat(0, \"a\")").outcome (.start (.start [] 0)) =
        (.error (.fault ⟨.failedCall "repeat" (.repeatCount 0), 0⟩), .start (.start [] 0)) := by
      rw [Expr.run, hread]
      rfl
    cases hrun.symm.trans hrun'
  · exact hfault

/-- Running an integer of too many digits is neither answered nor a fault of the evaluation. -/
theorem run_breaks_off :
    (run Replay.source (List.replicate 4301 (CodePoint.ofChar '1'))).outcome (.start (.start [] 0)) =
        (.error (.unreadable (.numeral (.tooLongToRead 4301))), .start (.start [] 0)) ∧
      (RunError.unreadable (.numeral (.tooLongToRead 4301))).fault?
        (List.replicate 4301 (CodePoint.ofChar '1')) = none :=
  ⟨outcome_run_unreadable Replay.source read_ones _, rfl⟩

end RandomText.Expr
