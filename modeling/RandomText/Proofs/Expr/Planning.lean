import RandomText.Expr.Evaluate
import RandomText.Proofs.Drawing
import RandomText.Proofs.Expr.Rendering

/-!
# Evaluation by plans

An expression proceeds by its plan (`Expr.plan`): it asks for the value of an operand or for a number
below a bound, one after the other, and in the end it has a value or fails on its own account. The
evaluator does what the plans say (`evaluate_eq_run`).

What is to hold of all operands and results is read off the plans (`Plan.Upholds`), with one lemma for
each step that plans are made of. The operands of an expression are nested less deeply than the
expression (`plan_asks_depth`).
-/

namespace RandomText.Expr

/-! ### Plans -/

/-- What an expression asks for, one thing after the other, and what comes of it. -/
inductive Plan where
  | done (result : Except Cause Value)
  | operand (x : Expr) (next : Value → Plan)
  | draw (bound : Nat) (pos : 0 < bound) (next : Fin bound → Plan)

namespace Plan

/-- The values of expressions, in order. -/
def values : List Expr → (List Value → Plan) → Plan
  | [], next => next []
  | x :: rest, next => operand x fun v => values rest fun others => next (v :: others)

variable (name : Text)

/-- A call of `name` fails on its own account. -/
def fail (error : CallError) : Plan := done (.error (.failedCall name error))

/-- Goes on with what was computed, if it could be. -/
def check {α : Type} (result : Except CallError α) (next : α → Plan) : Plan :=
  match result with
  | .ok a => next a
  | .error error => fail name error

/-- The integer that an operand evaluates to. -/
def integer (x : Expr) (next : Int → Plan) : Plan := operand x fun v => check name v.toInteger next

/-- The text that an operand evaluates to. -/
def text (x : Expr) (next : Text → Plan) : Plan := operand x fun v => check name v.toText next

/-- A drawn character of a text. -/
def character (chars : Text) : Plan :=
  if h : chars = [] then fail name .emptyString
  else draw chars.length (List.length_pos_iff.mpr h) fun i => done (.ok (.text [chars[i]]))

/-- The texts that operands evaluate to, one after the other. -/
def texts : List Expr → (Text → Plan) → Plan
  | [], next => next []
  | x :: rest, next => text name x fun first => texts rest fun others => next (first ++ others)

end Plan

theorem toNat_sub_pos {low high : Int} (h : ¬ high ≤ low) : 0 < (high - low).toNat := by omega

/-- What a call of a function does with its arguments. -/
def Function.plan (name : Text) : Function → List Expr → Plan
  | randRange, [low, high] =>
    .integer name low fun low => .integer name high fun high =>
      if h : high ≤ low then .fail name (.emptyRange ⟨low, high⟩)
      else .draw (high - low).toNat (toNat_sub_pos h) fun n => .done (.ok (.integer (low + n.val)))
  | sample, [.list _ items] =>
    if h : items = [] then .fail name .emptyList
    else .draw items.length (List.length_pos_iff.mpr h) fun i =>
      .text name items[i] fun t => .done (.ok (.text t))
  | sample, [population] => .text name population (.character name)
  | join, [.list _ items] => .texts name items fun t => .done (.ok (.text t))
  | join, [_] => .fail name .expectedList
  | .repeat, [count, body] =>
    .integer name count fun times =>
      if times < 1 then .fail name (.repeatCount times)
      else .texts name (List.replicate times.toNat body) fun t => .done (.ok (.text t))
  | chr, [code] => .integer name code fun n => .check name (ofCode n) fun t => .done (.ok (.text t))
  | str, [number] =>
    .integer name number fun n =>
      .check name ((Numeral.write n).mapError .numeral) fun t => .done (.ok (.text t))
  | function, args => .fail name (.arity function args.length)

/-- What an expression does. -/
def plan : Expr → Plan
  | string _ value => .done (.ok (.text value))
  | integer _ value => .done (.ok (.integer value))
  | list _ items => .values items fun values => .done (.ok (.list values))
  | call _ name args =>
    match Function.ofName? name with
    | none => .done (.error (.unknownFunction name))
    | some function => function.plan name args

/-! ### The evaluator -/

variable {σ : Type}

namespace Plan

variable (source : Source σ) (eval : Expr → Drawing σ Fault Value) (index : Nat)

/-- A plan of the expression at `index` carried out, with the given way to evaluate operands. -/
def run : Plan → Drawing σ Fault Value
  | done (.ok v) => pure v
  | done (.error cause) => throw ⟨cause, index⟩
  | operand x next => eval x >>= fun v => (next v).run
  | draw bound pos next => fun d =>
    (next ⟨(source.below bound d.state).1, source.below_lt bound d.state pos⟩).run
      ⟨(source.below bound d.state).2, bound :: d.asked⟩

variable (name : Text)

theorem run_check {α : Type} (result : Except CallError α) (next : α → Plan) :
    (check name result next).run source eval index =
      (Call.own ⟨index, name⟩ (Drawing.ofExcept result) >>= fun a => (next a).run source eval index) := by
  cases result <;> rfl

theorem run_integer (x : Expr) (next : Int → Plan) :
    (integer name x next).run source eval index =
      (Call.integer ⟨index, name⟩ (eval x) >>= fun n => (next n).run source eval index) := by
  simp only [integer, run, run_check, Call.integer, bind_assoc]

theorem run_text (x : Expr) (next : Text → Plan) :
    (text name x next).run source eval index =
      (Call.text ⟨index, name⟩ (eval x) >>= fun t => (next t).run source eval index) := by
  simp only [text, run, run_check, Call.text, bind_assoc]

theorem run_values (items : List Expr) (next : List Value → Plan) :
    (values items next).run source (evaluate source) index =
      (evaluateAll source items >>= fun vs => (next vs).run source (evaluate source) index) := by
  induction items generalizing next with
  | nil => simp only [values, evaluateAll, pure_bind]
  | cons x rest ih => simp only [values, evaluateAll, run, ih, bind_assoc, pure_bind]

theorem run_texts (items : List Expr) (next : Text → Plan) :
    (texts name items next).run source (evaluate source) index =
      (joinAll source ⟨index, name⟩ items >>= fun t => (next t).run source (evaluate source) index) := by
  induction items generalizing next with
  | nil => simp only [texts, joinAll, pure_bind]
  | cons x rest ih => simp only [texts, joinAll, run_text, ih, bind_assoc, pure_bind]

theorem run_repeated (n : Nat) (body : Expr) (next : Text → Plan) :
    (texts name (List.replicate n body) next).run source (evaluate source) index =
      (Drawing.repeated n (Call.text ⟨index, name⟩ (evaluate source body)) >>= fun t =>
        (next t).run source (evaluate source) index) := by
  rw [run_texts]
  congr 1
  induction n with
  | zero => rfl
  | succ n ih => rw [Drawing.repeated_succ, List.replicate_succ, joinAll, ih]

theorem run_draw (call : Call) {bound : Nat} {pos : 0 < bound} {low high : Int}
    (h : high = low + bound) {k : Int → Drawing σ Fault Value} {next : Fin bound → Plan}
    (hk : ∀ n, k (low + n.val) = (next n).run source eval call.index) :
    (call.draw source low high >>= k) = (draw bound pos next).run source eval call.index := by
  obtain rfl : bound = (high - low).toNat := by omega
  have hlt : low < high := by omega
  funext d
  have hdraw := Drawing.outcome_mapError (fun e => Fault.mk (.failedCall call.name e) call.index)
    (Drawing.outcome_mapError CallError.emptyRange (Drawing.outcome_inRange_eq source hlt d))
  exact (Drawing.outcome_bind hdraw).trans (congrFun (hk ⟨_, source.below_lt _ d.state pos⟩) _)

theorem run_character (call : Call) (chars : Text) :
    call.sampleText source chars = (character call.name chars).run source eval call.index := by
  rw [character]
  by_cases h : chars = []
  · rw [dif_pos h, h]
    rfl
  · have hempty : chars.isEmpty = false := by simp [h]
    rw [dif_neg h, Call.sampleText, hempty]
    funext d
    have hdraw := Drawing.outcome_mapError (fun e => Fault.mk (.failedCall call.name e) call.index)
      (Drawing.outcome_mapError CallError.emptyRange
        (Drawing.outcome_element_eq source (List.length_pos_iff.mpr h) d))
    exact Drawing.outcome_bind hdraw

end Plan

theorem evaluateAt_eq (source : Source σ) (items : List Expr) (i : Nat) (h : i < items.length) :
    evaluateAt source i items = evaluate source items[i] := by
  induction items generalizing i with
  | nil => exact absurd h (Nat.not_lt_zero i)
  | cons x rest ih =>
    cases i with
    | zero => rfl
    | succ i => exact ih i (Nat.lt_of_succ_lt_succ h)

theorem Function.ofName?_eq_some {name : Text} {function : Function}
    (h : Function.ofName? name = some function) : name = function.name := by
  simpa [eq_comm] using List.find?_some h

section
variable (source : Source σ) (index : Nat)

open Plan

/-- A call of the function is evaluated by the function's plan. -/
def GoesByPlan (function : Function) (args : List Expr) : Prop :=
  evaluate source (.call index function.name args) =
    (function.plan function.name args).run source (evaluate source) index

theorem goesByPlan_randRange (args : List Expr) : GoesByPlan source index .randRange args := by
  let call : Call := ⟨index, Function.randRange.name⟩
  match args with
  | [] => rfl
  | [_] => rfl
  | [low, high] =>
    show (do
      let low ← call.integer (evaluate source low)
      let high ← call.integer (evaluate source high)
      return Value.integer (← call.draw source low high)) = _
    rw [Function.plan, run_integer]
    refine bind_congr fun low => ?_
    rw [run_integer]
    refine bind_congr fun high => ?_
    by_cases h : high ≤ low
    · rw [dif_pos h, Call.draw, Drawing.inRange, if_pos h]
      rfl
    · rw [dif_neg h]
      exact run_draw source _ call (by omega) fun _ => rfl
  | _ :: _ :: _ :: _ => rfl

theorem goesByPlan_sample (args : List Expr) : GoesByPlan source index .sample args := by
  let call : Call := ⟨index, Function.sample.name⟩
  have hchars : ∀ population,
      (do
        let chars ← call.text (evaluate source population)
        call.sampleText source chars) =
      (text call.name population (character call.name)).run source (evaluate source) call.index := by
    intro population
    rw [run_text]
    exact bind_congr fun chars => run_character source _ call chars
  match args with
  | [] => rfl
  | [.list _ items] =>
    rw [GoesByPlan, Function.plan]
    by_cases h : items = []
    · rw [dif_pos h, h]
      rfl
    · have hempty : items.isEmpty = false := by simp [h]
      show (if items.isEmpty then call.own (throw .emptyList)
        else do
          let i ← call.draw source 0 items.length
          return Value.text (← call.text (evaluateAt source i.toNat items))) = _
      rw [dif_neg h, hempty]
      refine run_draw source _ call (by omega) fun n => ?_
      rw [Int.zero_add, Int.toNat_natCast, evaluateAt_eq source items n n.isLt, run_text]
      rfl
  | [.string _ _] => exact hchars _
  | [.integer _ _] => exact hchars _
  | [.call _ _ _] => exact hchars _
  | x :: _ :: _ => cases x <;> rfl

theorem goesByPlan_join (args : List Expr) : GoesByPlan source index .join args := by
  match args with
  | [] => rfl
  | [.list _ items] =>
    rw [GoesByPlan, Function.plan, run_texts]
    rfl
  | [.string _ _] => rfl
  | [.integer _ _] => rfl
  | [.call _ _ _] => rfl
  | x :: _ :: _ => cases x <;> rfl

theorem goesByPlan_repeat (args : List Expr) : GoesByPlan source index .repeat args := by
  let call : Call := ⟨index, Function.repeat.name⟩
  match args with
  | [] => rfl
  | [_] => rfl
  | [count, body] =>
    show (do
      let times ← call.integer (evaluate source count)
      if times < 1 then call.own (throw (CallError.repeatCount times))
      else return Value.text (← Drawing.repeated times.toNat (call.text (evaluate source body)))) = _
    rw [Function.plan, run_integer]
    refine bind_congr fun times => ?_
    split
    · rfl
    · rw [run_repeated]
      rfl
  | _ :: _ :: _ :: _ => rfl

theorem goesByPlan_chr (args : List Expr) : GoesByPlan source index .chr args := by
  match args with
  | [] => rfl
  | [code] =>
    rw [GoesByPlan, Function.plan, run_integer]
    simp only [run_check]
    rfl
  | _ :: _ :: _ => rfl

theorem goesByPlan_str (args : List Expr) : GoesByPlan source index .str args := by
  match args with
  | [] => rfl
  | [number] =>
    rw [GoesByPlan, Function.plan, run_integer]
    simp only [run_check]
    rfl
  | _ :: _ :: _ => rfl

/-- An expression is evaluated by its plan. -/
theorem evaluate_eq_run (e : Expr) :
    evaluate source e = e.plan.run source (evaluate source) e.index := by
  cases e with
  | string => rfl
  | integer => rfl
  | list i items =>
    rw [plan, run_values]
    rfl
  | call i name args =>
    rw [plan]
    cases hname : Function.ofName? name with
    | none =>
      rw [evaluate]
      · rfl
      · exact hname
    | some function =>
      obtain rfl := Function.ofName?_eq_some hname
      cases function with
      | randRange => exact goesByPlan_randRange source i args
      | sample => exact goesByPlan_sample source i args
      | join => exact goesByPlan_join source i args
      | «repeat» => exact goesByPlan_repeat source i args
      | chr => exact goesByPlan_chr source i args
      | str => exact goesByPlan_str source i args

end

/-! ### Operands and results -/

/-- How a call may fail on its own account if the values of its operands have the property. -/
def CallError.Arises (V : Value → Prop) : CallError → Prop
  | emptyRange range => V (.integer range.low) ∧ V (.integer range.high)
  | repeatCount n => V (.integer n) ∧ n < 1
  | numeral error => ∃ n, V (.integer n) ∧ Numeral.write n = .error error
  | _ => True

theorem arises_of_ofCode {V : Value → Prop} {n : Int} {error : CallError}
    (h : ofCode n = .error error) : error.Arises V := by
  unfold ofCode at h
  split at h
  · cases h
    trivial
  · split at h
    · cases h
      trivial
    · split at h
      · cases h
      · cases h
        trivial

theorem arises_of_write {V : Value → Prop} {n : Int} (hn : V (.integer n)) {error : CallError}
    (h : (Numeral.write n).mapError CallError.numeral = .error error) : error.Arises V := by
  cases hwrite : Numeral.write n with
  | ok t =>
    rw [hwrite] at h
    cases h
  | error e =>
    rw [hwrite] at h
    cases h
    exact ⟨n, hn, hwrite⟩

namespace Plan

variable {P : Expr → Prop} {V : Value → Prop} {R : Except Cause Value → Prop} (name : Text)

/-- All operands that the plan may ask for have the property `P`, and what comes of it has the property
`R` as long as the operands have values with the property `V`. -/
def Upholds (P : Expr → Prop) (V : Value → Prop) (R : Except Cause Value → Prop) : Plan → Prop
  | done result => R result
  | operand x next => P x ∧ ∀ v, V v → (next v).Upholds P V R
  | draw _ _ next => ∀ n, (next n).Upholds P V R

theorem Upholds.mono {Q : Expr → Prop} (h : ∀ x, P x → Q x) {p : Plan} (hp : p.Upholds P V R) :
    p.Upholds Q V R := by
  induction p with
  | done => exact hp
  | operand x next ih => exact ⟨h x hp.1, fun v hv => ih v (hp.2 v hv)⟩
  | draw bound pos next ih => exact fun n => ih n (hp n)

theorem values_upholds {items : List Expr} {next : List Value → Plan} (hitems : ∀ x ∈ items, P x)
    (h : ∀ vs, (next vs).Upholds P V R) : (values items next).Upholds P V R := by
  induction items generalizing next with
  | nil => exact h []
  | cons x rest ih =>
    obtain ⟨hx, hrest⟩ := List.forall_mem_cons.mp hitems
    exact ⟨hx, fun v _ => ih hrest fun others => h (v :: others)⟩

section
variable (herror : ∀ error : CallError, error.Arises V → R (.error (.failedCall name error)))

include herror

theorem check_upholds {α : Type} {result : Except CallError α} {next : α → Plan}
    (h : ∀ a, result = .ok a → (next a).Upholds P V R)
    (harises : ∀ error, result = .error error → error.Arises V) :
    (check name result next).Upholds P V R := by
  cases result with
  | ok a => exact h a rfl
  | error error => exact herror error (harises error rfl)

theorem integer_upholds {x : Expr} {next : Int → Plan} (hx : P x)
    (h : ∀ n, V (.integer n) → (next n).Upholds P V R) : (integer name x next).Upholds P V R := by
  refine ⟨hx, fun v hv => ?_⟩
  cases v with
  | integer n => exact h n hv
  | text => exact herror _ trivial
  | list => exact herror _ trivial

theorem text_upholds {x : Expr} {next : Text → Plan} (hx : P x) (h : ∀ t, (next t).Upholds P V R) :
    (text name x next).Upholds P V R := by
  refine ⟨hx, fun v _ => ?_⟩
  cases v with
  | text t => exact h t
  | integer => exact herror _ trivial
  | list => exact herror _ trivial

theorem texts_upholds {items : List Expr} {next : Text → Plan} (hitems : ∀ x ∈ items, P x)
    (h : ∀ t, (next t).Upholds P V R) : (texts name items next).Upholds P V R := by
  induction items generalizing next with
  | nil => exact h []
  | cons x rest ih =>
    obtain ⟨hx, hrest⟩ := List.forall_mem_cons.mp hitems
    exact text_upholds name herror hx fun first => ih hrest fun others => h (first ++ others)

theorem character_upholds (htext : ∀ t, R (.ok (.text t))) (chars : Text) :
    (character name chars).Upholds P V R := by
  rw [character]
  split
  · exact herror _ trivial
  · exact fun _ => htext _

end

/-- All operands that the plan may ask for have the property. -/
abbrev Asks (P : Expr → Prop) : Plan → Prop := Upholds P (fun _ => True) fun _ => True

end Plan

open Plan in
/-- A function asks for its arguments and for the elements of lists among them. What comes of a call is
a drawn integer, a text or a failure of the call itself. -/
theorem Function.plan_upholds {P : Expr → Prop} {V : Value → Prop} {R : Except Cause Value → Prop}
    (name : Text) (function : Function) {args : List Expr} (hargs : ∀ x ∈ args, P x)
    (hlist : ∀ i items, .list i items ∈ args → ∀ x ∈ items, P x)
    (hinteger : ∀ low high n : Int, V (.integer low) → V (.integer high) → low ≤ n → n < high →
      R (.ok (.integer n)))
    (htext : ∀ t, R (.ok (.text t)))
    (herror : ∀ error : CallError, error.Arises V → R (.error (.failedCall name error))) :
    (function.plan name args).Upholds P V R := by
  fun_cases Function.plan name function args with
  | case1 low high =>
    refine integer_upholds name herror (hargs low (by simp)) fun low hlow => ?_
    refine integer_upholds name herror (hargs high (by simp)) fun high hhigh => ?_
    split
    · exact herror _ ⟨hlow, hhigh⟩
    · exact fun n => hinteger low high _ hlow hhigh (by omega) (by omega)
  | case2 | case6 | case10 => exact herror _ trivial
  | case3 i items h =>
    exact fun n => text_upholds name herror (hlist i items (by simp) _ (List.getElem_mem _)) htext
  | case4 population =>
    exact text_upholds name herror (hargs population (by simp)) (character_upholds name herror htext)
  | case5 i items => exact texts_upholds name herror (hlist i items (by simp)) htext
  | case7 count body =>
    refine integer_upholds name herror (hargs count (by simp)) fun times htimes => ?_
    split
    · exact herror _ ⟨htimes, ‹times < 1›⟩
    · have hbody : ∀ x ∈ List.replicate times.toNat body, P x := fun x hx =>
        List.eq_of_mem_replicate hx ▸ hargs body (by simp)
      exact texts_upholds name herror hbody htext
  | case8 code =>
    exact integer_upholds name herror (hargs code (by simp)) fun n _ =>
      check_upholds name herror (fun t _ => htext t) fun _ => arises_of_ofCode
  | case9 number =>
    exact integer_upholds name herror (hargs number (by simp)) fun n hn =>
      check_upholds name herror (fun t _ => htext t) fun _ => arises_of_write hn

theorem depth_le_depthAll {x : Expr} {items : List Expr} (h : x ∈ items) : x.depth ≤ depthAll items := by
  induction h with
  | head => exact Nat.le_max_left _ _
  | tail _ _ ih => exact Nat.le_trans ih (Nat.le_max_right _ _)

/-- Operands are nested less deeply. -/
theorem plan_asks_depth (e : Expr) : e.plan.Asks fun x => x.depth < e.depth := by
  cases e with
  | string => trivial
  | integer => trivial
  | list i items =>
    exact Plan.values_upholds (fun x hx => Nat.lt_succ_of_le (depth_le_depthAll hx)) fun _ => trivial
  | call i name args =>
    have hargs : ∀ x ∈ args, x.depth < depthAll args + 1 := fun x hx =>
      Nat.lt_succ_of_le (depth_le_depthAll hx)
    rw [plan]
    split
    · trivial
    · refine Function.plan_upholds name _ hargs (fun i items hitems x hx => ?_)
        (fun _ _ _ _ _ _ _ => trivial) (fun _ => trivial) fun _ _ => trivial
      exact Nat.lt_trans (Nat.lt_succ_of_le (depth_le_depthAll hx)) (hargs _ hitems)

end RandomText.Expr
