import RandomText.Proofs.Expr.Evaluation
import RandomText.Proofs.Expr.Planning

/-!
# What happens while an expression is evaluated

Evaluation told once more, with all that happens on the way. Five rules say what comes of a plan
(`Performs`), and they leave a trace of the bounds asked for, of the calls that returned, of the call
that failed, and of the calls that its fault passed through.

The evaluator follows the rules (`evaluates_outcome`), and there is only one way to do so
(`Performs.unique`). What the plans uphold is upheld by the whole evaluation (`Performs.upholds`).
-/

namespace RandomText.Expr

/-! ### Rules -/

/-- What happens while an expression is evaluated. -/
inductive Event where
  /-- The source was asked for a number below the bound. -/
  | asked (bound : Nat)
  | returned (call : Expr) (value : Value)
  /-- The call failed on its own account. -/
  | failed (call : Expr) (cause : Cause)
  /-- The fault of a call inside of this one passed through it. -/
  | passed (call : Expr)

/-- The expression itself, if it is a call. -/
def asCall : Expr → List Expr
  | call index name args => [call index name args]
  | _ => []

variable {σ : Type}

/-- What comes of an expression that goes on with a plan, from the given draws: what happens, the value
or the fault, and the draws after it. -/
inductive Performs (source : Source σ) :
    Expr → Plan → Draws σ → List Event → Except Fault Value → Draws σ → Prop where
  | returned {e : Expr} {v : Value} {d : Draws σ} :
    Performs source e (.done (.ok v)) d (e.asCall.map (.returned · v)) (.ok v) d
  | failed {e : Expr} {cause : Cause} {d : Draws σ} :
    Performs source e (.done (.error cause)) d [.failed e cause] (.error ⟨cause, e.index⟩) d
  | passed {e x : Expr} {next : Value → Plan} {d d' : Draws σ} {trace : List Event} {fault : Fault} :
    Performs source x x.plan d trace (.error fault) d' →
    Performs source e (.operand x next) d (trace ++ e.asCall.map .passed) (.error fault) d'
  | operand {e x : Expr} {next : Value → Plan} {d d' d'' : Draws σ} {trace others : List Event}
      {v : Value} {r : Except Fault Value} :
    Performs source x x.plan d trace (.ok v) d' → Performs source e (next v) d' others r d'' →
    Performs source e (.operand x next) d (trace ++ others) r d''
  | draw {e : Expr} {bound : Nat} {pos : 0 < bound} {next : Fin bound → Plan} {d d' : Draws σ}
      {trace : List Event} {r : Except Fault Value} :
    Performs source e (next ⟨(source.below bound d.state).1, source.below_lt bound d.state pos⟩)
      ⟨(source.below bound d.state).2, bound :: d.asked⟩ trace r d' →
    Performs source e (.draw bound pos next) d (.asked bound :: trace) r d'

/-- What comes of evaluating an expression. -/
def Evaluates (source : Source σ) (e : Expr) (d : Draws σ) (trace : List Event)
    (r : Except Fault Value) (d' : Draws σ) : Prop :=
  Performs source e e.plan d trace r d'

/-- Only one thing comes of a plan. -/
theorem Performs.unique {source : Source σ} {e : Expr} {p : Plan} {d d₁ d₂ : Draws σ}
    {trace₁ trace₂ : List Event} {r₁ r₂ : Except Fault Value} (h : Performs source e p d trace₁ r₁ d₁)
    (h' : Performs source e p d trace₂ r₂ d₂) : trace₁ = trace₂ ∧ r₁ = r₂ ∧ d₁ = d₂ := by
  induction h generalizing trace₂ r₂ d₂ with
  | returned =>
    cases h'
    exact ⟨rfl, rfl, rfl⟩
  | failed =>
    cases h'
    exact ⟨rfl, rfl, rfl⟩
  | passed _ ih =>
    cases h' with
    | passed hx =>
      obtain ⟨rfl, hr, rfl⟩ := ih hx
      exact ⟨rfl, hr, rfl⟩
    | operand hx _ => exact absurd (ih hx).2.1 nofun
  | operand _ _ ih ihnext =>
    cases h' with
    | passed hx => exact absurd (ih hx).2.1 nofun
    | operand hx hnext =>
      obtain ⟨rfl, hr, rfl⟩ := ih hx
      obtain rfl := Except.ok.inj hr
      obtain ⟨rfl, rfl, rfl⟩ := ihnext hnext
      exact ⟨rfl, rfl, rfl⟩
  | draw _ ih =>
    cases h' with
    | draw hnext =>
      obtain ⟨rfl, rfl, rfl⟩ := ih hnext
      exact ⟨rfl, rfl, rfl⟩

/-- What plans uphold is upheld by the evaluation that goes by them. -/
theorem Performs.upholds {source : Source σ} {P : Expr → Prop} {V : Value → Prop}
    {R : Except Cause Value → Prop} (hplan : ∀ x, P x → x.plan.Upholds P V R)
    (hvalue : ∀ v, R (.ok v) → V v) {e : Expr} {p : Plan} {d d' : Draws σ} {trace : List Event}
    {r : Except Fault Value} (h : Performs source e p d trace r d') (hp : p.Upholds P V R) :
    R (r.mapError Fault.cause) := by
  induction h with
  | returned => exact hp
  | failed => exact hp
  | @passed e x next d d' trace fault _ ih => exact ih (hplan x hp.1)
  | @operand e x next d d' d'' trace others v r _ _ ih ihnext =>
    exact ihnext (hp.2 v (hvalue v (ih (hplan x hp.1))))
  | draw _ ih => exact ih (hp _)

/-! ### The evaluator -/

theorem Plan.exists_performs (source : Source σ) {p : Plan}
    (h : p.Asks fun x => ∀ d, ∃ trace, Evaluates source x d trace
      ((evaluate source x).outcome d).1 ((evaluate source x).outcome d).2) (e : Expr) (d : Draws σ) :
    ∃ trace, Performs source e p d trace ((p.run source (evaluate source) e.index).outcome d).1
      ((p.run source (evaluate source) e.index).outcome d).2 := by
  induction p generalizing d with
  | done result =>
    cases result with
    | ok v => exact ⟨_, .returned⟩
    | error cause => exact ⟨_, .failed⟩
  | draw bound pos next ih =>
    obtain ⟨trace, htrace⟩ := ih _ (h _) _
    exact ⟨_, .draw htrace⟩
  | operand x next ih =>
    obtain ⟨trace, hx⟩ := h.1 d
    rcases heval : (evaluate source x).outcome d with ⟨fault | v, d'⟩
    · rw [heval] at hx
      rw [run, Drawing.outcome_bind_error heval]
      exact ⟨_, .passed hx⟩
    · rw [heval] at hx
      obtain ⟨others, hnext⟩ := ih v (h.2 v trivial) d'
      rw [run, Drawing.outcome_bind heval]
      exact ⟨_, .operand hx hnext⟩

/-- What the evaluator computes comes of the expression by the rules. -/
theorem evaluates_outcome (source : Source σ) (e : Expr) (d : Draws σ) :
    ∃ trace, Evaluates source e d trace ((evaluate source e).outcome d).1
      ((evaluate source e).outcome d).2 := by
  -- Operands are nested less deeply, and what they evaluate to is known by induction on the depth.
  induction hdepth : e.depth using Nat.strong_induction_on generalizing e d with
  | h n ih =>
    rw [evaluate_eq_run]
    refine Plan.exists_performs source ((plan_asks_depth e).mono fun x hx d => ?_) e d
    exact ih x.depth (hdepth ▸ hx) x d rfl

/-! ### Whole texts -/

variable [CallStack]

/-- What comes of a text whose expression, at `index`, is evaluated. -/
def settled (index : Nat) : Except Fault Value → Except RunError Text
  | .ok (.text t) => .ok t
  | .ok v => .error (.notAText v.typeName index)
  | .error fault => .error (.fault fault)

theorem exists_evaluates (source : Source σ) {text : Text} {e : Expr} (hread : read text = .ok e)
    (d : Draws σ) : ∃ trace r d', Evaluates source e d trace r d' ∧
      (run source text).outcome d = (settled e.index r, d') := by
  obtain ⟨trace, htrace⟩ := evaluates_outcome source e d
  refine ⟨trace, _, _, htrace, ?_⟩
  have hexpr : ((Drawing.ofExcept (read text)).mapError RunError.unreadable).outcome d = (.ok e, d) := by
    rw [hread]
    rfl
  rw [run, Drawing.outcome_bind hexpr]
  rcases heval : (evaluate source e).outcome d with ⟨fault | v, d'⟩
  · rw [Drawing.outcome_bind_error (Drawing.outcome_mapError_error _ heval)]
    rfl
  · rw [Drawing.outcome_bind (Drawing.outcome_mapError _ heval)]
    cases v <;> rfl

end RandomText.Expr
