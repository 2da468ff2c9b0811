import RandomText.Draw.Replay
import RandomText.Proofs.Expr.Execution
import RandomText.Proofs.Expr.Reading

/-!
# Which call a fault is about

A fault that comes of an expression is that of one call in it. Up to that call all is quiet: every call
that was evaluated returned, and the call itself failed on its own account. Behind it the fault passes
through the calls around the failed one, from the inside out, and nothing is drawn any more. The fault
bears the index and the name of the failed call, and the text of the call stands there.
-/

namespace RandomText.Expr

variable {σ : Type}

/-! ### Calls around an expression -/

/-- `c` stands inside of an expression, and the `outer` calls of the expression are those around it,
from the inside out. -/
inductive Inside : List Expr → Expr → Expr → Prop where
  | here {e : Expr} : Inside [] e e
  | item {i : Nat} {items outer : List Expr} {x c : Expr} : x ∈ items → Inside outer x c →
      Inside outer (.list i items) c
  | arg {i : Nat} {name : Text} {args outer : List Expr} {x c : Expr} : x ∈ args →
      Inside outer x c → Inside (outer ++ [.call i name args]) (.call i name args) c

theorem Inside.trans {outer inner : List Expr} {e x c : Expr} (h : Inside outer e x)
    (h' : Inside inner x c) : Inside (inner ++ outer) e c := by
  induction h with
  | here => rwa [List.append_nil]
  | item hx _ ih => exact .item hx (ih h')
  | arg hx _ ih =>
    rw [← List.append_assoc]
    exact .arg hx (ih h')

theorem nodes_subset_nodesAll {x : Expr} {items : List Expr} (h : x ∈ items) :
    x.nodes ⊆ nodesAll items := by
  induction h with
  | head => exact List.subset_append_left _ _
  | tail _ _ ih => exact List.subset_append_of_subset_right _ ih

theorem mem_nodes_self (e : Expr) : e ∈ e.nodes := by
  cases e <;> exact List.mem_cons_self

theorem Inside.mem_nodes {outer : List Expr} {e c : Expr} (h : Inside outer e c) : c ∈ e.nodes := by
  induction h with
  | @here e => exact mem_nodes_self e
  | item hx _ ih => exact List.mem_cons_of_mem _ (nodes_subset_nodesAll hx ih)
  | arg hx _ ih => exact List.mem_cons_of_mem _ (nodes_subset_nodesAll hx ih)

/-! ### Own faults -/

/-- A cause that names the call that is the expression. -/
def Cause.Names (cause : Cause) (e : Expr) : Prop :=
  ∃ index name args, e = .call index name args ∧
    (cause = .unknownFunction name ∨ ∃ error, cause = .failedCall name error)

/-- If the expression failed on its own account, then in its own name. -/
def OwnFault (e : Expr) : Except Cause Value → Prop
  | .ok _ => True
  | .error cause => cause.Names e

/-- The operands that a plan asks for stand directly inside of the expression, and if it fails on its
own account, then in the name of the expression. -/
abbrev Plan.KeepsTo (e : Expr) : Plan → Prop :=
  Upholds (Inside e.asCall e) (fun _ => True) (OwnFault e)

theorem plan_keepsTo (e : Expr) : e.plan.KeepsTo e := by
  cases e with
  | string => trivial
  | integer => trivial
  | list i items => exact Plan.values_upholds (fun x hx => .item hx .here) fun _ => trivial
  | call i name args =>
    rw [plan]
    split
    · exact ⟨i, name, args, rfl, .inl rfl⟩
    · exact Function.plan_upholds name _ (fun x hx => .arg hx .here)
        (fun j items hitems x hx => .arg hitems (.item hx .here)) (fun _ _ _ _ _ _ _ => trivial)
        (fun _ => trivial) fun error _ => ⟨i, name, args, rfl, .inr ⟨error, rfl⟩⟩

/-! ### Traces -/

/-- Nothing failed so far: every call that was evaluated returned. -/
def Quiet (trace : List Event) : Prop :=
  ∀ event ∈ trace, (∃ bound, event = .asked bound) ∨ ∃ call v, event = .returned call v

theorem Quiet.append {front back : List Event} (h : Quiet front) (h' : Quiet back) :
    Quiet (front ++ back) := fun event hevent =>
  (List.mem_append.mp hevent).elim (h event) (h' event)

theorem Quiet.asked {trace : List Event} (h : Quiet trace) (bound : Nat) :
    Quiet (.asked bound :: trace) := by
  intro event hevent
  rcases List.mem_cons.mp hevent with rfl | hevent
  · exact .inl ⟨bound, rfl⟩
  · exact h event hevent

/-- The bounds that the source was asked for, in order. -/
def bounds (trace : List Event) : List Nat :=
  trace.filterMap fun
    | .asked bound => some bound
    | _ => none

theorem bounds_append (front back : List Event) : bounds (front ++ back) = bounds front ++ bounds back :=
  List.filterMap_append

theorem bounds_map {calls : List Expr} {event : Expr → Event} (h : ∀ call, bounds [event call] = []) :
    bounds (calls.map event) = [] := by
  induction calls with
  | nil => rfl
  | cons call calls ih =>
    rw [List.map_cons, ← List.singleton_append, bounds_append, h, ih, List.append_nil]

/-- The fault of an expression is that of the call, which stands inside of the `outer` calls. In `front`
is what happened before. -/
structure Blames (e : Expr) (fault : Fault) (front : List Event) (call : Expr) (outer : List Expr) :
    Prop where
  quiet : Quiet front
  inside : Inside outer e call
  index : call.index = fault.index
  names : fault.cause.Names call

section performs
variable {source : Source σ} {e : Expr} {p : Plan} {d d' : Draws σ} {trace : List Event}

theorem Performs.bounds_eq {r : Except Fault Value} (h : Performs source e p d trace r d') :
    d'.bounds = d.bounds ++ bounds trace := by
  induction h with
  | returned => rw [bounds_map fun _ => rfl, List.append_nil]
  | failed => exact (List.append_nil _).symm
  | passed _ ih => rw [ih, bounds_append, bounds_map fun _ => rfl, List.append_nil]
  | operand _ _ ih ihnext => rw [ihnext, ih, bounds_append, List.append_assoc]
  | draw _ ih =>
    rw [ih]
    simp [Draws.bounds, bounds]

theorem Performs.quiet {v : Value} (h : Performs source e p d trace (.ok v) d') : Quiet trace := by
  generalize hr : (Except.ok v : Except Fault Value) = r at h
  induction h generalizing v with
  | returned =>
    intro event hevent
    obtain ⟨call, -, rfl⟩ := List.mem_map.mp hevent
    exact .inr ⟨call, _, rfl⟩
  | failed => cases hr
  | passed => cases hr
  | operand _ _ ih ihnext => exact (ih rfl).append (ihnext hr)
  | draw _ ih => exact (ih hr).asked _

/-- A fault that comes of an expression is that of a call inside of it, and passes through the calls
around that call. -/
theorem Performs.blames {fault : Fault} (h : Performs source e p d trace (.error fault) d')
    (hp : p.KeepsTo e) :
    ∃ front call outer, trace = front ++ .failed call fault.cause :: outer.map .passed ∧
      Blames e fault front call outer := by
  generalize hr : (Except.error fault : Except Fault Value) = r at h
  induction h generalizing fault with
  | returned => cases hr
  | @failed e cause d =>
    cases hr
    exact ⟨[], e, [], rfl, nofun, .here, rfl, hp⟩
  | @passed e x next d d' trace fault' hx ih =>
    cases hr
    obtain ⟨front, call, outer, rfl, hquiet, hinside, hindex, hnames⟩ := ih (plan_keepsTo x) rfl
    exact ⟨front, call, outer ++ e.asCall, by simp, hquiet, hp.1.trans hinside, hindex, hnames⟩
  | operand hx _ _ ihnext =>
    obtain ⟨front, call, outer, rfl, hquiet, hinside, hindex, hnames⟩ := ihnext (hp.2 _ trivial) hr
    exact ⟨_, call, outer, (List.append_assoc _ _ _).symm, hx.quiet.append hquiet, hinside, hindex,
      hnames⟩
  | draw _ ih =>
    obtain ⟨front, call, outer, rfl, hquiet, hinside, hindex, hnames⟩ := ih (hp _) hr
    exact ⟨.asked _ :: front, call, outer, rfl, hquiet.asked _, hinside, hindex, hnames⟩

end performs

theorem Cause.Names.message {cause : Cause} {i : Nat} {name : Text} {args : List Expr}
    (h : cause.Names (.call i name args)) :
    cause.message = "Unknown function '" ++ name ++ "'" ∨ ∃ why, cause.message = name ++ "(): " ++ why := by
  obtain ⟨_, _, _, hcall, hcause⟩ := h
  cases hcall
  rcases hcause with rfl | ⟨error, rfl⟩
  · exact .inl rfl
  · exact .inr ⟨error.message, rfl⟩

theorem Renders.name_isPrefix {source : Text} {e : Expr} (h : Renders source e) {i : Nat} {name : Text}
    {args : List Expr} (hcall : .call i name args ∈ e.nodes) : name <+: source.drop i := by
  obtain ⟨before, c, t, after, rfl, rfl, -, ls, hls, hwritten⟩ := h.standsIn hcall
  rw [List.drop_left]
  refine List.IsPrefix.trans ?_ (List.prefix_append _ after)
  cases hls with
  | call =>
    generalize c :: t = own at hwritten ⊢
    cases hwritten with
    | @cons _ gap word rest _ _ _ hindex hword _ =>
      -- The call stands where its text begins, so that nothing is in front of the name.
      obtain rfl : gap = [] := List.length_eq_zero_iff.mp (by simp only [Expr.index] at hindex; omega)
      cases hword with
      | name => exact List.prefix_append _ rest

/-- **A fault names and locates the call that failed.** Running a text that can be read fails because the
whole has a value that is no text, with nothing failed on the way, or because a call in it failed on its
own account, the first one that did. The fault is that of this call, whose text stands at the index of the
fault, and it passes unchanged through the calls around it. Nothing is drawn after it. -/
theorem run_error_blames [CallStack] (source : Source σ) (text : Text) (d d' : Draws σ) (e : Expr)
    (error : RunError) (hread : read text = .ok e) (hrun : (run source text).outcome d = (.error error, d')) :
    (∃ v trace, Evaluates source e d trace (.ok v) d' ∧ Quiet trace ∧ (∀ t, v ≠ .text t) ∧
      error = .notAText v.typeName e.index ∧ d'.bounds = d.bounds ++ bounds trace) ∨
    ∃ index name args cause front outer,
      error = .fault ⟨cause, index⟩ ∧ Inside outer e (.call index name args) ∧
      name <+: text.drop index ∧
      (error.message text = "Unknown function '" ++ name ++ "'" ∨
        ∃ why, error.message text = name ++ "(): " ++ why) ∧
      Evaluates source e d (front ++ .failed (.call index name args) cause :: outer.map .passed)
        (.error ⟨cause, index⟩) d' ∧
      Quiet front ∧ d'.bounds = d.bounds ++ bounds front := by
  obtain ⟨trace, r, d₁, hevaluates, hsettled⟩ := exists_evaluates source hread d
  obtain ⟨herror, rfl⟩ := Prod.mk.inj (hsettled.symm.trans hrun)
  have hbounds := hevaluates.bounds_eq
  match r with
  | .ok (.text t) => cases herror
  | .ok (.integer n) =>
    cases herror
    exact .inl ⟨_, trace, hevaluates, hevaluates.quiet, nofun, rfl, hbounds⟩
  | .ok (.list items) =>
    cases herror
    exact .inl ⟨_, trace, hevaluates, hevaluates.quiet, nofun, rfl, hbounds⟩
  | .error ⟨cause, index⟩ =>
    cases herror
    obtain ⟨front, call, outer, rfl, hquiet, hinside, rfl, hnames⟩ := hevaluates.blames (plan_keepsTo e)
    have ⟨index, name, args, hcall, _⟩ := hnames
    subst hcall
    refine .inr ⟨index, name, args, cause, front, outer, rfl, hinside,
      (renders_of_read hread).name_isPrefix hinside.mem_nodes, hnames.message, hevaluates, hquiet, ?_⟩
    rw [hbounds, bounds_append]
    congr 1
    show bounds front ++ bounds (outer.map .passed) = bounds front
    rw [bounds_map fun _ => rfl, List.append_nil]

/-- The theorem at a call that fails behind a draw, inside of three others. -/
theorem run_error_blames_nested :
    ∃ e name args front outer,
      read "join([sample(\"ab\"), repeat(2, chr(rand_range(3, 1)))])" = .ok e ∧
      (run Replay.source "join([sample(\"ab\"), repeat(2, chr(rand_range(3, 1)))])").outcome
          (.start (.start [1] 0)) =
        (.error (.fault ⟨.failedCall "rand_range" (.emptyRange ⟨3, 1⟩), 34⟩), ⟨⟨[], 0⟩, [2]⟩) ∧
      Inside outer e (.call 34 name args) ∧ Quiet front ∧ bounds front = [2] := by
  have hread : read "join([sample(\"ab\"), repeat(2, chr(rand_range(3, 1)))])" =
      .ok (.call 0 "join" [.list 5 [.call 6 "sample" [.string 13 "ab"],
        .call 20 "repeat" [.integer 27 2,
          .call 30 "chr" [.call 34 "rand_range" [.integer 45 3, .integer 48 1]]]]]) := by cbv
  have hrun : (run Replay.source "join([sample(\"ab\"), repeat(2, chr(rand_range(3, 1)))])").outcome
      (.start (.start [1] 0)) =
        (.error (.fault ⟨.failedCall "rand_range" (.emptyRange ⟨3, 1⟩), 34⟩), ⟨⟨[], 0⟩, [2]⟩) := by
    rw [run, hread]
    rfl
  rcases run_error_blames Replay.source _ _ _ _ _ hread hrun with
    ⟨v, trace, -, -, -, herror, -⟩ |
    ⟨index, name, args, cause, front, outer, herror, hinside, -, -, -, hquiet, hbounds⟩
  · cases herror
  · cases herror
    exact ⟨_, name, args, front, outer, hread, hrun, hinside, hquiet, hbounds.symm⟩

end RandomText.Expr
