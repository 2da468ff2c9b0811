import RandomText.Proofs.Expr.Planning

/-!
# Elements that are not drawn

What stands in a list that is sampled from has an effect only where it is drawn. Two expressions are
compared that differ in one element of one such list (`DifferIn`), anywhere inside of lists and calls.
`Visits` says from which draws an inner expression is evaluated while the whole is evaluated: not at
all, or as often as a repetition around it runs.

The main statement, `evaluate_of_spares`, goes up from the list to the whole, with one lemma for each
way in which an expression evaluates those in it.
-/

namespace RandomText

namespace Expr

open Drawing

variable {σ : Type}

/-! ### Two expressions and what is evaluated in them -/

/-- In the list of the sample call at the path, the second expression has another element number `k`.
Apart from that they are the same. A path counts the elements of lists and the arguments of calls. -/
inductive DifferIn (k : Nat) : List Nat → Expr → Expr → Prop where
  | here {i j : Nat} {before after : List Expr} {x y : Expr} : before.length = k →
      DifferIn k [] (.call i Function.sample.name [.list j (before ++ x :: after)])
        (.call i Function.sample.name [.list j (before ++ y :: after)])
  | item {i : Nat} {before after : List Expr} {path : List Nat} {x y : Expr} : DifferIn k path x y →
      DifferIn k (before.length :: path) (.list i (before ++ x :: after))
        (.list i (before ++ y :: after))
  | arg {i : Nat} {name : Text} {before after : List Expr} {path : List Nat} {x y : Expr} :
      DifferIn k path x y →
      DifferIn k (before.length :: path) (.call i name (before ++ x :: after))
        (.call i name (before ++ y :: after))

/-- The expression is a list as it stands. -/
def IsList (e : Expr) : Prop := ∃ i items, e = .list i items

theorem not_isList_call (i : Nat) (name : Text) (args : List Expr) : ¬IsList (.call i name args) := by
  rintro ⟨j, items, ⟨⟩⟩

/-- While the expression is evaluated from the draws `d`, the expression `c` at the path in it is
evaluated from the draws `d'`. -/
inductive Visits (source : Source σ) : List Nat → Expr → Draws σ → Expr → Draws σ → Prop where
  | here {e : Expr} {d : Draws σ} : Visits source [] e d e d
  /-- The elements of a list are evaluated in order. -/
  | item {i : Nat} {before after : List Expr} {path : List Nat} {x c : Expr} {d d₁ d' : Draws σ}
      {vs : List Value} : (evaluateAll source before).outcome d = (.ok vs, d₁) →
      Visits source path x d₁ c d' →
      Visits source (before.length :: path) (.list i (before ++ x :: after)) d c d'
  /-- The first argument is evaluated, unless it is a list that the function takes as it stands. -/
  | first {i : Nat} {f : Function} {rest : List Expr} {path : List Nat} {x c : Expr} {d d' : Draws σ} :
      rest.length + 1 = f.parameters.length → f ≠ .join → (f = .sample → ¬ x.IsList) →
      Visits source path x d c d' →
      Visits source (0 :: path) (.call i f.name (x :: rest)) d c d'
  /-- The upper bound of a range is evaluated behind the lower one. -/
  | high {i : Nat} {path : List Nat} {low x c : Expr} {d d₁ d' : Draws σ} {n : Int} :
      (evaluate source low).outcome d = (.ok (.integer n), d₁) → Visits source path x d₁ c d' →
      Visits source (1 :: path) (.call i Function.randRange.name [low, x]) d c d'
  /-- Only the drawn element of a list is evaluated. -/
  | drawn {i j : Nat} {before after : List Expr} {path : List Nat} {x c : Expr} {d d' : Draws σ}
      {items : List Expr} : items = before ++ x :: after →
      (source.below items.length d.state).1 = before.length →
      Visits source path x ⟨(source.below items.length d.state).2, items.length :: d.asked⟩ c d' →
      Visits source (0 :: before.length :: path) (.call i Function.sample.name [.list j items]) d c d'
  /-- What is joined is evaluated in order. -/
  | joined {i j : Nat} {before after : List Expr} {path : List Nat} {x c : Expr} {d d₁ d' : Draws σ}
      {t : Text} : (joinAll source ⟨i, Function.join.name⟩ before).outcome d = (.ok t, d₁) →
      Visits source path x d₁ c d' →
      Visits source (0 :: before.length :: path)
        (.call i Function.join.name [.list j (before ++ x :: after)]) d c d'
  /-- The body of a repetition is evaluated behind its count and behind the runs before. -/
  | body {i : Nat} {path : List Nat} {count x c : Expr} {d d₁ d₂ d' : Draws σ} {times : Int} {m : Nat}
      {t : Text} : (evaluate source count).outcome d = (.ok (.integer times), d₁) → m < times.toNat →
      (repeated m (Call.text ⟨i, Function.repeat.name⟩ (evaluate source x))).outcome d₁ = (.ok t, d₂) →
      Visits source path x d₂ c d' →
      Visits source (1 :: path) (.call i Function.repeat.name [count, x]) d c d'

/-- While the expression is evaluated from the draws, no evaluation of the sample call at the path draws
the number `k` from its list. -/
def Spares (source : Source σ) (k : Nat) (path : List Nat) (e : Expr) (d : Draws σ) : Prop :=
  ∀ i j items d', Visits source path e d (.call i Function.sample.name [.list j items]) d' →
    (source.below items.length d'.state).1 ≠ k

variable {source : Source σ}

/-- The expression at a path. -/
def at? : List Nat → Expr → Option Expr
  | [], e => some e
  | n :: path, .list _ items => items[n]?.bind (at? path)
  | n :: path, .call _ _ args => args[n]?.bind (at? path)
  | _ :: _, _ => none

theorem Visits.at?_eq {path : List Nat} {e c : Expr} {d d' : Draws σ}
    (h : Visits source path e d c d') : e.at? path = some c := by
  induction h with
  | here => rfl
  | item _ _ ih => simpa [at?] using ih
  | first _ _ _ _ ih => exact ih
  | high _ _ ih => exact ih
  | drawn hitems _ _ ih => simpa [at?, hitems] using ih
  | joined _ _ ih => simpa [at?] using ih
  | body _ _ _ _ ih => exact ih

/-! ### Evaluation step by step -/

theorem evaluateAll_append (before after : List Expr) :
    evaluateAll source (before ++ after) = (do
      let vs ← evaluateAll source before
      let ws ← evaluateAll source after
      return vs ++ ws) := by
  induction before with
  | nil => simp only [evaluateAll, List.nil_append, pure_bind, bind_pure]
  | cons x before ih =>
    simp only [List.cons_append, evaluateAll, ih, bind_assoc, pure_bind]

theorem joinAll_append (call : Call) (before after : List Expr) :
    joinAll source call (before ++ after) = (do
      let s ← joinAll source call before
      let t ← joinAll source call after
      return s ++ t) := by
  induction before with
  | nil => simp only [joinAll, List.nil_append, pure_bind, bind_pure]
  | cons x before ih =>
    simp only [List.cons_append, joinAll, ih, bind_assoc, pure_bind, List.append_assoc]

theorem evaluate_of_arity (i : Nat) (f : Function) {args : List Expr}
    (h : args.length ≠ f.parameters.length) :
    evaluate source (.call i f.name args) = Call.own ⟨i, f.name⟩ (throw (.arity f args.length)) := by
  match f, args, h with
  | .randRange, [], _ => rfl
  | .randRange, [_], _ => rfl
  | .randRange, [_, _], h => exact absurd rfl h
  | .randRange, _ :: _ :: _ :: _, _ => rfl
  | .sample, [], _ => rfl
  | .sample, [_], h => exact absurd rfl h
  | .sample, x :: _ :: _, _ => cases x <;> rfl
  | .join, [], _ => rfl
  | .join, [_], h => exact absurd rfl h
  | .join, x :: _ :: _, _ => cases x <;> rfl
  | .repeat, [], _ => rfl
  | .repeat, [_], _ => rfl
  | .repeat, [_, _], h => exact absurd rfl h
  | .repeat, _ :: _ :: _ :: _, _ => rfl
  | .chr, [], _ => rfl
  | .chr, [_], h => exact absurd rfl h
  | .chr, _ :: _ :: _, _ => rfl
  | .str, [], _ => rfl
  | .str, [_], h => exact absurd rfl h
  | .str, _ :: _ :: _, _ => rfl

theorem exists_evaluate_first (source : Source σ) (i : Nat) (f : Function) (rest : List Expr)
    (harity : rest.length + 1 = f.parameters.length) (hjoin : f ≠ .join) :
    ∃ k : Value → Drawing σ Fault Value, ∀ x, (f = .sample → ¬ x.IsList) →
      evaluate source (.call i f.name (x :: rest)) = evaluate source x >>= k := by
  match f, rest, harity with
  | .randRange, [high], _ => exact ⟨_, fun x _ => bind_assoc _ _ _⟩
  | .sample, [], _ =>
    let call : Call := ⟨i, Function.sample.name⟩
    refine ⟨fun v => call.own (Drawing.ofExcept v.toText) >>= call.sampleText source, fun x hx => ?_⟩
    cases x with
    | list j items => exact absurd ⟨j, items, rfl⟩ (hx rfl)
    | _ => exact bind_assoc _ _ _
  | .join, _, _ => exact absurd rfl hjoin
  | .repeat, [body], _ => exact ⟨_, fun x _ => bind_assoc _ _ _⟩
  | .chr, [], _ => exact ⟨_, fun x _ => bind_assoc _ _ _⟩
  | .str, [], _ => exact ⟨_, fun x _ => bind_assoc _ _ _⟩

theorem outcome_sample (i j : Nat) {items : List Expr} (h : items ≠ []) (d : Draws σ) :
    (evaluate source (.call i Function.sample.name [.list j items])).outcome d =
      (do
        let t ← Call.text ⟨i, Function.sample.name⟩
          (evaluateAt source (source.below items.length d.state).1 items)
        return Value.text t : Drawing σ Fault Value).outcome
        ⟨(source.below items.length d.state).2, items.length :: d.asked⟩ := by
  have hlt := source.below_lt items.length d.state (List.length_pos_iff.mpr h)
  have hplan : (Expr.call i Function.sample.name [.list j items]).plan =
      .draw items.length (List.length_pos_iff.mpr h) fun n =>
        .text Function.sample.name items[n] fun t => .done (.ok (.text t)) := dif_neg h
  rw [evaluate_eq_run, hplan, evaluateAt_eq source items _ hlt]
  exact congrFun (Plan.run_text source _ _ _ _ _) _

theorem evaluateAt_length (before after : List Expr) (x : Expr) :
    evaluateAt source before.length (before ++ x :: after) = evaluate source x := by
  induction before with
  | nil => rfl
  | cons _ before ih => exact ih

theorem evaluateAt_of_ne {n : Nat} {before : List Expr} (h : n ≠ before.length) (after : List Expr)
    (x y : Expr) :
    evaluateAt source n (before ++ y :: after) = evaluateAt source n (before ++ x :: after) := by
  induction before generalizing n with
  | nil =>
    cases n with
    | zero => exact absurd rfl h
    | succ n => rfl
  | cons _ before ih =>
    cases n with
    | zero => rfl
    | succ n => exact ih fun hn => h (congrArg Nat.succ hn)

theorem Call.outcome_integer_eq_ok {call : Call} {x : Drawing σ Fault Value} {d d' : Draws σ} {n : Int}
    (h : (call.integer x).outcome d = (.ok n, d')) : x.outcome d = (.ok (.integer n), d') := by
  obtain ⟨v, d₁, hx, hv⟩ := outcome_bind_eq_ok h
  cases v with
  | integer m =>
    cases hv
    exact hx
  | text => cases hv
  | list => cases hv

theorem Call.outcome_integer (call : Call) {x : Drawing σ Fault Value} {d d' : Draws σ} {n : Int}
    (h : x.outcome d = (.ok (.integer n), d')) : (call.integer x).outcome d = (.ok n, d') :=
  outcome_bind h

/-- What is visited is evaluated: if it fails, then the whole fails with its fault. -/
theorem Visits.outcome_error {path : List Nat} {e c : Expr} {d d' d'' : Draws σ} {fault : Fault}
    (h : Visits source path e d c d') (hc : (evaluate source c).outcome d' = (.error fault, d'')) :
    (evaluate source e).outcome d = (.error fault, d'') := by
  induction h with
  | here => exact hc
  | item hvs _ ih =>
    refine outcome_bind_error ?_
    rw [evaluateAll_append, outcome_bind hvs]
    exact outcome_bind_error (outcome_bind_error (ih hc))
  | first harity hjoin hx _ ih =>
    obtain ⟨l, hl⟩ := exists_evaluate_first source _ _ _ harity hjoin
    rw [hl _ hx]
    exact outcome_bind_error (ih hc)
  | @high i _ _ _ _ _ _ _ _ hlow _ ih =>
    have hlow := Call.outcome_integer ⟨i, Function.randRange.name⟩ hlow
    exact (outcome_bind hlow).trans (outcome_bind_error (outcome_bind_error (ih hc)))
  | drawn hitems hdrawn _ ih =>
    rw [outcome_sample _ _ (by simp [hitems]), hdrawn, hitems, evaluateAt_length, ← hitems]
    exact outcome_bind_error (outcome_bind_error (ih hc))
  | joined ht _ ih =>
    refine outcome_bind_error ?_
    rw [joinAll_append, outcome_bind ht]
    exact outcome_bind_error (outcome_bind_error (outcome_bind_error (ih hc)))
  | @body i path count x c d d₁ d₂ d' times m t hcount hm ht _ ih =>
    have hcount := Call.outcome_integer ⟨i, Function.repeat.name⟩ hcount
    refine (outcome_bind hcount).trans ?_
    rw [if_neg (by omega)]
    exact outcome_bind_error (outcome_repeated_error hm ht (outcome_bind_error (ih hc)))

/-! ### From the list to the whole -/

section alike

variable {i j : Nat} {before after : List Expr} {x y : Expr} {d : Draws σ}

theorem outcome_sample_congr
    (h : (source.below (before ++ x :: after).length d.state).1 = before.length →
      (evaluate source y).outcome ⟨(source.below (before ++ x :: after).length d.state).2,
          (before ++ x :: after).length :: d.asked⟩ =
        (evaluate source x).outcome ⟨(source.below (before ++ x :: after).length d.state).2,
          (before ++ x :: after).length :: d.asked⟩) :
    (evaluate source (.call i Function.sample.name [.list j (before ++ y :: after)])).outcome d =
      (evaluate source (.call i Function.sample.name [.list j (before ++ x :: after)])).outcome d := by
  have hlength : (before ++ y :: after).length = (before ++ x :: after).length := by simp
  rw [outcome_sample i j (by simp), outcome_sample i j (by simp), hlength]
  refine outcome_bind_congr (outcome_bind_congr ?_ fun _ _ _ => rfl) fun _ _ _ => rfl
  by_cases hdrawn : (source.below (before ++ x :: after).length d.state).1 = before.length
  · rw [hdrawn, evaluateAt_length, evaluateAt_length]
    exact h hdrawn
  · rw [evaluateAt_of_ne hdrawn after x y]

theorem outcome_evaluateAll_congr
    (h : ∀ vs d₁, (evaluateAll source before).outcome d = (.ok vs, d₁) →
      (evaluate source y).outcome d₁ = (evaluate source x).outcome d₁) :
    (evaluateAll source (before ++ y :: after)).outcome d =
      (evaluateAll source (before ++ x :: after)).outcome d := by
  rw [evaluateAll_append, evaluateAll_append]
  refine outcome_bind_congr rfl fun vs d₁ hvs => ?_
  exact outcome_bind_congr (outcome_bind_congr (h vs d₁ hvs) fun _ _ _ => rfl) fun _ _ _ => rfl

theorem outcome_joinAll_congr {call : Call}
    (h : ∀ t d₁, (joinAll source call before).outcome d = (.ok t, d₁) →
      (evaluate source y).outcome d₁ = (evaluate source x).outcome d₁) :
    (joinAll source call (before ++ y :: after)).outcome d =
      (joinAll source call (before ++ x :: after)).outcome d := by
  rw [joinAll_append, joinAll_append]
  refine outcome_bind_congr rfl fun t d₁ ht => ?_
  have htext : (call.text (evaluate source y)).outcome d₁ = (call.text (evaluate source x)).outcome d₁ :=
    outcome_bind_congr (h t d₁ ht) fun _ _ _ => rfl
  exact outcome_bind_congr (outcome_bind_congr htext fun _ _ _ => rfl) fun _ _ _ => rfl

end alike

/-- Where the sample call at the path spares the element, the second expression evaluates like the first
one. -/
def Alike (source : Source σ) (k : Nat) (path : List Nat) (e e' : Expr) : Prop :=
  ∀ d, Spares source k path e d → (evaluate source e').outcome d = (evaluate source e).outcome d

namespace Alike

variable {k i j : Nat} {path : List Nat} {x y : Expr}

theorem item (before after : List Expr) (h : Alike source k path x y) :
    Alike source k (before.length :: path) (.list i (before ++ x :: after))
      (.list i (before ++ y :: after)) := fun _ hd =>
  outcome_bind_congr
    (outcome_evaluateAll_congr fun _ d₁ hvs => h d₁ fun _ _ _ _ hvisit => hd _ _ _ _ (.item hvs hvisit))
    fun _ _ _ => rfl

theorem first {f : Function} {rest : List Expr} (harity : rest.length + 1 = f.parameters.length)
    (hjoin : f ≠ .join) (hx : f = .sample → ¬ x.IsList) (hy : f = .sample → ¬ y.IsList)
    (h : Alike source k path x y) :
    Alike source k (0 :: path) (.call i f.name (x :: rest)) (.call i f.name (y :: rest)) := by
  intro d hd
  obtain ⟨l, hl⟩ := exists_evaluate_first source i f rest harity hjoin
  rw [hl x hx, hl y hy]
  refine outcome_bind_congr (h d fun _ _ _ _ hvisit => ?_) fun _ _ _ => rfl
  exact hd _ _ _ _ (.first harity hjoin hx hvisit)

theorem high (low : Expr) (h : Alike source k path x y) :
    Alike source k (1 :: path) (.call i Function.randRange.name [low, x])
      (.call i Function.randRange.name [low, y]) := by
  intro d hd
  refine outcome_bind_congr rfl fun n d₁ hn => ?_
  refine outcome_bind_congr (outcome_bind_congr (h d₁ fun _ _ _ _ hvisit => ?_) fun _ _ _ => rfl)
    fun _ _ _ => rfl
  exact hd _ _ _ _ (.high (Call.outcome_integer_eq_ok hn) hvisit)

theorem drawn (before after : List Expr) (h : Alike source k path x y) :
    Alike source k (0 :: before.length :: path)
      (.call i Function.sample.name [.list j (before ++ x :: after)])
      (.call i Function.sample.name [.list j (before ++ y :: after)]) := fun _ hd =>
  outcome_sample_congr fun hdrawn => h _ fun _ _ _ _ hvisit => hd _ _ _ _ (.drawn rfl hdrawn hvisit)

theorem joined (before after : List Expr) (h : Alike source k path x y) :
    Alike source k (0 :: before.length :: path)
      (.call i Function.join.name [.list j (before ++ x :: after)])
      (.call i Function.join.name [.list j (before ++ y :: after)]) := fun _ hd =>
  outcome_bind_congr
    (outcome_joinAll_congr fun _ d₁ ht => h d₁ fun _ _ _ _ hvisit => hd _ _ _ _ (.joined ht hvisit))
    fun _ _ _ => rfl

theorem body (count : Expr) (h : Alike source k path x y) :
    Alike source k (1 :: path) (.call i Function.repeat.name [count, x])
      (.call i Function.repeat.name [count, y]) := by
  intro d hd
  refine outcome_bind_congr rfl fun times d₁ htimes => ?_
  by_cases hlt : times < 1
  · rw [if_pos hlt, if_pos hlt]
  rw [if_neg hlt, if_neg hlt]
  refine outcome_bind_congr (outcome_repeated_congr fun m hm t d₂ ht => ?_) fun _ _ _ => rfl
  refine outcome_bind_congr (h d₂ fun _ _ _ _ hvisit => ?_) fun _ _ _ => rfl
  exact hd _ _ _ _ (.body (Call.outcome_integer_eq_ok htimes) hm ht hvisit)

end Alike

theorem Function.arity_cases {f : Function} {before after : List Expr} {x : Expr}
    (h : (before ++ x :: after).length = f.parameters.length) :
    before = [] ∧ after.length + 1 = f.parameters.length ∨
      ∃ first, before = [first] ∧ after = [] ∧ (f = .randRange ∨ f = .repeat) := by
  match before with
  | [] => exact .inl ⟨rfl, h⟩
  | [first] =>
    refine .inr ⟨first, rfl, ?_⟩
    cases f <;> simp_all [Function.parameters]
  | _ :: _ :: before => cases f <;> simp [Function.parameters] at h

theorem DifferIn.alike_arg {k : Nat} {path : List Nat} {x y : Expr} (h : DifferIn k path x y)
    (ih : ∀ path' x' y', path'.length ≤ path.length → DifferIn k path' x' y' →
      Alike source k path' x' y') (i : Nat) (name : Text) (before after : List Expr) :
    Alike source k (before.length :: path) (.call i name (before ++ x :: after))
      (.call i name (before ++ y :: after)) := by
  have hxy := ih path x y (Nat.le_refl _) h
  cases hname : Function.ofName? name with
  | none =>
    intro d _
    have hunknown : ∀ args, evaluate source (.call i name args) =
        throw ⟨.unknownFunction name, i⟩ := fun args => by rw [evaluate_eq_run, plan, hname]; rfl
    rw [hunknown, hunknown]
  | some f =>
    obtain rfl := Function.ofName?_eq_some hname
    by_cases harity : (before ++ x :: after).length = f.parameters.length
    · obtain ⟨rfl, hafter⟩ | ⟨first, rfl, rfl, rfl | rfl⟩ := Function.arity_cases harity
      · -- Lists are taken as they stand by two functions, so that their elements are the operands.
        by_cases hsample : f = .sample
        · subst hsample
          obtain rfl := List.length_eq_zero_iff.mp (Nat.succ.inj hafter)
          cases h with
          | item hinner => exact (ih _ _ _ (Nat.le_succ _) hinner).drawn _ _
          | here | arg =>
            exact hxy.first rfl (by decide) (fun _ => not_isList_call _ _ _) fun _ => not_isList_call _ _ _
        by_cases hjoin : f = .join
        · subst hjoin
          obtain rfl := List.length_eq_zero_iff.mp (Nat.succ.inj hafter)
          cases h with
          | item hinner => exact (ih _ _ _ (Nat.le_succ _) hinner).joined _ _
          | here | arg => exact fun _ _ => rfl
        exact hxy.first hafter hjoin (absurd · hsample) (absurd · hsample)
      · exact hxy.high first
      · exact hxy.body first
    · intro d _
      have hlength : (before ++ y :: after).length = (before ++ x :: after).length := by simp
      rw [evaluate_of_arity i f harity, evaluate_of_arity i f (hlength ▸ harity), hlength]

/-- **Elements that are not drawn have no effect.** Two expressions that differ in one element of one
list that is sampled from have the same outcome, value or fault, and ask the source for the same bounds,
if no evaluation of the sample call draws this element while the first one is evaluated. -/
theorem evaluate_of_spares (source : Source σ) {k : Nat} {path : List Nat} {e e' : Expr}
    (h : DifferIn k path e e') (d : Draws σ) (hspares : Spares source k path e d) :
    (evaluate source e').outcome d = (evaluate source e).outcome d := by
  suffices halike : Alike source k path e e' from halike d hspares
  clear hspares d
  -- What differs in an argument may be inside of a list there, two steps further down the path.
  induction hlength : path.length using Nat.strong_induction_on generalizing path e e' with
  | h n ih =>
    cases h with
    | @here i j before after x y hk =>
      exact fun d hd => outcome_sample_congr fun hdrawn => absurd (hdrawn.trans hk) (hd i j _ d .here)
    | @item i before after path x y hxy =>
      exact (ih path.length (by rw [← hlength]; exact Nat.lt_succ_self _) hxy rfl).item before after
    | @arg i name before after path x y hxy =>
      refine hxy.alike_arg (fun path' x' y' hle h' => ?_) i name before after
      exact ih path'.length (by rw [← hlength]; exact Nat.lt_succ_of_le hle) h' rfl

/-- The first and the last number below each bound in turn. -/
def ends : Source Nat where
  below bound n := (if n % 2 = 0 then 0 else bound - 1, n + 1)
  below_lt bound n h := by
    show (if n % 2 = 0 then 0 else bound - 1) < bound
    split <;> omega

/-- The theorem at an element that would fail, in a repetition of which every run draws another one. -/
theorem evaluate_of_spares_repeat :
    ∃ e e', read "join([repeat(2, sample([\"a\", \"b\", \"c\"]))])" = .ok e ∧
      read "join([repeat(2, sample([\"a\", b(), \"c\"]))])" = .ok e' ∧
      DifferIn 1 [0, 0, 1] e e' ∧ Spares ends 1 [0, 0, 1] e (.start 0) ∧
      (evaluate ends e').outcome (.start 0) = (.ok (.text "ac"), ⟨2, [3, 3]⟩) := by
  let letters (x : Expr) : Expr := .call 0 "join" [.list 5 [.call 6 "repeat" [.integer 13 2,
    .call 16 "sample" [.list 23 ([.string 24 "a"] ++ x :: [.string 34 "c"])]]]]
  have hdiffer : DifferIn 1 [0, 0, 1] (letters (.string 29 "b")) (letters (.call 29 "b" [])) :=
    @DifferIn.arg 1 0 "join" [] [] [0, 1] _ _
      (@DifferIn.item 1 5 [] [] [1] _ _ (@DifferIn.arg 1 6 "repeat" [.integer 13 2] [] [] _ _ (.here rfl)))
  have hspares : Spares ends 1 [0, 0, 1] (letters (.string 29 "b")) (.start 0) := by
    intro i j items d' hvisit
    cases hvisit.at?_eq
    show (if d'.state % 2 = 0 then 0 else 2) ≠ 1
    split <;> decide
  refine ⟨_, _, by cbv, by cbv, hdiffer, hspares, ?_⟩
  rw [evaluate_of_spares ends hdiffer _ hspares]
  rfl

end Expr

end RandomText
