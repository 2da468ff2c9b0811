import RandomText.Expr.Evaluate
import RandomText.Pattern.Generate
import RandomText.Proofs.Drawing
import RandomText.Proofs.Numeral

/-!
# Calls that draw like nodes

What each function of the expression language computes from arguments that are fit for it, compared
with the computation of pattern trees that is lowered to a call of it. No statement here depends on
the indices of the expressions.
-/

namespace RandomText.Expr

open Drawing

variable {σ ε : Type} (source : Source σ) (i j k l : Nat)

/-- The expression evaluates to the text that the computation generates, from the same draws. -/
abbrev Yields (x : Drawing σ ε Text) (e : Expr) : Prop :=
  Agree (fun _ => True) Value.text x (evaluate source e)

theorem yields_string (t : Text) :
    Yields source (pure t : Drawing σ ε Text) (.string i t) := Agree.pure trivial

/-! ### Arguments -/

theorem agree_text {call : Call} {x : Drawing σ ε Text} {y : Drawing σ Fault Value}
    (h : Agree (fun _ => True) Value.text x y) : Agree (fun _ => True) id x (call.text y) :=
  h.bind_right fun _ _ => rfl

theorem agree_randRange {low high : Nat} (h : low < high) (call : Call) :
    Agree (fun n => (low : Int) ≤ n ∧ n < high) id (inRange source low high)
      (call.integer (evaluate source
        (.call i Function.randRange.name [.integer j low, .integer k high]))) := by
  let inner : Call := ⟨i, Function.randRange.name⟩
  have heval : evaluate source (.call i Function.randRange.name [.integer j low, .integer k high]) =
      (inner.draw source low high >>= fun n => pure (.integer n)) := rfl
  have hdraw : Agree (fun n => (low : Int) ≤ n ∧ n < high) id (inRange source low high)
      (inner.draw source low high) :=
    ((agree_inRange source (Int.ofNat_lt.mpr h)).mapError_right _).mapError_right _
  rw [heval]
  have hvalue : Agree (fun n => (low : Int) ≤ n ∧ n < high) Value.integer (inRange source low high)
      (inner.draw source low high >>= fun n => pure (.integer n)) :=
    hdraw.bind_right fun _ _ => rfl
  exact hvalue.bind_right fun _ _ => rfl

/-! ### Leaves -/

theorem yields_str {low high : Nat} (h : low < high) (hhigh : high < 10 ^ Numeral.maxDigits) :
    Yields source (decimalInRange source low high)
      (.call i Function.str.name
        [.call j Function.randRange.name [.integer k low, .integer l high]]) := by
  let call : Call := ⟨i, Function.str.name⟩
  have hdraw := (agree_randRange source j k l h call).mapError_left GenerateError.empty
  refine hdraw.bind fun n hn => ?_
  obtain ⟨m, rfl⟩ := Int.eq_ofNat_of_zero_le (Int.le_trans (Int.natCast_nonneg low) hn.1)
  have hm : m < 10 ^ Numeral.maxDigits := Nat.lt_trans (Int.ofNat_lt.mp hn.2) hhigh
  have hwrite := Numeral.write_eq_ok hm
  show Agree _ _ ((Drawing.ofExcept (Numeral.write m)).mapError GenerateError.numeral)
    (call.own (Drawing.ofExcept ((Numeral.write m).mapError CallError.numeral)) >>=
      fun t => pure (Value.text t))
  rw [hwrite]
  exact fun d => ⟨Numeral.digits m, d, trivial, rfl, rfl⟩

theorem ofCode_eq_ok {m : Nat} (h : m < 0x110000) : ofCode m = .ok [⟨m, h⟩] := by
  have hcode : CodePoint.ofNat? m = some ⟨m, h⟩ := dif_pos h
  rw [ofCode, if_neg (by omega), if_neg (by omega), Int.toNat_natCast, hcode]

theorem yields_chr {low high : Nat} (h : low < high) (hhigh : high ≤ 0x110000) :
    Yields source (codeInRange source low high)
      (.call i Function.chr.name
        [.call j Function.randRange.name [.integer k low, .integer l high]]) := by
  let call : Call := ⟨i, Function.chr.name⟩
  have hdraw := (agree_randRange source j k l h call).mapError_left GenerateError.empty
  refine hdraw.bind fun n hn => ?_
  obtain ⟨m, rfl⟩ := Int.eq_ofNat_of_zero_le (Int.le_trans (Int.natCast_nonneg low) hn.1)
  have hm : m < 0x110000 := Nat.lt_of_lt_of_le (Int.ofNat_lt.mp hn.2) hhigh
  have hcode : CodePoint.ofNat? m = some ⟨m, hm⟩ := dif_pos hm
  show Agree _ _ (pure (CodePoint.ofNat? m).toList)
    (call.own (Drawing.ofExcept (ofCode m)) >>= fun t => pure (Value.text t))
  rw [ofCode_eq_ok hm, hcode]
  exact fun d => ⟨[⟨m, hm⟩], d, trivial, rfl, rfl⟩

theorem yields_sample {chars : Text} (h : chars ≠ []) :
    Yields source (character source chars) (.call i Function.sample.name [.string j chars]) := by
  let call : Call := ⟨i, Function.sample.name⟩
  have heval : evaluate source (.call i Function.sample.name [.string j chars]) =
      (if chars.isEmpty then call.own (throw .emptyString)
        else do
          let c ← call.own ((element source chars).mapError .emptyRange)
          return .text [c]) := rfl
  have hdraw : Agree (fun c => c ∈ chars) id ((element source chars).mapError GenerateError.empty)
      (call.own ((element source chars).mapError .emptyRange)) :=
    (((agree_element source h).mapError_left _).mapError_right _).mapError_right _
  rw [Yields, heval, if_neg (by rw [List.isEmpty_iff]; exact h)]
  exact hdraw.bind fun c _ => Agree.pure trivial

/-! ### Groups and repetitions -/

theorem yields_repeat {x : Drawing σ ε Text} {e : Expr} (h : Yields source x e) {n : Nat}
    (hn : 1 ≤ n) :
    Yields source (repeated n x) (.call i Function.repeat.name [.integer j n, e]) := by
  let call : Call := ⟨i, Function.repeat.name⟩
  have heval : evaluate source (.call i Function.repeat.name [.integer j n, e]) =
      (if (n : Int) < 1 then call.own (throw (.repeatCount n))
        else do
          let t ← repeated n (call.text (evaluate source e))
          return .text t) := rfl
  rw [Yields, heval, if_neg (by omega)]
  exact ((agree_text h).repeated n).bind_right fun _ _ => rfl

theorem yields_join {x : Drawing σ ε Text} {es : List Expr}
    (h : Agree (fun _ => True) id x (joinAll source ⟨i, Function.join.name⟩ es)) :
    Yields source x (.call i Function.join.name [.list j es]) :=
  h.bind_right fun _ _ => rfl

theorem yields_choice {x : Nat → Drawing σ GenerateError Text} {es : List Expr} (hne : es ≠ [])
    (h : ∀ n, n < es.length → Agree (fun _ => True) Value.text (x n) (evaluateAt source n es)) :
    Yields source
      (do
        let n ← (inRange source 0 es.length).mapError GenerateError.empty
        x n.toNat)
      (.call i Function.sample.name [.list j es]) := by
  let call : Call := ⟨i, Function.sample.name⟩
  have heval : evaluate source (.call i Function.sample.name [.list j es]) =
      (if es.isEmpty then call.own (throw .emptyList)
        else do
          let n ← call.draw source 0 es.length
          return .text (← call.text (evaluateAt source n.toNat es))) := rfl
  have hlength : 0 < es.length := List.length_pos_iff.mpr hne
  have hdraw : Agree (fun n => (0 : Int) ≤ n ∧ n < es.length) id
      ((inRange source 0 es.length).mapError GenerateError.empty) (call.draw source 0 es.length) :=
    (((agree_inRange source (by omega)).mapError_left _).mapError_right _).mapError_right _
  rw [Yields, heval, if_neg (by rw [List.isEmpty_iff]; exact hne)]
  refine hdraw.bind fun n hn => ?_
  exact (agree_text (h n.toNat (by omega))).bind_right fun _ _ => rfl

/-! ### Whole texts -/

theorem outcome_run_of_text [CallStack] {text t : Text} {e : Expr} {d d' : Draws σ}
    (hread : read text = .ok e) (h : (evaluate source e).outcome d = (.ok (.text t), d')) :
    (run source text).outcome d = (.ok t, d') := by
  have hexpr : ((Drawing.ofExcept (read text)).mapError RunError.unreadable).outcome d = (.ok e, d) := by
    rw [hread]
    rfl
  rw [run, outcome_bind hexpr, outcome_bind (outcome_mapError _ h)]
  rfl

theorem outcome_run_unreadable [CallStack] (source : Source σ) {text : Text} {error : ReadError}
    (hread : read text = .error error) (d : Draws σ) :
    (run source text).outcome d = (.error (.unreadable error), d) := by
  have hexpr : ((Drawing.ofExcept (read text)).mapError RunError.unreadable).outcome d =
      (.error (.unreadable error), d) := by
    rw [hread]
    rfl
  rw [run, outcome_bind_error hexpr]

end RandomText.Expr
