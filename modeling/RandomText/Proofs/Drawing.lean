import RandomText.Draw.Source

/-!
# Computations that draw alike

Two computations agree if, from any draws, both succeed with corresponding values and leave the same
draws behind, so that they asked the source for the same bounds in the same order. Agreement is put
together from the steps of the computations (`Agree.bind`, `Agree.repeated`).
-/

namespace RandomText.Drawing

variable {σ ε ε' α β γ δ : Type} {P : α → Prop} {Q : γ → Prop} {f : α → β} {g : γ → δ}

/-- From any draws, `x` succeeds with a value that has the property `P`, `y` with its image under
`f`, and after both the draws are the same. -/
def Agree (P : α → Prop) (f : α → β) (x : Drawing σ ε α) (y : Drawing σ ε' β) : Prop :=
  ∀ d, ∃ a d', P a ∧ x.outcome d = (.ok a, d') ∧ y.outcome d = (.ok (f a), d')

/-! ### Outcomes -/

theorem outcome_bind {x : Drawing σ ε α} {k : α → Drawing σ ε β} {d d' : Draws σ} {a : α}
    (h : x.outcome d = (.ok a, d')) : (x >>= k).outcome d = (k a).outcome d' := by
  unfold outcome at h ⊢
  simp only [bind, ExceptT.bind, ExceptT.mk, StateT.bind]
  rw [h]
  rfl

theorem outcome_bind_error {x : Drawing σ ε α} {k : α → Drawing σ ε β} {d d' : Draws σ} {e : ε}
    (h : x.outcome d = (.error e, d')) : (x >>= k).outcome d = (.error e, d') := by
  unfold outcome at h ⊢
  simp only [bind, ExceptT.bind, ExceptT.mk, StateT.bind]
  rw [h]
  rfl

theorem outcome_bind_congr {x y : Drawing σ ε α} {k l : α → Drawing σ ε β} {d : Draws σ}
    (h : x.outcome d = y.outcome d)
    (hk : ∀ a d', y.outcome d = (.ok a, d') → (k a).outcome d' = (l a).outcome d') :
    (x >>= k).outcome d = (y >>= l).outcome d := by
  rcases hy : y.outcome d with ⟨e | a, d'⟩
  · rw [outcome_bind_error (h.trans hy), outcome_bind_error hy]
  · rw [outcome_bind (h.trans hy), outcome_bind hy, hk a d' hy]

theorem outcome_mapError {x : Drawing σ ε α} {d d' : Draws σ} {a : α} (φ : ε → ε')
    (h : x.outcome d = (.ok a, d')) : (x.mapError φ).outcome d = (.ok a, d') := by
  unfold outcome at h ⊢
  rw [mapError, h]

theorem outcome_mapError_error {x : Drawing σ ε α} {d d' : Draws σ} {e : ε} (φ : ε → ε')
    (h : x.outcome d = (.error e, d')) : (x.mapError φ).outcome d = (.error (φ e), d') := by
  unfold outcome at h ⊢
  rw [mapError, h]

theorem outcome_bind_eq_ok {x : Drawing σ ε α} {k : α → Drawing σ ε β} {d d'' : Draws σ} {b : β}
    (h : (x >>= k).outcome d = (.ok b, d'')) :
    ∃ a d', x.outcome d = (.ok a, d') ∧ (k a).outcome d' = (.ok b, d'') := by
  unfold outcome at h ⊢
  simp only [bind, ExceptT.bind, ExceptT.mk, StateT.bind] at h
  rcases hx : x d with ⟨e | a, d'⟩
  · rw [hx] at h
    cases h
  · rw [hx] at h
    exact ⟨a, d', rfl, h⟩

theorem outcome_mapError_eq_ok {x : Drawing σ ε α} {φ : ε → ε'} {d d' : Draws σ} {a : α}
    (h : (x.mapError φ).outcome d = (.ok a, d')) : x.outcome d = (.ok a, d') := by
  unfold outcome at h ⊢
  rw [mapError] at h
  rcases hx : x d with ⟨e | b, d₁⟩
  · rw [hx] at h
    cases h
  · rw [hx] at h
    cases h
    rfl

theorem outcome_inRange_eq (source : Source σ) {low high : Int} (h : low < high) (d : Draws σ) :
    (inRange source low high).outcome d =
      (.ok (low + (source.below (high - low).toNat d.state).1),
        ⟨(source.below (high - low).toNat d.state).2, (high - low).toNat :: d.asked⟩) := by
  rw [inRange, if_neg (Int.not_le.mpr h)]
  rfl

theorem outcome_inRange (source : Source σ) {low high : Int} (h : low < high) (d : Draws σ) :
    ∃ n d', (low ≤ n ∧ n < high) ∧ (inRange source low high).outcome d = (.ok n, d') := by
  have hpos : 0 < (high - low).toNat := by omega
  have hlt := source.below_lt _ d.state hpos
  exact ⟨_, _, ⟨by omega, by omega⟩, outcome_inRange_eq source h d⟩

theorem outcome_element_eq (source : Source σ) {items : List α} (h : 0 < items.length) (d : Draws σ) :
    (element source items).outcome d =
      (.ok (items.get ⟨(source.below items.length d.state).1, source.below_lt _ d.state h⟩),
        ⟨(source.below items.length d.state).2, items.length :: d.asked⟩) := by
  have hlt := source.below_lt items.length d.state h
  have hrange := outcome_inRange_eq source (Int.natCast_pos.mpr h) d
  simp only [Int.sub_zero, Int.toNat_natCast, Int.zero_add] at hrange
  rw [element, outcome_bind hrange, Int.toNat_natCast, List.getElem?_eq_getElem hlt]
  rfl

theorem repeatedOnto_eq (x : Drawing σ ε (List α)) (n : Nat) (parts : List (List α)) :
    repeatedOnto x n parts = (repeated n x >>= fun t => pure (parts.reverse.flatten ++ t)) := by
  unfold repeated
  -- Each run puts its output in front of the parts, which therefore vary.
  induction n generalizing parts with
  | zero =>
    simp only [repeatedOnto, pure_bind, List.reverse_nil, List.flatten_nil, List.append_nil]
  | succ n ih =>
    simp only [repeatedOnto, bind_assoc]
    refine bind_congr fun part => ?_
    rw [ih (part :: parts), ih [part]]
    simp

theorem repeated_succ (x : Drawing σ ε (List α)) (n : Nat) :
    repeated (n + 1) x = (do
      let first ← x
      let others ← repeated n x
      return first ++ others) := by
  show (x >>= fun part => repeatedOnto x n [part]) = _
  simp only [repeatedOnto_eq, List.reverse_singleton, List.flatten_cons, List.flatten_nil,
    List.append_nil]

theorem repeated_one (x : Drawing σ ε (List α)) : repeated 1 x = x := by
  rw [repeated_succ]
  simp [repeated, repeatedOnto]

theorem outcome_repeated_congr {x y : Drawing σ ε (List α)} {n : Nat} {d : Draws σ}
    (h : ∀ m < n, ∀ t d', (repeated m y).outcome d = (.ok t, d') → x.outcome d' = y.outcome d') :
    (repeated n x).outcome d = (repeated n y).outcome d := by
  induction n generalizing d with
  | zero => rfl
  | succ n ih =>
    rw [repeated_succ, repeated_succ]
    refine outcome_bind_congr (h 0 (Nat.succ_pos n) [] d rfl) fun first d₁ hfirst => ?_
    refine outcome_bind_congr (ih fun m hm t d' ht => ?_) fun _ _ _ => rfl
    refine h (m + 1) (Nat.succ_lt_succ hm) (first ++ t) d' ?_
    rw [repeated_succ, outcome_bind hfirst, outcome_bind ht]
    rfl

theorem outcome_repeated_error {x : Drawing σ ε (List α)} {m n : Nat} (hlt : m < n) {d d' d'' : Draws σ}
    {t : List α} {e : ε} (ht : (repeated m x).outcome d = (.ok t, d'))
    (hx : x.outcome d' = (.error e, d'')) : (repeated n x).outcome d = (.error e, d'') := by
  obtain ⟨n, rfl⟩ := Nat.exists_eq_add_of_lt hlt
  induction m generalizing d t with
  | zero =>
    obtain rfl : d = d' := congrArg Prod.snd ht
    rw [repeated_succ, outcome_bind_error hx]
  | succ m ih =>
    rw [repeated_succ] at ht
    obtain ⟨first, d₁, hfirst, ht⟩ := outcome_bind_eq_ok ht
    obtain ⟨others, d₂, hothers, ht⟩ := outcome_bind_eq_ok ht
    obtain rfl : d₂ = d' := congrArg Prod.snd ht
    rw [show m + 1 + n + 1 = m + n + 1 + 1 by omega, repeated_succ, outcome_bind hfirst,
      outcome_bind_error (ih hothers (by omega))]

/-! ### Agreement -/

theorem Agree.outcome_eq {x : Drawing σ ε α} {y : Drawing σ ε' β} (h : Agree P f x y) {d d' : Draws σ}
    {a : α} (hx : x.outcome d = (.ok a, d')) : y.outcome d = (.ok (f a), d') := by
  obtain ⟨b, d'', -, hx', hy⟩ := h d
  cases hx.symm.trans hx'
  exact hy

theorem Agree.pure {a : α} (h : P a) :
    Agree P f (pure a : Drawing σ ε α) (pure (f a) : Drawing σ ε' β) :=
  fun d => ⟨a, d, h, rfl, rfl⟩

/-- Computations that agree go on alike, if they do so with all corresponding values. -/
theorem Agree.bind {x : Drawing σ ε α} {y : Drawing σ ε' β} {k : α → Drawing σ ε γ}
    {l : β → Drawing σ ε' δ} (h : Agree P f x y) (hk : ∀ a, P a → Agree Q g (k a) (l (f a))) :
    Agree Q g (x >>= k) (y >>= l) := by
  intro d
  obtain ⟨a, d', ha, hx, hy⟩ := h d
  obtain ⟨c, d'', hc, hkc, hlc⟩ := hk a ha d'
  exact ⟨c, d'', hc, (outcome_bind hx).trans hkc, (outcome_bind hy).trans hlc⟩

theorem Agree.mapError_left {ε₁ : Type} {x : Drawing σ ε α} {y : Drawing σ ε' β} (h : Agree P f x y)
    (φ : ε → ε₁) : Agree P f (x.mapError φ) y := by
  intro d
  obtain ⟨a, d', ha, hx, hy⟩ := h d
  exact ⟨a, d', ha, outcome_mapError φ hx, hy⟩

theorem Agree.mapError_right {ε₁ : Type} {x : Drawing σ ε α} {y : Drawing σ ε' β} (h : Agree P f x y)
    (φ : ε' → ε₁) : Agree P f x (y.mapError φ) := by
  intro d
  obtain ⟨a, d', ha, hx, hy⟩ := h d
  exact ⟨a, d', ha, hx, outcome_mapError φ hy⟩

theorem Agree.bind_right {x : Drawing σ ε α} {y : Drawing σ ε' β} {l : β → Drawing σ ε' δ} {f' : α → δ}
    (h : Agree P f x y) (hl : ∀ a, P a → l (f a) = Pure.pure (f' a)) : Agree P f' x (y >>= l) := by
  intro d
  obtain ⟨a, d', ha, hx, hy⟩ := h d
  refine ⟨a, d', ha, hx, ?_⟩
  rw [outcome_bind hy, hl a ha]
  rfl

theorem Agree.bind_left {x : Drawing σ ε α} {y : Drawing σ ε' β} {k : α → Drawing σ ε γ} {f' : γ → β}
    {t : α → γ} (h : Agree P f x y)
    (hk : ∀ a, P a → k a = Pure.pure (t a) ∧ f' (t a) = f a ∧ Q (t a)) :
    Agree Q f' (x >>= k) y := by
  intro d
  obtain ⟨a, d', ha, hx, hy⟩ := h d
  obtain ⟨hpure, hf, hQ⟩ := hk a ha
  refine ⟨t a, d', hQ, ?_, by rw [hf, hy]⟩
  rw [outcome_bind hx, hpure]
  rfl

theorem agree_inRange (source : Source σ) {low high : Int} (h : low < high) :
    Agree (fun n => low ≤ n ∧ n < high) id (inRange source low high) (inRange source low high) := by
  intro d
  obtain ⟨n, d', hn, hd⟩ := outcome_inRange source h d
  exact ⟨n, d', hn, hd, hd⟩

theorem agree_element (source : Source σ) {items : List α} (h : items ≠ []) :
    Agree (fun a => a ∈ items) id (element source items) (element source items) := by
  have hlength : 0 < items.length := List.length_pos_iff.mpr h
  refine (agree_inRange source (by omega)).bind fun n hn => ?_
  have hlt : n.toNat < items.length := by omega
  simp only [id_eq, List.getElem?_eq_getElem hlt]
  exact Agree.pure (List.getElem_mem hlt)

theorem Agree.repeatedOnto {x : Drawing σ ε (List α)} {y : Drawing σ ε' (List α)}
    (h : Agree (fun _ => True) id x y) (n : Nat) (parts : List (List α)) :
    Agree (fun _ => True) id (repeatedOnto x n parts) (repeatedOnto y n parts) := by
  -- Each run puts its output in front of the parts, which therefore vary.
  induction n generalizing parts with
  | zero => exact Agree.pure trivial
  | succ n ih => exact h.bind fun part _ => ih (part :: parts)

theorem Agree.repeated {x : Drawing σ ε (List α)} {y : Drawing σ ε' (List α)}
    (h : Agree (fun _ => True) id x y) (n : Nat) :
    Agree (fun _ => True) id (repeated n x) (repeated n y) :=
  h.repeatedOnto n []

theorem Agree.repeated_one {f : List α → β} {x : Drawing σ ε (List α)} {y : Drawing σ ε' β}
    (h : Agree (fun _ => True) f x y) : Agree (fun _ => True) f (Drawing.repeated 1 x) y := by
  refine h.bind_left fun part _ => ⟨?_, rfl, trivial⟩
  show Pure.pure (part ++ []) = (Pure.pure part : Drawing σ ε (List α))
  rw [List.append_nil]

end RandomText.Drawing
