/-!
# Outcomes of computations that may fail

What a success of a composed computation says about its parts, how what is said of both outcomes comes
down to the one that is there, and how rephrasing a failure goes through the parts.
-/

namespace Except

variable {ε ε' α β : Type}

theorem ok_bind (a : α) (k : α → Except ε β) : (ok a >>= k) = k a := rfl

theorem bind_eq_ok {x : Except ε α} {k : α → Except ε β} {b : β} :
    (x >>= k) = .ok b ↔ ∃ a, x = .ok a ∧ k a = .ok b := by
  cases x with
  | error e => exact ⟨nofun, fun ⟨_, hx, _⟩ => nomatch hx⟩
  | ok a => exact ⟨fun h => ⟨a, rfl, h⟩, fun ⟨_, hx, h⟩ => Except.ok.inj hx ▸ h⟩

theorem bind_eq_error {x : Except ε α} {k : α → Except ε β} {e : ε} :
    (x >>= k) = .error e ↔ x = .error e ∨ ∃ a, x = .ok a ∧ k a = .error e := by
  cases x with
  | error e' =>
    refine ⟨fun h => .inl (error.inj h ▸ rfl), ?_⟩
    rintro (h | ⟨_, hx, _⟩)
    · exact error.inj h ▸ rfl
    · cases hx
  | ok a =>
    refine ⟨fun h => .inr ⟨a, rfl, h⟩, ?_⟩
    rintro (h | ⟨_, hx, h⟩)
    · cases h
    · exact ok.inj hx ▸ h

theorem toOption_eq_some {x : Except ε α} {a : α} : x.toOption = some a ↔ x = .ok a := by
  cases x <;> simp [Except.toOption]

/-- The failure, if there is one. -/
def error? : Except ε α → Option ε
  | .error e => some e
  | .ok _ => none

theorem error?_eq_some {x : Except ε α} {e : ε} : x.error? = some e ↔ x = .error e := by
  cases x <;> simp [error?]

theorem error_ne_ok {e : ε} {a : α} : (error e : Except ε α) ≠ ok a := by rintro ⟨⟩

theorem ok_ne_error {e : ε} {a : α} : (ok a : Except ε α) ≠ error e := by rintro ⟨⟩

theorem forall_outcome_ok {a : α} {P : α → Prop} {Q : ε → Prop} (h : P a) :
    (∀ b, (ok a : Except ε α) = ok b → P b) ∧ ∀ e, (ok a : Except ε α) = error e → Q e :=
  ⟨fun _ hb => ok.inj hb ▸ h, fun _ he => absurd he ok_ne_error⟩

theorem forall_outcome_error {e : ε} {P : α → Prop} {Q : ε → Prop} (h : Q e) :
    (∀ a, (error e : Except ε α) = ok a → P a) ∧ ∀ e', (error e : Except ε α) = error e' → Q e' :=
  ⟨fun _ ha => absurd ha error_ne_ok, fun _ he => error.inj he ▸ h⟩

/-- Both outcomes rephrased. -/
def bimap {α' : Type} (onError : ε → ε') (onOk : α → α') : Except ε α → Except ε' α'
  | .ok a => .ok (onOk a)
  | .error e => .error (onError e)

theorem mapError_bind (x : Except ε α) (k : α → Except ε β) (φ : ε → ε') :
    (x >>= k).mapError φ = x.mapError φ >>= fun a => (k a).mapError φ := by
  cases x <;> rfl

end Except

namespace StateT

variable {σ ε α β : Type}

theorem bind_ok {x : StateT σ (Except ε) α} {k : α → StateT σ (Except ε) β} {s s' : σ} {a : α}
    (h : x s = .ok (a, s')) : (x >>= k) s = k a s' := by
  show (x s >>= fun p => k p.1 p.2) = _
  rw [h]
  rfl

end StateT
