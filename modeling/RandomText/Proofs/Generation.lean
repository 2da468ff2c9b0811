import RandomText.Pattern.Generate
import RandomText.Proofs.Drawing
import RandomText.Proofs.Pattern.WellFormed

/-!
# Generating always succeeds

The trees that pattern text spells generate a text from every source in every state
(`completes_generate`), and what was asked for before has no influence: the bounds that a tree asks
for are put in front of those that were asked for so far. So the outputs and the bounds of two lists
of nodes are those of the lists one after the other (`outcome_generateAll_append`).
-/

namespace RandomText

namespace Drawing

variable {σ ε ε' α β : Type} {P : α → Prop} {Q : β → Prop}

/-- From every state the computation succeeds with a value that has the property `P` and asks for
bounds that do not depend on those asked for before. -/
def Completes (P : α → Prop) (x : Drawing σ ε α) : Prop :=
  ∀ state, ∃ a state' more, P a ∧
    ∀ asked, x.outcome ⟨state, asked⟩ = (.ok a, ⟨state', more ++ asked⟩)

theorem completes_pure {a : α} (h : P a) : Completes P (pure a : Drawing σ ε α) := by
  intro state
  exact ⟨a, state, [], h, fun asked => rfl⟩

theorem Completes.bind {x : Drawing σ ε α} {k : α → Drawing σ ε β} (h : Completes P x)
    (hk : ∀ a, P a → Completes Q (k a)) : Completes Q (x >>= k) := by
  intro state
  obtain ⟨a, state', more, ha, hx⟩ := h state
  obtain ⟨b, state'', more', hb, hy⟩ := hk a ha state'
  refine ⟨b, state'', more' ++ more, hb, ?_⟩
  intro asked
  rw [outcome_bind (hx asked), hy, List.append_assoc]

theorem Completes.mapError {x : Drawing σ ε α} (h : Completes P x) (φ : ε → ε') :
    Completes P (x.mapError φ) := by
  intro state
  obtain ⟨a, state', more, ha, hx⟩ := h state
  exact ⟨a, state', more, ha, fun asked => outcome_mapError φ (hx asked)⟩

theorem Completes.repeatedOnto {x : Drawing σ ε (List α)} (h : Completes (fun _ => True) x) (n : Nat)
    (parts : List (List α)) : Completes (fun _ => True) (repeatedOnto x n parts) := by
  induction n generalizing parts with
  | zero => exact completes_pure trivial
  | succ n ih => exact h.bind fun part _ => ih (part :: parts)

theorem Completes.repeated {x : Drawing σ ε (List α)} (h : Completes (fun _ => True) x) (n : Nat) :
    Completes (fun _ => True) (repeated n x) := h.repeatedOnto n []

theorem completes_inRange (source : Source σ) {low high : Int} (h : low < high) :
    Completes (fun n => low ≤ n ∧ n < high) (inRange source low high) := by
  intro state
  have hpos : 0 < (high - low).toNat := by omega
  have hlt := source.below_lt _ state hpos
  refine ⟨low + (source.below (high - low).toNat state).1, (source.below (high - low).toNat state).2,
    [(high - low).toNat], ⟨by omega, by omega⟩, ?_⟩
  intro asked
  rw [inRange, if_neg (by omega)]
  rfl

theorem completes_element (source : Source σ) {items : List α} (h : items ≠ []) :
    Completes (fun a => a ∈ items) (element source items) := by
  have hlength : 0 < items.length := List.length_pos_iff.mpr h
  refine (completes_inRange source (by omega)).bind ?_
  intro n hn
  have hlt : n.toNat < items.length := by omega
  simp only [List.getElem?_eq_getElem hlt]
  exact completes_pure (List.getElem_mem hlt)

theorem completes_character (source : Source σ) {chars : Text} (h : chars ≠ []) :
    Completes (fun _ => True) (character source chars) :=
  ((completes_element source h).mapError _).bind fun _ _ => completes_pure trivial

theorem completes_codeInRange (source : Source σ) {low high : Int} (h : low < high) :
    Completes (fun _ => True) (codeInRange source low high) :=
  ((completes_inRange source h).mapError _).bind fun _ _ => completes_pure trivial

theorem completes_decimalInRange (source : Source σ) {low high : Int} (h : low < high)
    (hwritable : ∀ n, low ≤ n → n < high → n.natAbs < 10 ^ Numeral.maxDigits) :
    Completes (fun _ => True) (decimalInRange source low high) := by
  refine ((completes_inRange source h).mapError _).bind ?_
  intro n hn
  rw [Numeral.write_eq_ok_iff.mpr ⟨hwritable n hn.1 hn.2, rfl⟩]
  exact completes_pure trivial

end Drawing

open Drawing

variable {σ : Type} (source : Source σ)

theorem Atom.completes_generate {atom : Atom} (h : atom.Spellable) :
    Completes (fun _ => True) (atom.generate source) := by
  cases atom with
  | literal text => exact completes_pure trivial
  | any => exact completes_codeInRange source (by decide)
  | alpha uppercase =>
    have hne : Atom.letters uppercase ≠ [] := by cases uppercase <;> decide
    exact completes_character source hne
  | numeric =>
    refine completes_decimalInRange source (by decide) ?_
    intro n hlow hhigh
    have hten : 10 ^ 1 ≤ 10 ^ Numeral.maxDigits :=
      Nat.pow_le_pow_right (by decide) (Nat.le_of_ble_eq_true rfl)
    omega
  | symbol => exact completes_character source (by decide)
  | basicSymbol => exact completes_character source (by decide)
  | sampleSet chars hne => exact completes_character source hne
  | range first last hle =>
    obtain ⟨hfirst, hlast⟩ := h
    refine completes_decimalInRange source (Int.lt_add_one_of_le hle) ?_
    intro n hlow hhigh
    omega
  | charRange first last hle => exact completes_codeInRange source (by omega)

namespace Node

mutual

/-- A node that may stand below the root generates a text from every state of every source. -/
theorem completes_generate (node : Node) (h : node.Nested) :
    Completes (fun _ => True) (node.generate source) := by
  match node, h with
  | .leaf tag atom, ⟨_, hatom⟩ => exact (Atom.completes_generate source hatom).repeated tag.repeatCount
  | .group tag .root children, ⟨_, hroot, _⟩ => exact absurd rfl hroot
  | .group tag .sequence children, ⟨_, _, _, hchildren⟩ =>
    exact (completes_generateAll children hchildren).repeated tag.repeatCount
  | .group tag .choice children, ⟨_, _, hne, hchildren⟩ =>
    have hlength : 0 < children.length := List.length_pos_iff.mpr (hne rfl)
    refine Completes.repeated (((completes_inRange source (by omega)).mapError _).bind ?_) _
    intro i hi
    exact completes_generateAt children hchildren i.toNat

theorem completes_generateAll (nodes : List Node) (h : NestedAll nodes) :
    Completes (fun _ => True) (generateAll source nodes) := by
  match nodes, h with
  | [], _ => exact completes_pure trivial
  | node :: rest, ⟨hnode, hrest⟩ =>
    refine (completes_generate node hnode).bind ?_
    intro first _
    exact (completes_generateAll rest hrest).bind fun _ _ => completes_pure trivial

theorem completes_generateAt (nodes : List Node) (h : NestedAll nodes) (i : Nat) :
    Completes (fun _ => True) (generateAt source i nodes) := by
  match nodes, h, i with
  | [], _, _ => exact completes_pure trivial
  | node :: rest, ⟨hnode, _⟩, 0 => exact completes_generate node hnode
  | node :: rest, ⟨_, hrest⟩, i + 1 => exact completes_generateAt rest hrest i

end

theorem completes_root {root : Node} {limit : Nat} (h : root.WellFormed limit) :
    Completes (fun _ => True) (root.generate source) := by
  match root, h with
  | .group tag .root children, ⟨_, hnested, _⟩ =>
    exact (completes_generateAll source children hnested).repeated tag.repeatCount

theorem generate_root {tag : Tag} (honce : tag.repeatCount = 1) (children : List Node) :
    (group tag .root children).generate source = generateAll source children := by
  show Drawing.repeated tag.repeatCount _ = _
  rw [honce, Drawing.repeated_one]

theorem outcome_generate_root {tag : Tag} (honce : tag.repeatCount = 1) {children : List Node}
    {d d' : Draws σ} {text : Text}
    (h : (generateAll source children).outcome d = (.ok text, d')) :
    ((Node.group tag .root children).generate source).outcome d = (.ok text, d') := by
  rw [generate_root source honce]
  exact h

theorem generateAll_singleton (node : Node) : generateAll source [node] = node.generate source := by
  simp [generateAll]

/-- Nodes behind others go on with the draws that these leave. -/
theorem outcome_generateAll_append {front back : List Node} {d d' d'' : Draws σ} {s t : Text}
    (hfront : (generateAll source front).outcome d = (.ok s, d'))
    (hback : (generateAll source back).outcome d' = (.ok t, d'')) :
    (generateAll source (front ++ back)).outcome d = (.ok (s ++ t), d'') := by
  induction front generalizing s d with
  | nil =>
    cases hfront
    exact hback
  | cons node rest ih =>
    obtain ⟨first, d₁, hfirst, hrest⟩ := outcome_bind_eq_ok hfront
    obtain ⟨others, d₂, hothers, hpure⟩ := outcome_bind_eq_ok hrest
    cases hpure
    have hcons : generateAll source (node :: rest ++ back) = node.generate source >>= fun first =>
        generateAll source (rest ++ back) >>= fun others => pure (first ++ others) := rfl
    have hall := ih hothers
    rw [hcons, outcome_bind hfirst, outcome_bind hall, List.append_assoc]
    rfl

end Node

end RandomText
