import RandomText.Text.Numeral

/-!
# Random draws

A source answers each request with a number below the bound asked for and moves to a new state.
Everything random in this library is a `Drawing`: a computation that may draw, keeps the list of
bounds it asked for, and may fail without losing the draws made before.
-/

namespace RandomText

/-- Numbers below a bound, from a state of type `σ`. -/
structure Source (σ : Type) where
  below : (bound : Nat) → σ → Nat × σ
  below_lt : ∀ bound state, 0 < bound → (below bound state).1 < bound

/-- The state of a source and the bounds asked for so far, latest first. -/
structure Draws (σ : Type) where
  state : σ
  asked : List Nat

namespace Draws

/-- Nothing drawn yet. -/
def start {σ : Type} (state : σ) : Draws σ := ⟨state, []⟩

/-- The bounds asked for, in draw order. -/
def bounds {σ : Type} (d : Draws σ) : List Nat := d.asked.reverse

end Draws

/-- A computation that draws and may fail with `ε`. -/
abbrev Drawing (σ ε α : Type) := ExceptT ε (StateM (Draws σ)) α

/-- A range `[low, high)` without an element. -/
structure EmptyRange where
  low : Int
  high : Int
deriving DecidableEq

/-- The range as messages show it. -/
def EmptyRange.message (range : EmptyRange) : Text :=
  "empty range [" ++ Numeral.signed range.low ++ ", " ++ Numeral.signed range.high ++ ")"

namespace Drawing

variable {σ ε α : Type}

/-- The outcome of a computation and the draws after it. -/
def outcome (x : Drawing σ ε α) (d : Draws σ) : Except ε α × Draws σ := x d

/-- An outcome that draws nothing. -/
def ofExcept (r : Except ε α) : Drawing σ ε α := fun d => (r, d)

/-- Asks the source for a number below `bound`. -/
def below (source : Source σ) (bound : Nat) : Drawing σ ε Nat :=
  fun d =>
    let answer := source.below bound d.state
    (.ok answer.1, ⟨answer.2, bound :: d.asked⟩)

/-- The same computation with its failure rephrased. -/
def mapError {ε' : Type} (f : ε → ε') (x : Drawing σ ε α) : Drawing σ ε' α :=
  fun d => match x d with
    | (.ok a, d') => (.ok a, d')
    | (.error e, d') => (.error (f e), d')

/-- An integer `i` with `low ≤ i < high`; an empty range draws nothing. -/
def inRange (source : Source σ) (low high : Int) : Drawing σ EmptyRange Int :=
  if high ≤ low then throw ⟨low, high⟩
  else do
    let n ← below source (high - low).toNat
    return low + n

/-- One of the elements of a list; an empty list draws nothing. -/
def element (source : Source σ) (items : List α) : Drawing σ EmptyRange α := do
  let i ← inRange source 0 items.length
  match items[i.toNat]? with
  | some a => return a
  | none => throw ⟨0, items.length⟩

/-- Runs `x` so often and puts the outputs one after the other, behind those in `parts`, which
stand latest first. -/
def repeatedOnto (x : Drawing σ ε (List α)) : Nat → List (List α) → Drawing σ ε (List α)
  | 0, parts => return parts.reverse.flatten
  | n + 1, parts => do
    let part ← x
    repeatedOnto x n (part :: parts)

/-- The concatenated outputs of `n` runs. -/
def repeated (n : Nat) (x : Drawing σ ε (List α)) : Drawing σ ε (List α) := repeatedOnto x n []

end Drawing

end RandomText
