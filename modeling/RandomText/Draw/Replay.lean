import RandomText.Draw.Source

/-!
# A reproducible source

Replays listed numbers first, then continues with a linear congruential generator modulo `2 ^ 64`
whose upper 31 bits are used.
-/

namespace RandomText

structure Replay where
  draws : List Int
  state : Nat

namespace Replay

/-- The number of states. -/
def modulus : Nat := 0x10000000000000000

def start (draws : List Int) (seed : Int) : Replay := ⟨draws, (seed % modulus).toNat⟩

def below (bound : Nat) (r : Replay) : Nat × Replay :=
  match r.draws with
  | v :: rest => ((v % bound).toNat, { r with draws := rest })
  | [] =>
    let state := (r.state * 6364136223846793005 + 1442695040888963407) % modulus
    ((state >>> 33) % bound, { r with state })

theorem below_lt (bound : Nat) (r : Replay) (h : 0 < bound) : (below bound r).1 < bound := by
  unfold below
  split
  · have h₁ := Int.emod_lt_of_pos ‹Int› (b := (bound : Int)) (by omega)
    have h₂ := Int.emod_nonneg ‹Int› (b := (bound : Int)) (by omega)
    simp only
    omega
  · exact Nat.mod_lt _ h

/-- Replaying as a source of draws. -/
def source : Source Replay := ⟨below, below_lt⟩

end Replay

end RandomText
