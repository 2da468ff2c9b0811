import RandomText.Draw.Source

/-!
# A source for every day

A counter in steps of an odd constant whose values are mixed to words of 64 bits. A number below a
bound is taken from at least 64 bits more than the bound has.
-/

namespace RandomText.Mixer

/-- The word of a counter. -/
def mix (counter : UInt64) : UInt64 :=
  let a := (counter ^^^ (counter >>> 30)) * 0xBF58476D1CE4E5B9
  let b := (a ^^^ (a >>> 27)) * 0x94D049BB133111EB
  b ^^^ (b >>> 31)

/-- The next counter. -/
def advance (counter : UInt64) : UInt64 := counter + 0x9E3779B97F4A7C15

/-- The number that so many words make up, and the counter behind them. -/
def words : (count : Nat) → UInt64 → Nat × UInt64
  | 0, counter => (0, counter)
  | count + 1, counter =>
    let next := advance counter
    let (n, last) := words count next
    (n * 0x10000000000000000 + (mix next).toNat, last)

def below (bound : Nat) (counter : UInt64) : Nat × UInt64 :=
  let (n, counter) := words (bound.log2 / 64 + 2) counter
  (n % bound, counter)

theorem below_lt (bound : Nat) (counter : UInt64) (h : 0 < bound) :
    (below bound counter).1 < bound := Nat.mod_lt _ h

/-- The mixed counter as a source of draws. -/
def source : Source UInt64 := ⟨below, below_lt⟩

end RandomText.Mixer
