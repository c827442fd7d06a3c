import BlockVM.Numeric.Instances

/-!
# Pseudo-random numbers

A permuted congruential generator with 128 bits of state. The state moves by a linear congruence and
each output is a double xor-shift-multiply mix of the new state.
-/

namespace BlockVM

/-- The generator's state, a number below `2 ^ 128`. -/
structure Pcg where
  state : Nat
deriving DecidableEq, Repr

namespace Pcg

def multiplier : Nat := 2549297995355413924 * 2 ^ 64 + 4865540595714422341
def increment : Nat := 6364136223846793005 * 2 ^ 64 + 1442695040888963407

/-- The generator with a given state. -/
def ofWords (hi lo : UInt64) : Pcg := ⟨hi.toNat * 2 ^ 64 + lo.toNat⟩

/-- The generator of a seed. Seed 0 is taken as 1. -/
def ofSeed (seed : UInt64) : Pcg :=
  let seed := if seed = 0 then 1 else seed
  ofWords seed (seed ^^^ 0x9e3779b97f4a7c15)

def step (g : Pcg) : Pcg := ⟨(g.state * multiplier + increment) % 2 ^ 128⟩

def mix (g : Pcg) : UInt64 :=
  let hi := UInt64.ofNat (g.state / 2 ^ 64)
  let lo := UInt64.ofNat g.state
  let hi := hi ^^^ (hi >>> 32)
  let hi := hi * 0xda942042e4dd58b5
  let hi := hi ^^^ (hi >>> 48)
  hi * (lo ||| 1)

def next (g : Pcg) : UInt64 × Pcg := (g.step.mix, g.step)

def next31 (g : Pcg) : UInt64 × Pcg :=
  let (v, g) := g.next
  (v >>> 33, g)

end Pcg

end BlockVM
