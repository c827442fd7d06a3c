import BlockVM.Numeric.Instances
import BlockVM.Zstd.Bits

/-!
# Finite-state codes

A finite-state code is a table of cells. A state names a cell; the cell gives a symbol, and the
number of bits that, added to its base, name the next state. A table is built from the share that
each symbol has of the cells.
-/

namespace BlockVM.Zstd.Fse

/-- One state of a code. -/
structure Cell where
  symbol : Nat
  /-- How many bits to read for the next state. -/
  width : Nat
  /-- The next state when those bits are zero. -/
  base : Nat
deriving DecidableEq, Repr, Inhabited

/-- A code of `2 ^ log` states. -/
structure Table where
  log : Nat
  cells : Array Cell
deriving DecidableEq, Repr

/-- The share of each symbol, counted in cells. A share of `-1` is below one cell. -/
abbrev Shares := List Int

/-! ## Reading shares -/

/-- How many more symbols have no share: pairs of bits, of which a three asks for another pair. -/
def zeroRun? : Bits → Option (Nat × Bits)
  | a :: b :: bits =>
    let v := a.toNat + 2 * b.toNat
    if v = 3 then (zeroRun? bits).map fun (n, rest) => (n + 3, rest)
    else some (v, bits)
  | _ => none

/-- Reads a number up to `remaining`: the smaller numbers take one bit less. -/
def bounded? (remaining : Nat) (bits : Bits) : Option (Nat × Bits) := do
  let k := remaining.log2
  let short := 2 * 2 ^ k - 1 - remaining
  let (v, rest) ← bits.low? k
  if v < short then return (v, rest)
  let (top, rest) ← rest.low? 1
  if top = 0 then return (v, rest)
  return (v + 2 ^ k - short, rest)

/-- Reads shares of at most `room` symbols until all cells are given away; `remaining` is one more
than the number of those that are left. -/
def shares? : (room remaining : Nat) → Bits → Option (Shares × Bits)
  | _, 1, bits => some ([], bits)
  | 0, _, _ => none
  | room + 1, remaining, bits => do
    let (v, bits) ← bounded? remaining bits
    let share : Int := (v : Int) - 1
    let remaining := remaining - share.natAbs
    if share = 0 then
      let (zeros, bits) ← zeroRun? bits
      if room < zeros then none
      else do
        let (tail, bits) ← shares? (room - zeros) remaining bits
        return (0 :: List.replicate zeros 0 ++ tail, bits)
    else do
      let (tail, bits) ← shares? room remaining bits
      return (share :: tail, bits)
termination_by room => room
decreasing_by
  · exact Nat.lt_succ_of_le (Nat.sub_le _ _)
  · exact Nat.lt_succ_self _

/-- Reads the description of a code, with at most `2 ^ maxLog` states and symbols up to
`maxSymbol`. The rest starts at the next whole byte. -/
def description? (maxLog maxSymbol : Nat) (bytes : List UInt8) :
    Option (Nat × Shares × List UInt8) := do
  if bytes.length < 4 then none
  else do
    let bits := Bits.forward bytes
    let (v, rest) ← bits.low? 4
    let log := v + 5
    if maxLog < log then none
    else do
      let (shares, rest) ← shares? (maxSymbol + 1) (2 ^ log + 1) rest
      if shares.length ≤ 1 then none
      else return (log, shares, bytes.drop ((bits.length - rest.length + 7) / 8))

/-! ## Building tables -/

/-- The symbols of the cells. Those below one cell stand at the top, last one lowest; the others
are spread over the rest in steps that visit every cell once. -/
def symbols (log : Nat) (shares : Shares) : Array Nat :=
  let size := 2 ^ log
  let rare := (shares.zipIdx.filter (·.1 = -1)).map (·.2)
  let step := size / 2 + size / 8 + 3
  let free := ((List.range size).map (· * step % size)).filter (· < size - rare.length)
  let common := shares.zipIdx.flatMap fun (share, s) => List.replicate share.toNat s
  let start := (rare.zipIdx.foldl (fun a (s, i) => a.setIfInBounds (size - 1 - i) s)
    (Array.replicate size 0))
  (free.zip common).foldl (fun a (cell, s) => a.setIfInBounds cell s) start

/-- The table with the given shares. A state that leads back to itself without reading is
refused. -/
def table? (log : Nat) (shares : Shares) : Option Table :=
  let next := (shares.map fun share => if share = -1 then 1 else share.toNat).toArray
  let size := 2 ^ log
  let (_, cells) := (symbols log shares).foldl (fun (next, cells) s =>
    let n := next.getD s 0
    let width := log - n.log2
    (next.setIfInBounds s (n + 1), cells.push ⟨s, width, n * 2 ^ width - size⟩)) (next, #[])
  if cells.toList.zipIdx.any fun (c, u) => c.base = u && c.width = 0 then none
  else some ⟨log, cells⟩

/-- The code of one symbol only, which takes no bits. -/
def constant (symbol : Nat) : Table := ⟨0, #[⟨symbol, 0, 0⟩]⟩

/-! ## Decoding -/

def Table.start? (t : Table) (bits : Bits) : Option (Cell × Bits) := do
  let (state, bits) ← bits.high? t.log
  return (t.cells.getD state default, bits)

def Table.next? (t : Table) (c : Cell) (bits : Bits) : Option (Cell × Bits) := do
  let (v, bits) ← bits.high? c.width
  return (t.cells.getD (c.base + v) default, bits)

/-- Reads the symbols of two states that take turns, up to `room` of them. They end when the next
turn would need bits and none are left. -/
def Table.alternate? (t : Table) : (room : Nat) → (turn other : Cell) → Bits → Option (List Nat)
  | 0, _, _, _ => none
  | room + 1, turn, other, bits =>
    if bits.isEmpty ∧ 0 < turn.width then
      if room = 0 then none else some [turn.symbol, other.symbol]
    else do
      let (next, bits) ← t.next? turn bits
      let tail ← t.alternate? room other next bits
      return turn.symbol :: tail

end BlockVM.Zstd.Fse
