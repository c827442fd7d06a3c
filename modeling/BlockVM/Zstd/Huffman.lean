import BlockVM.Zstd.Fse

/-!
# Huffman codes

A Huffman code is given by a weight for each byte: a weight `w` stands for a share of `2 ^ (w - 1)`,
and no weight for none. The shares add up to a power of two, so the weight of the last byte is not
written. The code is kept as a table with an entry for each possible value of the next bits.
-/

namespace BlockVM.Zstd.Huffman

/-- A code whose words have at most `log` bits: the byte and the length of its word, for each value
of the next `log` bits. -/
structure Code where
  log : Nat
  cells : Array (UInt8 × Nat)
deriving DecidableEq, Repr

/-- The share that a weight stands for. -/
def share (weight : Nat) : Nat := 2 ^ weight / 2

/-- The code with the given weights and the weight that completes them. -/
def ofWeights? (weights : List Nat) : Option Code :=
  let total := (weights.map share).sum
  if weights.any (11 < ·) then none
  else if total = 0 then none
  else
    let log := total.log2 + 1
    let rest := 2 ^ log - total
    let last := rest.log2 + 1
    let weights := weights ++ [last]
    let ones := weights.count 1
    if 11 < log then none
    else if share last ≠ rest then none
    else if ones < 2 ∨ ones % 2 = 1 then none
    else
      let cells := (List.range log).flatMap fun w =>
        (weights.zipIdx.filter (·.1 = w + 1)).flatMap fun (_, b) =>
          List.replicate (2 ^ w) (UInt8.ofNat b, log - w)
      some ⟨log, cells.toArray⟩

/-- The two weights in a byte, high half first. -/
def halves (b : UInt8) : List Nat := [b.toNat / 16, b.toNat % 16]

/-- Reads weights that are coded by two states in turn. -/
def codedWeights? (bytes : List UInt8) : Option (List Nat) := do
  let (log, shares, rest) ← Fse.description? 15 255 bytes
  let t ← Fse.table? log shares
  let bits ← Bits.backward? rest
  let (a, bits) ← t.start? bits
  let (b, bits) ← t.start? bits
  t.alternate? 255 a b bits

/-- Reads the description of a code. The first byte says how the weights are written. -/
def description? (bytes : List UInt8) : Option (Code × List UInt8) := do
  match bytes with
  | [] | [_] => none
  | head :: rest =>
    if 128 ≤ head then
      let count := head.toNat - 127
      let size := (count + 1) / 2
      if rest.length < size then none
      else return (← ofWeights? ((rest.take size).flatMap halves |>.take count), rest.drop size)
    else
      let size := head.toNat
      if rest.length < size then none
      else return (← ofWeights? (← codedWeights? (rest.take size)), rest.drop size)

/-- Reads `count` bytes behind `out`; they must take all the bits. -/
def Code.read? (c : Code) (out : Array UInt8) : (count : Nat) → Bits → Option (Array UInt8)
  | 0, bits => if bits.isEmpty then some out else none
  | count + 1, bits => do
    let (b, width) := c.cells.getD (bits.peek 0 c.log) (0, c.log)
    c.read? (out.push b) count (← bits.skip? width)

/-- Reads `count` bytes from one stream. -/
def Code.one? (c : Code) (count : Nat) (bytes : List UInt8) : Option (Array UInt8) := do
  c.read? #[] count (← Bits.backward? bytes)

/-- Reads `count` bytes from four streams of equal length, of which the last may be shorter. The
lengths of the first three stand in front of them. -/
def Code.four? (c : Code) (count : Nat) (bytes : List UInt8) : Option (Array UInt8) := do
  match bytes with
  | a0 :: a1 :: b0 :: b1 :: c0 :: c1 :: rest =>
    let length (lo hi : UInt8) := lo.toNat + 256 * hi.toNat
    let (la, lb, lc) := (length a0 a1, length b0 b1, length c0 c1)
    let every := (count + 3) / 4
    if rest.length < 4 ∨ rest.length ≤ la + lb + lc ∨ count < 3 * every then none
    else do
      let out ← c.read? #[] every (← Bits.backward? (rest.take la))
      let rest := rest.drop la
      let out ← c.read? out every (← Bits.backward? (rest.take lb))
      let rest := rest.drop lb
      let out ← c.read? out every (← Bits.backward? (rest.take lc))
      c.read? out (count - 3 * every) (← Bits.backward? (rest.drop lc))
  | _ => none

end BlockVM.Zstd.Huffman
