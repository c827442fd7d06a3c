import BlockVM.Zstd.Huffman

/-!
# Literals and sequences

A compressed block holds literals and sequences. The literals are bytes, plain, repeated or in a
Huffman code. A sequence copies some literals to the output and then repeats some of the output. Its
three numbers (how many literals, how far back, how much to repeat) each have a finite-state code
for their magnitude, and extra bits.
-/

namespace BlockVM.Zstd

/-- A block gives at most this many bytes. -/
def maxBlock : Nat := 2 ^ 17

/-! ## Literals -/

/-- How literals are written. -/
inductive LiteralKind where
  | plain
  | repeated
  /-- In a code whose description stands before them. -/
  | coded
  /-- In the code of an earlier block. -/
  | recoded

/-- The kind of the literals, their number, the size of their coded form, whether that is in four
streams, and what stands after this header. -/
def literalHeader? (bytes : List UInt8) :
    Option (LiteralKind × Nat × Nat × Bool × List UInt8) := do
  if bytes.length < 2 then none
  else do
    let head := (bytes.headD 0).toNat
    let format := head / 4 % 4
    let field (size : Nat) : Option Nat :=
      if bytes.length < size then none
      else some ((bytes.take size).foldr (fun b n => b.toNat + 256 * n) 0 / 16)
    let simple (kind : LiteralKind) := do
      match format with
      | 1 => return (kind, ← field 2, 0, false, bytes.drop 2)
      | 3 => return (kind, ← field 3, 0, false, bytes.drop 3)
      | _ => return (kind, head / 8, 0, false, bytes.drop 1)
    let sized (kind : LiteralKind) := do
      let (size, width) := match format with
        | 2 => (4, 14)
        | 3 => (5, 18)
        | _ => (3, 10)
      let n ← field size
      return (kind, n % 2 ^ width, n / 2 ^ width, format != 0, bytes.drop size)
    match head % 4 with
    | 0 => simple .plain
    | 1 => simple .repeated
    | 2 => sized .coded
    | _ => sized .recoded

/-- Reads the literals of a block, given the code of an earlier block; also gives the code to keep
and what stands after the literals. -/
def literals? (window : Nat) (earlier : Option Huffman.Code) (bytes : List UInt8) :
    Option (Array UInt8 × Option Huffman.Code × List UInt8) := do
  let (kind, count, size, four, rest) ← literalHeader? bytes
  if window < count ∨ maxBlock < count then none
  else match kind with
    | .plain =>
      if rest.length < count then none
      else return ((rest.take count).toArray, earlier, rest.drop count)
    | .repeated =>
      match rest with
      | [] => none
      | b :: rest => return (Array.replicate count b, earlier, rest)
    | .coded =>
      if rest.length < size then none
      else do
        let (code, coded) ← Huffman.description? (rest.take size)
        let out ← if four then code.four? count coded else code.one? count coded
        return (out, some code, rest.drop size)
    | .recoded =>
      if rest.length < size then none
      else do
        let code ← earlier
        let coded := rest.take size
        let out ← if four then code.four? count coded else code.one? count coded
        return (out, earlier, rest.drop size)

/-! ## Magnitudes -/

/-- The least number and the count of extra bits for each symbol of a code. -/
abbrev Magnitudes := Array (Nat × Nat)

/-- Consecutive ranges, from `low` on, with the given counts of extra bits. -/
def ranges (low : Nat) : List Nat → List (Nat × Nat)
  | [] => []
  | width :: widths => (low, width) :: ranges (low + 2 ^ width) widths

def literalLengths : Magnitudes :=
  (ranges 0 (List.replicate 16 0 ++
    [1, 1, 1, 1, 2, 2, 3, 3, 4, 6, 7, 8, 9, 10, 11, 12, 13, 14, 15, 16])).toArray

def matchLengths : Magnitudes :=
  (ranges 3 (List.replicate 32 0 ++
    [1, 1, 1, 1, 2, 2, 3, 3, 4, 4, 5, 7, 8, 9, 10, 11, 12, 13, 14, 15, 16])).toArray

/-- Distances; the first three values name recent distances. -/
def distances : Magnitudes := (ranges 1 (List.range 31)).toArray

/-- The number that a symbol and its extra bits stand for. -/
def magnitude? (m : Magnitudes) (c : Fse.Cell) (bits : Bits) : Option (Nat × Bits) := do
  let (low, width) ← m[c.symbol]?
  let (v, bits) ← bits.high? width
  return (low + v, bits)

/-- One of the three codes: its magnitudes, and the code that needs no description. -/
structure Field where
  magnitudes : Magnitudes
  defaultLog : Nat
  defaultShares : Fse.Shares

def literalLengthField : Field where
  magnitudes := literalLengths
  defaultLog := 6
  defaultShares := [4, 3, 2, 2, 2, 2, 2, 2, 2, 2, 2, 2, 2, 1, 1, 1, 2, 2, 2, 2, 2, 2, 2, 2, 2, 3, 2,
    1, 1, 1, 1, 1, -1, -1, -1, -1]

def distanceField : Field where
  magnitudes := distances
  defaultLog := 5
  defaultShares := [1, 1, 1, 1, 1, 1, 2, 2, 2, 1, 1, 1, 1, 1, 1, 1, 1, 1, 1, 1, 1, 1, 1, 1, -1, -1,
    -1, -1, -1]

def matchLengthField : Field where
  magnitudes := matchLengths
  defaultLog := 6
  defaultShares := [1, 4, 3, 2, 2, 2, 2, 2, 2] ++ List.replicate 37 1 ++ List.replicate 7 (-1)

/-- Reads the code of a field: the default, one symbol, a described code, or that of an earlier
block. -/
def Field.table? (f : Field) (mode : Nat) (earlier : Option Fse.Table) (bytes : List UInt8) :
    Option (Fse.Table × List UInt8) := do
  match mode with
  | 0 => return (← Fse.table? f.defaultLog f.defaultShares, bytes)
  | 1 =>
    match bytes with
    | [] => none
    | s :: rest =>
      if s.toNat < f.magnitudes.size then return (Fse.constant s.toNat, rest) else none
  | 2 =>
    let (log, shares, rest) ← Fse.description? 9 (f.magnitudes.size - 1) bytes
    return (← Fse.table? log shares, rest)
  | _ => return (← earlier, bytes)

/-! ## Sequences -/

/-- What blocks of a frame hand on to the next one. -/
structure History where
  /-- The content of the frame so far. -/
  out : Array UInt8 := #[]
  huffman : Option Huffman.Code := none
  literalLength : Option Fse.Table := none
  distance : Option Fse.Table := none
  matchLength : Option Fse.Table := none
  /-- The last three distances, latest first. -/
  recent : Nat × Nat × Nat := (1, 4, 8)

/-- The distance that a value stands for, and the recent distances after it. A small value names a
recent distance, or one less than the latest, and means the next one after a sequence without
literals. -/
def resolve (recent : Nat × Nat × Nat) (value literals : Nat) : Nat × (Nat × Nat × Nat) :=
  let (a, b, c) := recent
  if 3 < value then (value - 3, (value - 3, a, b))
  else
    match value - 1 + (if literals = 0 then 1 else 0) with
    | 0 => (a, (a, b, c))
    | 1 => let d := max b 1; (d, (d, a, c))
    | 2 => let d := max c 1; (d, (d, a, b))
    | _ => let d := max (a - 1) 1; (d, (d, a, b))

/-- Repeats `count` bytes from `distance` back. -/
def repeatFrom (distance : Nat) : Nat → Array UInt8 → Array UInt8
  | 0, out => out
  | count + 1, out => repeatFrom distance count (out.push (out.getD (out.size - distance) 0))

/-- The three codes of a block. -/
structure Codes where
  literalLength : Fse.Table
  distance : Fse.Table
  matchLength : Fse.Table

/-- The states of the three codes. -/
structure States where
  literalLength : Fse.Cell
  distance : Fse.Cell
  matchLength : Fse.Cell

/-- What a block has still to use and has put out. -/
structure Progress where
  literals : List UInt8
  out : Array UInt8
  recent : Nat × Nat × Nat

/-- Carries out one sequence. `start` is where the block's output starts. -/
def Progress.step? (p : Progress) (window start literals value count : Nat) : Option Progress :=
  let (distance, recent) := resolve p.recent value literals
  let taken := p.literals.take literals
  if taken.length < literals then none
  else if min maxBlock window < literals + count + (p.out.size - start) then none
  else
    let out := taken.foldl Array.push p.out
    if out.size < distance ∨ window < distance then none
    else some ⟨p.literals.drop literals, repeatFrom distance count out, recent⟩

/-- Reads and carries out the sequences of a block, which must take all the bits. -/
def Codes.run? (c : Codes) (window start : Nat) :
    (count : Nat) → States → Bits → Progress → Option Progress
  | 0, _, bits, p => if bits.isEmpty then some p else none
  | count + 1, s, bits, p => do
    let (value, bits) ← magnitude? distances s.distance bits
    let (length, bits) ← magnitude? matchLengths s.matchLength bits
    let (literals, bits) ← magnitude? literalLengths s.literalLength bits
    let p ← p.step? window start literals value length
    if count = 0 then
      c.run? window start count s bits p
    else do
      let (l, bits) ← c.literalLength.next? s.literalLength bits
      let (m, bits) ← c.matchLength.next? s.matchLength bits
      let (d, bits) ← c.distance.next? s.distance bits
      c.run? window start count ⟨l, d, m⟩ bits p

/-- The number of sequences in a block, and what stands after it. -/
def sequenceCount? : List UInt8 → Option (Nat × List UInt8)
  | [] => none
  | a :: rest =>
    if a < 128 then some (a.toNat, rest)
    else match a, rest with
      | 255, b :: c :: rest => some (0x7f00 + b.toNat + 256 * c.toNat, rest)
      | 255, _ => none
      | _, b :: rest => some (256 * (a.toNat - 128) + b.toNat, rest)
      | _, [] => none

/-- Adds the content of a compressed block. -/
def compressedBlock? (window : Nat) (h : History) (bytes : List UInt8) : Option History := do
  let (literals, huffman, rest) ← literals? window h.huffman bytes
  let h := { h with huffman }
  let (count, rest) ← sequenceCount? rest
  if count = 0 then
    if rest.isEmpty then return { h with out := h.out ++ literals } else none
  else match rest with
    | [] => none
    | modes :: rest =>
      if modes % 4 ≠ 0 then none
      else do
        let modes := modes.toNat
        let (ll, rest) ← literalLengthField.table? (modes / 64) h.literalLength rest
        let (di, rest) ← distanceField.table? (modes / 16 % 4) h.distance rest
        let (ml, rest) ← matchLengthField.table? (modes / 4 % 4) h.matchLength rest
        let bits ← Bits.backward? rest
        let (l, bits) ← ll.start? bits
        let (d, bits) ← di.start? bits
        let (m, bits) ← ml.start? bits
        let start := h.out.size
        let p ← Codes.run? ⟨ll, di, ml⟩ window start count ⟨l, d, m⟩ bits
          ⟨literals.toList, h.out, h.recent⟩
        if min maxBlock window < p.literals.length + (p.out.size - start) then none
        else return { h with
          out := p.literals.foldl Array.push p.out
          literalLength := some ll
          distance := some di
          matchLength := some ml
          recent := p.recent }

end BlockVM.Zstd
