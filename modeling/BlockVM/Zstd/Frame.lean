import BlockVM.Bytes.LittleEndian
import BlockVM.Digest.Xxh64
import BlockVM.Zstd.Sequence

/-!
# Compressed frames

Compressed data is a row of frames, each with a header, blocks, and a checksum if the header says
so; frames that are marked to be skipped stand for nothing. `compress` writes one frame of stored
blocks; `decompress?` reads every kind of block.
-/

namespace BlockVM.Zstd

/-- The four bytes that a frame starts with. -/
def frameMark : List UInt8 := [0x28, 0xb5, 0x2f, 0xfd]

def maxWindow : Nat := 2 ^ 29

/-! ## Writing -/

/-- The blocks that store `payload`; all but the last one are full. -/
def storedBlocks (payload : List UInt8) : List UInt8 :=
  if _h : payload.length ≤ maxBlock then
    LittleEndian.bytes 3 (8 * payload.length + 1) ++ payload
  else
    LittleEndian.bytes 3 (8 * maxBlock) ++ payload.take maxBlock
      ++ storedBlocks (payload.drop maxBlock)
termination_by payload.length
decreasing_by
  have : 0 < maxBlock := by decide
  simp only [List.length_drop]
  omega

/-- The header of a frame with `n` bytes of content and a checksum. A short content is given a
window of 1024 bytes, a longer one is its own window. -/
def frameHeader (n : Nat) : List UInt8 :=
  let (code, size) :=
    if n < 256 then (0, [])
    else if n < 65536 + 256 then (1, LittleEndian.bytes 2 (n - 256))
    else if n < 2 ^ 32 - 1 then (2, LittleEndian.bytes 4 n)
    else (3, LittleEndian.bytes 8 n)
  if n ≤ 1024 then UInt8.ofNat (4 + 64 * code) :: 0 :: size
  else UInt8.ofNat (0x24 + 64 * code) :: size

def compress (payload : List UInt8) : List UInt8 :=
  frameMark ++ frameHeader payload.length ++ storedBlocks payload
    ++ LittleEndian.bytes 4 (Xxh64.checksum payload.toArray).toNat

/-! ## Reading -/

/-- What a frame says about itself. -/
structure FrameHeader where
  window : Nat
  content : Option Nat
  checksum : Bool

def number? (size : Nat) (bytes : List UInt8) : Option (Nat × List UInt8) :=
  if bytes.length < size then none
  else some (LittleEndian.value (bytes.take size), bytes.drop size)

/-- The window that its description stands for. -/
def windowSize (description : Nat) : Nat :=
  let base := 2 ^ (10 + description / 8)
  base + base / 8 * (description % 8)

/-- Reads the header of a frame, after its mark. Frames that need a dictionary are refused. -/
def frameHeader? (bytes : List UInt8) : Option (FrameHeader × List UInt8) := do
  let (flags, rest) ← number? 1 bytes
  let single := flags.testBit 5
  if flags.testBit 3 then none
  else do
    let (described, rest) ← if single then some (0, rest) else
      (number? 1 rest).map fun (d, rest) => (windowSize d, rest)
    let (dictionary, rest) ← number? (#[0, 1, 2, 4].getD (flags % 4) 0) rest
    let code := flags / 64
    let (content, rest) ←
      if code = 0 ∧ ¬ single then some (none, rest)
      else (number? (2 ^ code) rest).map fun (n, rest) =>
        (some (if code = 1 then n + 256 else n), rest)
    let window := if single then max (content.getD 0) 1024 else described
    if dictionary ≠ 0 ∨ maxWindow < window then none
    else return (⟨window, content, flags.testBit 2⟩, rest)

/-- Reads one block: whether it is the last, and what stands after it. -/
def block? (window : Nat) (h : History) (bytes : List UInt8) :
    Option (Bool × History × List UInt8) := do
  let (head, rest) ← number? 3 bytes
  let size := head / 8
  if maxBlock < size ∨ window < size then none
  else
    let last := head % 2 = 1
    match head / 2 % 4 with
    | 0 =>
      if rest.length < size then none
      else return (last, { h with out := (rest.take size).foldl Array.push h.out }, rest.drop size)
    | 1 =>
      match rest with
      | [] => none
      | b :: rest => return (last, { h with out := h.out ++ Array.replicate size b }, rest)
    | 2 =>
      if size < 2 ∨ rest.length < size then none
      else return (last, ← compressedBlock? window h (rest.take size), rest.drop size)
    | _ => none

/-- Reads blocks up to the last one, of which at most `fuel`. -/
def blocks? (window : Nat) : (fuel : Nat) → History → List UInt8 → Option (History × List UInt8)
  | 0, _, _ => none
  | fuel + 1, h, bytes => do
    let (last, h, rest) ← block? window h bytes
    if last then return (h, rest) else blocks? window fuel h rest

/-- Reads a frame, after its mark: its content, and what stands after it. A frame has fewer blocks
than bytes. -/
def frame? (bytes : List UInt8) : Option (Array UInt8 × List UInt8) := do
  let (header, rest) ← frameHeader? bytes
  let (h, rest) ← blocks? header.window bytes.length {} rest
  if header.content.any (· != h.out.size) then none
  else if header.checksum then do
    let (sum, rest) ← number? 4 rest
    if sum = (Xxh64.checksum h.out).toNat % 2 ^ 32 then return (h.out, rest) else none
  else return (h.out, rest)

/-- Reads frames, of which at most `fuel`, and puts their contents behind `out`. -/
def frames? : (fuel : Nat) → Array UInt8 → List UInt8 → Option (Array UInt8)
  | _, out, [] => some out
  | 0, _, _ => none
  | fuel + 1, out, bytes => do
    let (mark, rest) ← number? 4 bytes
    if mark / 16 = 0x184d2a5 then
      let (size, rest) ← number? 4 rest
      if rest.length < size then none else frames? fuel out (rest.drop size)
    else if mark = LittleEndian.value frameMark then
      let (content, rest) ← frame? rest
      frames? fuel (out ++ content) rest
    else none

def decompress? (bytes : List UInt8) : Option (List UInt8) :=
  (frames? bytes.length #[] bytes).map (·.toList)

end BlockVM.Zstd
