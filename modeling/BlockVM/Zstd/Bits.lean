/-!
# Bit streams

Compressed data is read bit by bit. A stream is the list of its bits in the order in which they are
read. Table descriptions are read forwards, from the lowest bit of the first byte on; coded symbols
are read backwards, from the highest bit of the last byte on, after a mark that is the highest set
bit of that byte.
-/

namespace BlockVM.Zstd

/-- The bits still to be read, next one first. -/
abbrev Bits := List Bool

namespace Bits

/-- The bits of a byte, lowest first. -/
def ofByte (b : UInt8) : Bits := (List.range 8).map fun i => b.toNat.testBit i

/-- The stream read from the first byte on. -/
def forward (bytes : List UInt8) : Bits := bytes.flatMap ofByte

/-- The stream read from the last byte on, if its end mark is there. -/
def backward? (bytes : List UInt8) : Option Bits :=
  match bytes.reverse with
  | [] => none
  | last :: rest =>
    match (ofByte last).reverse.dropWhile (!·) with
    | [] => none
    | _ :: bits => some (bits ++ rest.flatMap fun b => (ofByte b).reverse)

def low? : Nat → Bits → Option (Nat × Bits)
  | 0, bits => some (0, bits)
  | _ + 1, [] => none
  | n + 1, b :: bits => do
    let (v, rest) ← low? n bits
    return (b.toNat + 2 * v, rest)

/-- Reads `n` bits below the bits of `acc`, highest first. -/
def highAfter? (acc : Nat) : Nat → Bits → Option (Nat × Bits)
  | 0, bits => some (acc, bits)
  | _ + 1, [] => none
  | n + 1, b :: bits => highAfter? (2 * acc + b.toNat) n bits

def high? (n : Nat) (bits : Bits) : Option (Nat × Bits) := highAfter? 0 n bits

/-- The value of the next `n` bits, highest first, with zeros after the end. -/
def peek (acc : Nat) : Nat → Bits → Nat
  | 0, _ => acc
  | n + 1, [] => peek (2 * acc) n []
  | n + 1, b :: bits => peek (2 * acc + b.toNat) n bits

def skip? : Nat → Bits → Option Bits
  | 0, bits => some bits
  | _ + 1, [] => none
  | n + 1, _ :: bits => skip? n bits

end Bits

end BlockVM.Zstd
