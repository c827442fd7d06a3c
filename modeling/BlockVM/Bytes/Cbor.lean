import BlockVM.Numeric.Instances

/-!
# Concise binary objects

Journal records are stored as concise binary objects: each item starts with its kind, in three bits,
and a number, which takes the rest of the first byte or one, two, four or eight bytes after it, most
significant first.
-/

namespace BlockVM.Cbor

/-- The low `n` bytes of `v`, most significant first. -/
def bigEndian : Nat → Nat → List UInt8
  | 0, _ => []
  | n + 1, v => UInt8.ofNat (v / 256 ^ n) :: bigEndian n v

def head (kind n : Nat) : List UInt8 :=
  let first (low : Nat) : UInt8 := UInt8.ofNat (32 * kind + low)
  if n < 24 then [first n]
  else if n < 2 ^ 8 then first 24 :: bigEndian 1 n
  else if n < 2 ^ 16 then first 25 :: bigEndian 2 n
  else if n < 2 ^ 32 then first 26 :: bigEndian 4 n
  else first 27 :: bigEndian 8 n

/-- A number; a negative one is stored by its distance from -1. -/
def int (i : Int) : List UInt8 :=
  if 0 ≤ i then head 0 i.toNat else head 1 (-1 - i).toNat

def bytes (bs : List UInt8) : List UInt8 := head 2 bs.length ++ bs

def text (s : String) : List UInt8 :=
  let bs := s.toUTF8.toList
  head 3 bs.length ++ bs

def bool (b : Bool) : List UInt8 := [if b then 0xf5 else 0xf4]

def null : List UInt8 := [0xf6]

def array (items : List (List UInt8)) : List UInt8 := head 4 items.length ++ items.flatten

/-- Named items, in the given order. -/
def map (fields : List (String × List UInt8)) : List UInt8 :=
  head 5 fields.length ++ fields.flatMap fun (k, v) => text k ++ v

end BlockVM.Cbor
