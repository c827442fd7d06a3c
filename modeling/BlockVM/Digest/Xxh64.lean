import BlockVM.Bytes.LittleEndian

/-!
# The XXH64 checksum

A compressed frame ends with the low half of this checksum of its content. Stripes of 32 bytes go
into four lanes; what is left over is folded in eight, four and one bytes at a time.
-/

namespace BlockVM.Xxh64

def prime1 : UInt64 := 0x9e3779b185ebca87
def prime2 : UInt64 := 0xc2b2ae3d27d4eb4f
def prime3 : UInt64 := 0x165667b19e3779f9
def prime4 : UInt64 := 0x85ebca77c2b2ae63
def prime5 : UInt64 := 0x27d4eb2f165667c5

def rotateLeft (x : UInt64) (n : UInt64) : UInt64 := (x <<< n) ||| (x >>> (64 - n))

def round (lane word : UInt64) : UInt64 := rotateLeft (lane + word * prime2) 31 * prime1

/-- The four lanes. -/
structure Lanes where
  a : UInt64
  b : UInt64
  c : UInt64
  d : UInt64

/-- The eight bytes from an offset on, as a word. -/
def word (bytes : Array UInt8) (start : Nat) : UInt64 :=
  LittleEndian.toUInt64 ((List.range 8).map fun k => bytes.getD (start + k) 0)

def Lanes.add (l : Lanes) (bytes : Array UInt8) (start : Nat) : Lanes where
  a := round l.a (word bytes start)
  b := round l.b (word bytes (start + 8))
  c := round l.c (word bytes (start + 16))
  d := round l.d (word bytes (start + 24))

/-- The lanes after the first `stripes` stripes. -/
def lanes (bytes : Array UInt8) (stripes : Nat) : Lanes :=
  stripes.fold (fun i _ l => l.add bytes (32 * i))
    ⟨prime1 + prime2, prime2, 0, 0 - prime1⟩

/-- Folds one lane into the joined lanes. -/
def join (h lane : UInt64) : UInt64 := (h ^^^ round 0 lane) * prime1 + prime4

def Lanes.merge (l : Lanes) : UInt64 :=
  let h := rotateLeft l.a 1 + rotateLeft l.b 7 + rotateLeft l.c 12 + rotateLeft l.d 18
  join (join (join (join h l.a) l.b) l.c) l.d

/-- Folds in the bytes that fill no stripe. -/
def tail (h : UInt64) (rest : List UInt8) : UInt64 :=
  if 8 ≤ rest.length then
    let k := round 0 (LittleEndian.toUInt64 (rest.take 8))
    tail (rotateLeft (h ^^^ k) 27 * prime1 + prime4) (rest.drop 8)
  else if 4 ≤ rest.length then
    let k := LittleEndian.toUInt64 (rest.take 4) * prime1
    tail (rotateLeft (h ^^^ k) 23 * prime2 + prime3) (rest.drop 4)
  else match rest with
    | [] => h
    | b :: bs => tail (rotateLeft (h ^^^ (b.toUInt64 * prime5)) 11 * prime1) bs
termination_by rest.length

/-- Spreads every bit over the whole word. -/
def avalanche (h : UInt64) : UInt64 :=
  let h := (h ^^^ (h >>> 33)) * prime2
  let h := (h ^^^ (h >>> 29)) * prime3
  h ^^^ (h >>> 32)

def checksum (bytes : Array UInt8) : UInt64 :=
  let n := bytes.size
  let h := if 32 ≤ n then (lanes bytes (n / 32)).merge else prime5
  avalanche (tail (h + UInt64.ofNat n) (bytes.extract (n / 32 * 32) n).toList)

end BlockVM.Xxh64
