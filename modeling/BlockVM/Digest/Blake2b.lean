import BlockVM.Bytes.LittleEndian

/-!
# The BLAKE2b digest

Images are named and checked by 32-byte digests. The message is cut into blocks of 128 bytes, the
last one filled up with zeros; each block is mixed into eight words of state together with the
number of bytes read so far, and the last one is marked.
-/

namespace BlockVM.Blake2b

/-- Words of a block, and the working state of one compression. -/
abbrev Words := Vector UInt64 16

abbrev Chain := Vector UInt64 8

/-- The words that a hash starts from. -/
def initial : Chain :=
  #v[0x6a09e667f3bcc908, 0xbb67ae8584caa73b, 0x3c6ef372fe94f82b, 0xa54ff53a5f1d36f1,
    0x510e527fade682d1, 0x9b05688c2b3e6c1f, 0x1f83d9abfb41bd6b, 0x5be0cd19137e2179]

/-- The order in which each round reads the words of a block. -/
def schedule : List (Vector (Fin 16) 16) := [
  #v[0, 1, 2, 3, 4, 5, 6, 7, 8, 9, 10, 11, 12, 13, 14, 15],
  #v[14, 10, 4, 8, 9, 15, 13, 6, 1, 12, 0, 2, 11, 7, 5, 3],
  #v[11, 8, 12, 0, 5, 2, 15, 13, 10, 14, 3, 6, 7, 1, 9, 4],
  #v[7, 9, 3, 1, 13, 12, 11, 14, 2, 6, 5, 10, 4, 0, 15, 8],
  #v[9, 0, 5, 7, 2, 4, 10, 15, 14, 1, 11, 12, 6, 8, 3, 13],
  #v[2, 12, 6, 10, 0, 11, 8, 3, 4, 13, 7, 5, 15, 14, 1, 9],
  #v[12, 5, 1, 15, 14, 13, 4, 10, 0, 7, 6, 3, 9, 2, 8, 11],
  #v[13, 11, 7, 14, 12, 1, 3, 9, 5, 0, 15, 4, 8, 6, 2, 10],
  #v[6, 15, 14, 9, 11, 3, 0, 8, 12, 2, 13, 7, 1, 4, 10, 5],
  #v[10, 2, 8, 4, 7, 6, 1, 5, 15, 11, 9, 14, 3, 12, 13, 0],
  #v[0, 1, 2, 3, 4, 5, 6, 7, 8, 9, 10, 11, 12, 13, 14, 15],
  #v[14, 10, 4, 8, 9, 15, 13, 6, 1, 12, 0, 2, 11, 7, 5, 3]]

def rotateRight (x : UInt64) (n : UInt64) : UInt64 := (x >>> n) ||| (x <<< (64 - n))

/-- Mixes two words of a block into four words of the state. -/
def mix (v : Words) (a b c d : Fin 16) (x y : UInt64) : Words :=
  let v := v.set a (v[a] + v[b] + x)
  let v := v.set d (rotateRight (v[d] ^^^ v[a]) 32)
  let v := v.set c (v[c] + v[d])
  let v := v.set b (rotateRight (v[b] ^^^ v[c]) 24)
  let v := v.set a (v[a] + v[b] + y)
  let v := v.set d (rotateRight (v[d] ^^^ v[a]) 16)
  let v := v.set c (v[c] + v[d])
  v.set b (rotateRight (v[b] ^^^ v[c]) 63)

/-- One round: the four columns of the state, then its four diagonals. -/
def round (m v : Words) (s : Vector (Fin 16) 16) : Words :=
  let v := mix v 0 4 8 12 m[s[0]] m[s[1]]
  let v := mix v 1 5 9 13 m[s[2]] m[s[3]]
  let v := mix v 2 6 10 14 m[s[4]] m[s[5]]
  let v := mix v 3 7 11 15 m[s[6]] m[s[7]]
  let v := mix v 0 5 10 15 m[s[8]] m[s[9]]
  let v := mix v 1 6 11 12 m[s[10]] m[s[11]]
  let v := mix v 2 7 8 13 m[s[12]] m[s[13]]
  mix v 3 4 9 14 m[s[14]] m[s[15]]

/-- Mixes one block into the chain. `count` is the number of bytes read so far. -/
def compress (h : Chain) (m : Words) (count : Nat) (last : Bool) : Chain :=
  let v : Words := h ++ initial
  let v := v.set 12 (v[12] ^^^ UInt64.ofNat count)
  let v := v.set 13 (v[13] ^^^ UInt64.ofNat (count / 2 ^ 64))
  let v := if last then v.set 14 (v[14] ^^^ 0xffffffffffffffff) else v
  let v := schedule.foldl (round m) v
  Vector.ofFn fun i : Fin 8 => h[i] ^^^ v[i.castAdd 8] ^^^ v[i.natAdd 8]

/-- The words of a block of at most 128 bytes, filled up with zeros. -/
def words (block : List UInt8) : Words :=
  let bytes := block.toArray
  Vector.ofFn fun i : Fin 16 =>
    LittleEndian.toUInt64 ((List.range 8).map fun k => bytes.getD (8 * i + k) 0)

/-- Mixes what is left of the message into the chain, block by block. -/
def absorb (h : Chain) (count : Nat) (rest : List UInt8) : Chain :=
  if hr : rest.length ≤ 128 then compress h (words rest) (count + rest.length) true
  else absorb (compress h (words (rest.take 128)) (count + 128) false) (count + 128) (rest.drop 128)
termination_by rest.length

/-- The digest of a message: 32 bytes. -/
def digest (message : List UInt8) : List UInt8 :=
  let h := initial.set 0 (initial[0] ^^^ 0x01010020)
  ((absorb h 0 message).toList.take 4).flatMap LittleEndian.ofUInt64

@[simp] theorem length_digest (message : List UInt8) : (digest message).length = 32 := by
  simp [digest, LittleEndian.ofUInt64, List.length_flatMap, List.map_const']

end BlockVM.Blake2b
