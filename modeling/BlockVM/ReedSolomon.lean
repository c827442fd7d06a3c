/-!
# Parity shards

A payload is cut into data shards, and parity shards are added to them. Byte by byte, the shards are
the values of one polynomial of least degree over the field of 256 elements: shard `i` holds its
value at `i`. So the data shards stand in the file as they are, and any of the shards, if they are
as many as the data shards, give the others back by interpolation.
-/

namespace BlockVM

/-! ## The field of 256 elements

Bytes are polynomials over the field of two elements, modulo `x^8 + x^4 + x^3 + x^2 + 1`. Sum and
difference are the exclusive or. -/

namespace Gf256

def double (a : UInt8) : UInt8 :=
  if a < 0x80 then a <<< 1 else (a <<< 1) ^^^ 0x1d

/-- The product with the low `n` bits of `b`. -/
def mulBits : Nat → UInt8 → UInt8 → UInt8
  | 0, _, _ => 0
  | n + 1, a, b => (if b &&& 1 = 1 then a else 0) ^^^ mulBits n (double a) (b >>> 1)

def mul (a b : UInt8) : UInt8 := mulBits 8 a b

def pow (a : UInt8) : Nat → UInt8
  | 0 => 1
  | n + 1 => mul a (pow a n)

/-- The inverse; the group of units has 255 elements. -/
def inv (a : UInt8) : UInt8 := pow a 254

end Gf256

namespace ReedSolomon

open Gf256

/-- Why missing shards could not be computed. -/
inductive Problem where
  /-- No shard is there at all. -/
  | noShards
  /-- Fewer shards are there than data shards are needed. -/
  | tooFew
  /-- More shards than the field has elements. -/
  | shardSize
deriving DecidableEq, Repr

def Problem.message : Problem → String
  | noShards => "no shard data"
  | tooFew => "too few shards given"
  | shardSize => "invalid shard size"

/-- At `x`, the value of the polynomial that is 1 at `node` and 0 at the other nodes. -/
def basis (nodes : List UInt8) (node x : UInt8) : UInt8 :=
  (nodes.filter (· != node)).foldl
    (fun acc m => mul acc (mul (x ^^^ m) (inv (node ^^^ m)))) 1

/-- The shard at `x` of the polynomial through the given shards. -/
def interpolate (size : Nat) (points : List (UInt8 × List UInt8)) (x : UInt8) : List UInt8 :=
  let nodes := points.map (·.1)
  points.foldl (fun acc (node, shard) =>
    let c := basis nodes node x
    List.zipWith (fun a b => a ^^^ mul c b) acc shard) (List.replicate size 0)

/-- The parity shards that go with data shards of one size. -/
def parity (count : Nat) (data : List (List UInt8)) : List (List UInt8) :=
  let points := data.zipIdx.map fun (shard, i) => (UInt8.ofNat i, shard)
  let size := (data.head?.map (·.length)).getD 0
  (List.range count).map fun k => interpolate size points (UInt8.ofNat (data.length + k))

/-- The shards that are there, with their positions. An empty shard counts as missing. -/
def present (shards : List (Option (List UInt8))) : List (Nat × List UInt8) :=
  shards.zipIdx.filterMap fun (shard, i) =>
    match shard with
    | some (b :: bs) => some (i, b :: bs)
    | _ => none

/-- The first `data` shards, with the missing ones computed from the first shards that are there. -/
def repair (data : Nat) (shards : List (Option (List UInt8))) :
    Except Problem (List (List UInt8)) :=
  let known := present shards
  match known with
  | [] => .error .noShards
  | (_, first) :: _ =>
    -- With all data shards there, a damaged parity shard needs no computation.
    if (known.filter (·.1 < data)).length = data then
      .ok (known.filter (·.1 < data) |>.map (·.2))
    else if known.length < data then .error .tooFew
    else if 256 < shards.length then .error .shardSize
    else
      let points := (known.take data).map fun (i, shard) => (UInt8.ofNat i, shard)
      .ok ((List.range data).map fun i =>
        match known.lookup i with
        | some shard => shard
        | none => interpolate first.length points (UInt8.ofNat i))

end ReedSolomon

end BlockVM
