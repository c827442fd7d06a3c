import BlockVM.Image.Encode

/-!
# Reading images

A file is read field by field; each check fails with a cause of its own, and the first that fails is
reported. A shard that does not match its digest is treated as missing. Missing data shards are
computed from the others, and the joined payload is checked as a whole before it is decompressed.
-/

namespace BlockVM.Image

def slice (b : List UInt8) (start n : Nat) : List UInt8 := (b.drop start).take n

/-- The program header at the start of `b`. -/
def headerOf (b : List UInt8) : Header where
  stackSize := LittleEndian.toUInt32 (slice b 0 4)
  dataSize := LittleEndian.toUInt32 (slice b 4 4)
  codeStart := LittleEndian.toUInt32 (slice b 8 4)
  param := LittleEndian.toUInt64 (slice b 12 8)

/-- The program with the given header and payload. -/
def ofPayload (header : Header) (p : List UInt8) : Except Failure Program :=
  if p.length < 8 then .error (.cause .payloadLengths)
  else
    let code := LittleEndian.value (slice p 0 4)
    let global := LittleEndian.value (slice p 4 4)
    if p.length ≠ 8 + code + global then
      .error (.detailed (.cause .payloadLengths)
        ("code " ++ toString code ++ " + global " ++ toString global ++ " in "
          ++ toString (p.length - 8) ++ " bytes"))
    else .ok ⟨header, (slice p 8 code).toArray, p.drop (8 + code)⟩

/-- The shards of `b`, in which those that do not match their digests are missing. -/
def intactShards (c : Codec) (b : List UInt8) (count size : Nat) : List (Option (List UInt8)) :=
  (List.range count).map fun i =>
    let shard := slice b (fixedSize + count * digestSize + i * size) size
    if c.digest shard = slice b (fixedSize + i * digestSize) digestSize then some shard else none

/-- The data shards. They are computed only if a shard is missing. -/
def dataOf (c : Codec) (data : Nat) (shards : List (Option (List UInt8))) :
    Except Failure (List (List UInt8)) :=
  let damaged := (shards.filter (·.isNone)).length
  if damaged = 0 then .ok ((shards.take data).map (·.getD []))
  else match c.repair data shards with
    | .ok found => .ok found
    | .error problem =>
      .error (.detailed (.cause .imageUnrecoverable)
        (toString damaged ++ " of " ++ toString shards.length ++ " shards damaged: "
          ++ problem.message))

/-- The first `size` bytes of the data shards. Empty shards are refused. -/
def join (size : Nat) (data : List (List UInt8)) : Except Failure (List UInt8) :=
  if data.any (·.isEmpty) then
    .error (.within "joining shards" (.ofText
      "reconstruction required as one or more required data shards are nil"))
  else .ok (data.flatten.take size)

/-- The program in a file. -/
def decode (c : Codec) (b : List UInt8) : Except Failure Program := do
  if b.length < fixedSize then throw (.cause .imageTruncated)
  if slice b 0 4 ≠ mark then throw (.cause .badMagic)
  let found := b.getD 4 0
  if found ≠ version then
    throw (.detailed (.cause .imageVersion) (toString found.toNat))
  let header := headerOf (b.drop 5)
  let data := (b.getD 25 0).toNat
  let parity := (b.getD 26 0).toNat
  let size := LittleEndian.value (slice b 27 4)
  let digest := slice b 31 digestSize
  if data = 0 then throw (.detailed (.cause .imageTruncated) "no data shards")
  let total := data + parity
  let shard := shardSize size data
  -- Only now the number of shards is known, and with it how long the file must be.
  if b.length < fixedSize + total * digestSize + total * shard then throw (.cause .imageTruncated)
  let shards ← dataOf c data (intactShards c b total shard)
  let compressed ← join size shards
  if c.digest compressed ≠ digest then throw (.cause .imageUnrecoverable)
  match c.decompress? compressed with
  | none => throw (.within "decompressing payload" (.cause .decompression))
  | some p => ofPayload header p

end BlockVM.Image
