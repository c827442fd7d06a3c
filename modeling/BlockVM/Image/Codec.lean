import BlockVM.Digest.Blake2b
import BlockVM.ReedSolomon
import BlockVM.Zstd.Frame

/-!
# What images are made with

An image is built from a digest, a compression and a parity code. They are kept together in one
record, so that what is said about images rests on their laws alone.
-/

namespace BlockVM.Image

/-- The digest, compression and parity code of an image format. -/
structure Codec where
  /-- A digest of 32 bytes. -/
  digest : List UInt8 → List UInt8
  compress : List UInt8 → List UInt8
  decompress? : List UInt8 → Option (List UInt8)
  /-- So many parity shards for data shards. -/
  parity : Nat → List (List UInt8) → List (List UInt8)
  /-- So many data shards, from the shards that are there. -/
  repair : Nat → List (Option (List UInt8)) → Except ReedSolomon.Problem (List (List UInt8))

/-- What image files use. -/
def Codec.standard : Codec where
  digest := Blake2b.digest
  compress := Zstd.compress
  decompress? := Zstd.decompress?
  parity := ReedSolomon.parity
  repair := ReedSolomon.repair

end BlockVM.Image
