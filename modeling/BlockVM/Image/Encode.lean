import BlockVM.Image.Codec
import BlockVM.Machine.State
import BlockVM.Text.Base58

/-!
# Writing images

An image holds a program in a file:

    mark[4] version[1] header[20] data[1] parity[1] size[4]
    digest[32] shard digests[(data + parity) * 32] shards[data + parity]

The payload (code and global data, with their lengths) is compressed, cut into data shards of one
size and joined by parity shards. The digest is that of the compressed payload.
-/

namespace BlockVM.Image

/-- The bytes that an image starts with. -/
def mark : List UInt8 := "DSPX".toUTF8.toList

def version : UInt8 := 1

def dataShards : Nat := 4

def parityShards : Nat := 2

def headerSize : Nat := 20

def digestSize : Nat := 32

/-- The size of the fields in front of the shard digests. -/
def fixedSize : Nat := 4 + 1 + headerSize + 2 + 4 + digestSize

def headerBytes (h : Header) : List UInt8 :=
  LittleEndian.ofUInt32 h.stackSize ++ LittleEndian.ofUInt32 h.dataSize
    ++ LittleEndian.ofUInt32 h.codeStart ++ LittleEndian.ofUInt64 h.param

/-- Code and global data, after their lengths. -/
def payload (p : Program) : List UInt8 :=
  LittleEndian.bytes 4 p.code.size ++ LittleEndian.bytes 4 p.global.length
    ++ p.code.toList ++ p.global

/-- The name of a program: a digest of its header and contents, which does not depend on the
compression. -/
def id (c : Codec) (p : Program) : String :=
  Base58.encode (c.digest (mark ++ headerBytes p.header ++ payload p))

/-- The size of each of `count` shards that hold `size` bytes. -/
def shardSize (size count : Nat) : Nat := (size + count - 1) / count

/-- `count` shards of `size` bytes each, filled up with zeros. -/
def split (size : Nat) : (count : Nat) → List UInt8 → List (List UInt8)
  | 0, _ => []
  | count + 1, bytes =>
    (bytes.take size ++ List.replicate (size - bytes.length) 0) ::
      split size count (bytes.drop size)

def encode (c : Codec) (p : Program) : List UInt8 :=
  let compressed := c.compress (payload p)
  let data := split (shardSize compressed.length dataShards) dataShards compressed
  let shards := data ++ c.parity parityShards data
  mark ++ [version] ++ headerBytes p.header
    ++ [UInt8.ofNat dataShards, UInt8.ofNat parityShards]
    ++ LittleEndian.bytes 4 compressed.length
    ++ c.digest compressed
    ++ shards.flatMap c.digest
    ++ shards.flatten

end BlockVM.Image
