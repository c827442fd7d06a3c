import BlockVM.Fault
import BlockVM.Memory.Cells

/-!
# Arenas

An arena is a named region of memory: a data space, a stack, the global data of a program or a
heap. It is mapped in whole pages, of which only the first `size` bytes may be accessed.

Offsets and lengths are signed 64-bit numbers and the bound of an access is computed in them. An
access whose end wraps around passes the check and aborts when it is made.
-/

namespace BlockVM

def pageSize : Int64 := 4096

/-- The length of the mapping of `size` bytes: whole pages, and at least one. -/
def mappingLength (size : Int64) : Int64 :=
  if size ≤ 0 then pageSize else pageSize * ((pageSize + size - 1) / pageSize)

/-- A region of memory. A closed one has no mapping and no usable bytes. -/
structure Arena where
  name : String
  base : UInt64
  size : Nat
  isOpen : Bool := true
  /-- Mappings that were made before it. No two arenas of a host have the same number. -/
  serial : Nat := 0
deriving DecidableEq, Repr

namespace Arena

/-- The arena after its mapping is gone. -/
def close (a : Arena) : Arena := { a with size := 0, isOpen := false }

def address (a : Arena) : Except Stop UInt64 :=
  if a.isOpen then .ok a.base else .error (.abort none)

/-- The bytes that the arena was mapped with. -/
def mapped (a : Arena) : Nat := (mappingLength (Int64.ofNat a.size)).toNatClampNeg

/-- Whether `[addr, addr + n)` lies inside an open arena. -/
def covers (a : Arena) (addr : UInt64) (n : Int64) : Bool :=
  a.base ≤ addr && addr - a.base + n.toUInt64 ≤ UInt64.ofNat a.size

/-- Whether `[addr, addr + n)` lies inside the arena. -/
def contains (a : Arena) (addr : UInt64) (n : Int64) : Except Stop Bool := do
  let _ ← a.address
  return a.covers addr n

/-- Whether `[off, off + n)` is a valid range. -/
def inBounds (a : Arena) (off n : Int64) : Bool :=
  -- The sum may wrap: the end is then negative and passes.
  0 ≤ off && 0 ≤ n && off + n ≤ Int64.ofNat a.size

def outside (a : Arena) (off n : Int64) : Failure :=
  .detailed (.cause .outOfBounds)
    (a.name ++ "[" ++ toString off.toInt ++ ":" ++ toString (off + n).toInt ++ "] (size "
      ++ toString a.size ++ ")")

def locate (a : Arena) (off n : Int64) : Except Stop UInt64 :=
  if !a.inBounds off n then .error (.failure (a.outside off n))
  -- A range with a wrapped end has passed the check, and cutting it out aborts.
  else if off + n < off then .error (.abort none)
  else .ok (a.base + off.toUInt64)

/-- A word of a width that no access has. -/
def badWidth (n : Int64) : Stop :=
  .abort (some ("ram: unsupported access width " ++ toString n.toInt))

/-- Bytes of the accesses that exist. -/
def isWidth (n : Int64) : Bool := n == 1 || n == 2 || n == 4 || n == 8

def slice (a : Arena) (m : Memory) (off n : Int64) : Except Stop (List UInt8) := do
  let addr ← a.locate off n
  return m.loadBytes addr n.toNatClampNeg

/-- Loads a little-endian word of `n` bytes. -/
def read (a : Arena) (m : Memory) (off n : Int64) : Except Stop UInt64 := do
  let addr ← a.locate off n
  if isWidth n then return m.word addr n.toNatClampNeg else throw (badWidth n)

/-- Stores the low `n` bytes of a word. -/
def write (a : Arena) (m : Memory) (off n : Int64) (v : UInt64) : Except Stop Memory := do
  let addr ← a.locate off n
  if isWidth n then return m.setWord addr n.toNatClampNeg v else throw (badWidth n)

def readFloat (a : Arena) (m : Memory) (off : Int64) : Except Stop UInt32 :=
  return (← a.read m off 4).toUInt32

def writeFloat (a : Arena) (m : Memory) (off : Int64) (bits : UInt32) : Except Stop Memory :=
  a.write m off 4 bits.toUInt64

def bytes (a : Arena) (m : Memory) : List UInt8 := m.loadBytes a.base a.size

/-- The usable bytes without the zero bytes at their end. -/
def significant (a : Arena) (m : Memory) : List UInt8 := m.significant a.base a.size

end Arena

end BlockVM
