import BlockVM.Block.Action

/-!
# The register file

A core has 256 integer registers of 64 bits, 256 float registers of 32 bits and a stack pointer,
which is an offset into the core's stack.

Generated code sees the file as bytes: the integers, then the floats, then the stack pointer.
-/

namespace BlockVM

structure Registers where
  ints : Vector UInt64 256
  floats : Vector UInt32 256
  sp : Int64

namespace Registers

def zero : Registers := ⟨.replicate 256 0, .replicate 256 0, 0⟩

def slot (r : UInt8) : Fin 256 := r.toFin

def int (f : Registers) (r : UInt8) : UInt64 := f.ints[slot r]

def setInt (f : Registers) (r : UInt8) (v : UInt64) : Registers :=
  { f with ints := f.ints.set (slot r) v }

def float (f : Registers) (r : UInt8) : UInt32 := f.floats[slot r]

def setFloat (f : Registers) (r : UInt8) (v : UInt32) : Registers :=
  { f with floats := f.floats.set (slot r) v }

/-! ## Ranges -/

/-- The bits of a register of either file. -/
def bits (f : Registers) (float : Bool) (r : UInt8) : UInt64 :=
  if float then (f.float r).toUInt64 else f.int r

def setBits (f : Registers) (float : Bool) (r : UInt8) (v : UInt64) : Registers :=
  if float then f.setFloat r v.toUInt32 else f.setInt r v

/-! ## Bytes -/

def spliceByte (w : UInt64) (i : Nat) (b : UInt8) : UInt64 :=
  let shift := UInt64.ofNat (8 * i)
  (w &&& ~~~((0xff : UInt64) <<< shift)) ||| (b.toUInt64 <<< shift)

def byteOf (w : UInt64) (i : Nat) : UInt8 := (w >>> UInt64.ofNat (8 * i)).toUInt8

/-- The byte at an offset of the file. -/
def byteAt (f : Registers) (off : Nat) : UInt8 :=
  if off < 2048 then byteOf (f.int (UInt8.ofNat (off / 8))) (off % 8)
  else if off < 3072 then byteOf (f.float (UInt8.ofNat ((off - 2048) / 4))).toUInt64 (off % 4)
  else byteOf f.sp.toUInt64 (off % 8)

/-- Replaces the byte at an offset of the file. -/
def setByteAt (f : Registers) (off : Nat) (b : UInt8) : Registers :=
  if off < 2048 then
    let r := UInt8.ofNat (off / 8)
    f.setInt r (spliceByte (f.int r) (off % 8) b)
  else if off < 3072 then
    let r := UInt8.ofNat ((off - 2048) / 4)
    f.setFloat r (spliceByte (f.float r).toUInt64 (off % 4) b).toUInt32
  else { f with sp := (spliceByte f.sp.toUInt64 (off % 8) b).toInt64 }

end Registers

end BlockVM
