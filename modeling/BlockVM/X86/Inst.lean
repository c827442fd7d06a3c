import BlockVM.X86.Operand

/-!
# x86-64 instructions

The instructions that blocks are made of, and the constructors that take operand widths as plain
numbers of bits. Instructions hold only widths that have an encoding, so encoding them cannot fail.
-/

namespace BlockVM.X86

inductive Inst where
  /-- Loads a 64-bit constant; the constant always takes the last eight of ten bytes. -/
  | movRegImm64 (reg : Reg) (imm : UInt64)
  /-- Loads a 32-bit constant, zero-extended. -/
  | movRegImm32 (reg : Reg) (imm : UInt32)
  /-- Loads a 32-bit constant, sign-extended. -/
  | movRegImmSigned (reg : Reg) (imm : Int32)
  /-- Loads from memory, zero-extended. -/
  | load (w : Width) (reg : Reg) (m : Mem)
  /-- Stores the low bits of a register. -/
  | store (w : Width) (m : Mem) (reg : Reg)
  /-- Stores a constant; 64-bit stores sign-extend it. -/
  | storeImm (w : Width) (m : Mem) (imm : Int32)
  /-- Zero-extends the low byte of a register. -/
  | movzxByte (dst src : Reg)
  /-- Loads an address. -/
  | lea (reg : Reg) (m : Mem)
  | aluRegReg (op : AluOp) (size : Size) (dst src : Reg)
  | aluRegImm (op : AluOp) (size : Size) (reg : Reg) (imm : Int32)
  | aluRegMem (op : AluOp) (size : Size) (reg : Reg) (m : Mem)
  | aluMemReg (op : AluOp) (size : Size) (m : Mem) (reg : Reg)
  | aluMemImm (op : AluOp) (size : Size) (m : Mem) (imm : Int32)
  /-- Signed product, truncated. -/
  | imul (size : Size) (dst src : Reg)
  /-- Divides `rdx:rax` by a register, signed. -/
  | idiv (size : Size) (reg : Reg)
  /-- Sign-extends `rax` into `rdx`. -/
  | cqo
  /-- Sign-extends `eax` into `edx`. -/
  | cdq
  /-- Shifts by the count in `cl`. -/
  | shiftCl (op : ShiftOp) (size : Size) (reg : Reg)
  | shiftImm (op : ShiftOp) (size : Size) (reg : Reg) (count : UInt8)
  | movssLoad (x : Xmm) (m : Mem)
  | movssStore (m : Mem) (x : Xmm)
  | sseReg (op : SseOp) (dst src : Xmm)
  | sseMem (op : SseOp) (x : Xmm) (m : Mem)
  /-- Compares two floats and sets the flags of an unsigned comparison. -/
  | ucomissMem (x : Xmm) (m : Mem)
  /-- Rounds a float to an integer. -/
  | cvtss2si (size : Size) (dst : Reg) (src : Xmm)
  /-- Converts an integer to a float. -/
  | cvtsi2ss (size : Size) (dst : Xmm) (src : Reg)
  | cvtsi2ssMem (size : Size) (dst : Xmm) (m : Mem)
  /-- Sets a byte register to 1 or 0. -/
  | setcc (cond : Cond) (reg : Reg)
  /-- Jumps over up to 127 bytes if the condition holds. -/
  | jccShort (cond : Cond) (rel : Int8)
  | ret
  | push (reg : Reg)
  | pop (reg : Reg)
  /-- Copies `rcx` elements from `[rsi]` to `[rdi]`, upward. -/
  | repMovs (w : Width)
deriving DecidableEq, Repr

namespace Inst

/-! ## Short forms -/

/-- Loads a constant by the shortest encoding. -/
def movRegImm (reg : Reg) (imm : UInt64) : Inst :=
  if imm ≤ 0xffffffff then movRegImm32 reg imm.toUInt32
  else if -(2 ^ 31) ≤ imm.toInt64.toInt ∧ imm.toInt64.toInt < 2 ^ 31 then
    movRegImmSigned reg imm.toInt64.toInt32
  else movRegImm64 reg imm

/-- Adds a constant to a 64-bit register. -/
def addImm (reg : Reg) (imm : Int32) : Inst := aluRegImm .add .qword reg imm

/-- Subtracts a constant from a 64-bit register. -/
def subImm (reg : Reg) (imm : Int32) : Inst := aluRegImm .sub .qword reg imm

/-- Exclusive or of 32-bit registers; on one register it gives zero. -/
def xorReg (dst src : Reg) : Inst := aluRegReg .xor .dword dst src

/-! ## Constructors with widths in bits -/

def width (what : String) (bits : UInt8) : Except EncodeError Width :=
  match Width.ofBits? bits with
  | some w => .ok w
  | none => .error (.unsupportedWidth what bits)

/-- A width that arithmetic can have. -/
def size (what : String) (bits : UInt8) : Except EncodeError Size :=
  match Size.ofBits? bits with
  | some s => .ok s
  | none => .error (.unsupportedWidth what bits)

def loadBits (bits : UInt8) (reg : Reg) (m : Mem) : Except EncodeError Inst :=
  return load (← width "mov reg, mem" bits) reg m

def storeBits (bits : UInt8) (m : Mem) (reg : Reg) : Except EncodeError Inst :=
  return store (← width "mov mem, reg" bits) m reg

def storeImmBits (bits : UInt8) (m : Mem) (imm : Int32) : Except EncodeError Inst :=
  return storeImm (← width "mov mem, imm" bits) m imm

def aluRegRegBits (op : AluOp) (bits : UInt8) (dst src : Reg) : Except EncodeError Inst :=
  return aluRegReg op (← size op.name bits) dst src

def aluRegImmBits (op : AluOp) (bits : UInt8) (reg : Reg) (imm : Int32) : Except EncodeError Inst :=
  return aluRegImm op (← size op.name bits) reg imm

def aluRegMemBits (op : AluOp) (bits : UInt8) (reg : Reg) (m : Mem) : Except EncodeError Inst :=
  return aluRegMem op (← size op.name bits) reg m

def aluMemRegBits (op : AluOp) (bits : UInt8) (m : Mem) (reg : Reg) : Except EncodeError Inst :=
  return aluMemReg op (← size op.name bits) m reg

def aluMemImmBits (op : AluOp) (bits : UInt8) (m : Mem) (imm : Int32) : Except EncodeError Inst :=
  return aluMemImm op (← size op.name bits) m imm

def imulBits (bits : UInt8) (dst src : Reg) : Except EncodeError Inst :=
  return imul (← size "imul" bits) dst src

def idivBits (bits : UInt8) (reg : Reg) : Except EncodeError Inst :=
  return idiv (← size "idiv" bits) reg

def shiftClBits (op : ShiftOp) (bits : UInt8) (reg : Reg) : Except EncodeError Inst :=
  return shiftCl op (← size op.name bits) reg

def shiftImmBits (op : ShiftOp) (bits : UInt8) (reg : Reg) (count : UInt8) :
    Except EncodeError Inst :=
  return shiftImm op (← size op.name bits) reg count

def cvtss2siBits (bits : UInt8) (dst : Reg) (src : Xmm) : Except EncodeError Inst :=
  return cvtss2si (← size "cvtss2si" bits) dst src

def cvtsi2ssBits (bits : UInt8) (dst : Xmm) (src : Reg) : Except EncodeError Inst :=
  return cvtsi2ss (← size "cvtsi2ss" bits) dst src

def cvtsi2ssMemBits (bits : UInt8) (dst : Xmm) (m : Mem) : Except EncodeError Inst :=
  return cvtsi2ssMem (← size "cvtsi2ss" bits) dst m

def repMovsBits (bits : UInt8) : Except EncodeError Inst :=
  return repMovs (← width "rep movs" bits)

end Inst

end BlockVM.X86
