/-!
# Operand kinds

An operand slot of an instruction has a kind: what its encoded field means and how wide it is. A
kind is written as a short token in mnemonics (`R`, `MR`, `IMMI8`, …).
-/

namespace BlockVM.Isa

/-- The addressing mode of one operand slot. -/
inductive Kind where
  /-- Integer register. -/
  | reg
  /-- Float register. -/
  | freg
  /-- Global-data offset, 32-bit access. -/
  | mem
  /-- Global-data offset, 8-bit access. -/
  | byteMem
  /-- Global-data offset, 64-bit access. -/
  | quadMem
  /-- Register holding an address, 32-bit access. -/
  | ptr
  /-- Register holding an address, 8-bit access. -/
  | bytePtr
  /-- Register holding an address, 64-bit access. -/
  | quadPtr
  /-- Global-data offset of a single-precision float. -/
  | fmem
  /-- Register holding the address of a single-precision float. -/
  | fptr
  | imm8
  | imm16
  | imm32
  | imm64
  /-- Single-precision float constant. -/
  | fimm
  /-- Absolute code address. -/
  | addr
  /-- Signed code displacement. -/
  | disp
deriving DecidableEq, Repr

namespace Kind

/-- Every kind, in the order of their codes; codes start at 1. -/
def all : List Kind := [
  reg, freg, mem, byteMem, quadMem, ptr, bytePtr, quadPtr, fmem, fptr,
  imm8, imm16, imm32, imm64, fimm, addr, disp]

def name : Kind → String
  | reg => "R"
  | freg => "FR"
  | mem => "M"
  | byteMem => "BM"
  | quadMem => "QM"
  | ptr => "MR"
  | bytePtr => "MBR"
  | quadPtr => "MQR"
  | fmem => "FM"
  | fptr => "MFR"
  | imm8 => "IMMI8"
  | imm16 => "IMMI16"
  | imm32 => "IMMI"
  | imm64 => "IMMI64"
  | fimm => "FIMMI"
  | addr => "ADDR"
  | disp => "DISP"

def ofCode? (n : UInt8) : Option Kind :=
  if n = 0 then none else all[n.toNat - 1]?

/-- The token of the kind with a code, or the code itself where there is no such kind. -/
def nameOfCode (n : UInt8) : String :=
  match ofCode? n with
  | some k => k.name
  | none => "kind(" ++ toString n.toNat ++ ")"

def size : Kind → Nat
  | reg | freg | ptr | bytePtr | quadPtr | fptr | imm8 => 1
  | imm16 => 2
  | mem | byteMem | quadMem | fmem | imm32 | fimm | addr | disp => 4
  | imm64 => 8

/-- Bytes that a memory operand reads or writes; 0 for other kinds. -/
def access : Kind → Nat
  | byteMem | bytePtr => 1
  | mem | ptr | fmem | fptr => 4
  | quadMem | quadPtr => 8
  | _ => 0

def isGlobal : Kind → Bool
  | mem | byteMem | quadMem | fmem => true
  | _ => false

/-- An operand that follows an address in a register. -/
def isPointer : Kind → Bool
  | ptr | bytePtr | quadPtr | fptr => true
  | _ => false

def isFloat : Kind → Bool
  | freg | fmem | fptr | fimm => true
  | _ => false

/-- An operand that reads or writes memory. -/
def isMemory (k : Kind) : Bool := k.isGlobal || k.isPointer

/-- A constant inside the instruction. -/
def isImmediate : Kind → Bool
  | imm8 | imm16 | imm32 | imm64 | fimm => true
  | _ => false

/-- An operand whose encoded byte is a register number. -/
def namesRegister (k : Kind) : Bool := k == reg || k == freg || k.isPointer

end Kind

end BlockVM.Isa
