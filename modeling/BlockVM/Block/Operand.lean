import BlockVM.Isa.Decode
import BlockVM.Numeric.Decimal

/-!
# Addressed operands

What an instruction's operands stand for once the size of the global data is known: registers,
checked offsets into global data, addresses in registers and constants. Both the evaluator and the
compiler work on these.

`validate` rejects instructions that would overwrite a reserved register or that name an empty range
of registers; `operandsOf` checks the offsets into global data, so no later step has to.
-/

namespace BlockVM

open Isa (Inst Kind Family)

/-- The register that holds the address of the core's data space. -/
def dataReg : UInt8 := 255

/-- The register that holds the address of the global data. -/
def globalReg : UInt8 := 254

/-- Bytes of a memory access. -/
inductive Access where
  | byte
  | dword
  | qword
deriving DecidableEq, Repr

namespace Access

def bytes : Access → Nat
  | byte => 1
  | dword => 4
  | qword => 8

def bits (w : Access) : Nat := 8 * w.bytes

def ofKind (k : Kind) : Access :=
  match k.access with
  | 1 => byte
  | 8 => qword
  | _ => dword

end Access

/-- An operand as the machine addresses it. -/
inductive Operand where
  /-- An integer register, 64 bits. -/
  | reg (r : UInt8)
  /-- A float register. -/
  | freg (r : UInt8)
  /-- Global data at an offset; `float` marks memory that holds a float, other 32-bit memory is
  converted when a float operation uses it. -/
  | global (off : Int32) (width : Access) (float : Bool)
  /-- Memory at the address in a register. -/
  | pointer (r : UInt8) (width : Access) (float : Bool)
  | imm (v : UInt64)
  /-- The bits of a float constant. -/
  | fimm (bits : UInt32)
deriving DecidableEq, Repr

namespace Operand

/-- The number of the register that the operand names. -/
def index : Operand → UInt8
  | reg r | freg r | pointer r _ _ => r
  | global .. | imm _ | fimm _ => 0

/-- Whether the operand holds a float. -/
def holdsFloat : Operand → Bool
  | freg _ | fimm _ => true
  | global _ _ float | pointer _ _ float => float
  | reg _ | imm _ => false

/-- The width that an integer operation on the operand uses. -/
def width : Operand → Access
  | global _ w _ | pointer _ w _ => w
  | reg _ | imm _ => .qword
  | freg _ | fimm _ => .dword

/-- The access of a memory operand as text: a float or a number of bits. -/
def accessText (w : Access) (float : Bool) : String :=
  if float then "f" else toString w.bits

def text : Operand → String
  | reg r => "r" ++ toString r.toNat
  | freg r => "f" ++ toString r.toNat
  | global off w float => "g[" ++ Hex.ofInt off.toInt ++ "]:" ++ accessText w float
  | pointer r w float => "[r" ++ toString r.toNat ++ "]:" ++ accessText w float
  | imm v => "$" ++ Hex.ofNat v.toNat
  | fimm bits => Decimal.ofBinary32 bits ++ "f"

end Operand

/-- A global operand that does not fit. -/
def outsideGlobal (i : Inst) (off : UInt32) (w : Access) (globalSize : Int64) : Stop :=
  .fault .operandBounds i.pc (i.name ++ ": global offset " ++ Hex.ofNat off.toNat ++ "+"
    ++ toString w.bytes ++ " outside " ++ toString globalSize.toInt ++ " bytes")

/-- What one decoded operand stands for. -/
def operandOf (i : Inst) (slot : Nat) (a : Isa.Operand) (globalSize : Int64) :
    Except Stop Operand :=
  match a.kind with
  | .reg => .ok (.reg a.index)
  | .freg => .ok (.freg a.index)
  | .ptr | .bytePtr | .quadPtr | .fptr =>
    .ok (.pointer a.index (Access.ofKind a.kind) a.kind.isFloat)
  | .mem | .byteMem | .quadMem | .fmem =>
    let w := Access.ofKind a.kind
    -- Checked once, so that the generated code need not check it again.
    if globalSize < Int64.ofNat (a.low.toNat + w.bytes) then
      .error (outsideGlobal i a.low w globalSize)
    else .ok (.global a.low.toInt32 w a.kind.isFloat)
  | .imm8 | .imm16 | .imm32 | .imm64 => .ok (.imm a.value)
  | .fimm => .ok (.fimm a.low)
  | .addr | .disp =>
    .error (.fault .invalidOpcode i.pc
      (i.name ++ ": operand " ++ toString slot ++ " has kind " ++ a.kind.name))

/-- What the operands of an instruction stand for, from `slot` on. -/
def operandsFrom (i : Inst) (globalSize : Int64) :
    Nat → List Isa.Operand → Except Stop (List Operand)
  | _, [] => .ok []
  | slot, a :: rest => do
    let o ← operandOf i slot a globalSize
    return o :: (← operandsFrom i globalSize (slot + 1) rest)

/-- What the operands of an instruction stand for. -/
def operandsOf (i : Inst) (globalSize : Int64) : Except Stop (List Operand) :=
  operandsFrom i globalSize 0 i.args

/-- Whether the first operand of a family is written. -/
def writesFirst (f : Family) : Bool :=
  match f with
  | .push | .pushes | .fpush | .fpushes | .output | .foutput | .draw | .nop | .time | .sleep
  | .rand => false
  | _ => !f.isControl

/-- Registers that no instruction may write. -/
def reserved (r : UInt8) : Bool := r == dataReg || r == globalReg

/-- Families that name a range of registers. -/
def isRange : Family → Bool
  | .pushes | .pops | .fpushes | .fpops => true
  | _ => false

/-- Rejects what no core may run. -/
def validate (i : Inst) : Except Stop Unit :=
  let first := (i.arg 0).index
  if isRange i.family then
    let last := (i.arg 1).index
    let range := toString first.toNat ++ ".." ++ toString last.toNat
    if last < first then
      .error (.fault .operandBounds i.pc (i.name ++ ": empty register range " ++ range))
    else if i.family = .pops ∧ globalReg ≤ last then
      .error (.fault .reservedRegister i.pc (i.name ++ ": range " ++ range ++ " overwrites r"
        ++ toString globalReg.toNat ++ "/r" ++ toString dataReg.toNat))
    else .ok ()
  else if i.info.kinds.head? = some .reg ∧ writesFirst i.family ∧ reserved first then
    .error (.fault .reservedRegister i.pc (i.name ++ " writes r" ++ toString first.toNat))
  else .ok ()

/-- Validates an instruction and addresses its operands. -/
def prepare (i : Inst) (globalSize : Int64) : Except Stop (List Operand) := do
  validate i
  operandsOf i globalSize

end BlockVM
