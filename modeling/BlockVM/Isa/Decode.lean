import BlockVM.Bytes.LittleEndian
import BlockVM.Fault
import BlockVM.Isa.Opcode

/-!
# Decoding

`peek` reads the opcode at an address and `decode` the whole instruction. Addresses are signed
64-bit numbers and the bounds are computed in them, so at the very top of the range the sum with the
size of the opcode or of the instruction wraps; the read that follows then has too little to read
and aborts.
-/

namespace BlockVM.Isa

/-- One decoded operand: the encoded field, zero-extended, but sign-extended for displacements. -/
structure Operand where
  kind : Kind
  value : UInt64
deriving DecidableEq, Repr

namespace Operand

/-- The register named by the operand. -/
def index (o : Operand) : UInt8 := o.value.toUInt8

/-- The low 32 bits: a global offset, an address, a constant or the bits of a float. -/
def low (o : Operand) : UInt32 := o.value.toUInt32

def signed (o : Operand) : Int64 := o.value.toInt64

/-- The operand that a field of `kind` with the given bytes stands for. -/
def ofBytes (kind : Kind) (bs : List UInt8) : Operand :=
  let raw := LittleEndian.toUInt64 bs
  match kind with
  | .disp => ⟨kind, raw.toUInt32.toInt32.toInt64.toUInt64⟩
  | _ => ⟨kind, raw⟩

end Operand

/-- A decoded instruction. -/
structure Inst where
  pc : Int64
  info : Info
  args : List Operand
deriving DecidableEq, Repr

namespace Inst

def name (i : Inst) : String := i.info.name

def family (i : Inst) : Family := i.info.family

def length (i : Inst) : Nat := i.info.length

/-- The address of the following instruction. -/
def next (i : Inst) : Int64 := i.pc + Int64.ofNat i.info.length

def arg (i : Inst) (n : Nat) : Operand := i.args.getD n ⟨.reg, 0⟩

end Inst

/-- The operands of the given kinds, read one after the other. -/
def readOperands : List Kind → List UInt8 → List Operand
  | [], _ => []
  | k :: ks, bs => Operand.ofBytes k (bs.take k.size) :: readOperands ks (bs.drop k.size)

/-- The bytes `[at, at + n)` of the code that exist. -/
def window (code : Array UInt8) (pos n : Nat) : List UInt8 :=
  (code.extract pos (pos + n)).toList

/-- No two bytes of an opcode at `pc`. -/
def noOpcode (pc : Int64) (size : Nat) : Stop :=
  .fault .codeBounds pc ("no opcode inside code of " ++ toString size ++ " bytes")

def unknownOpcode (pc : Int64) (op : UInt16) : Stop :=
  .fault .invalidOpcode pc ("opcode 0x" ++ Hex.padded 4 op.toNat)

/-- An instruction whose operands leave the code. -/
def truncated (pc : Int64) (info : Info) (size : Nat) : Stop :=
  .fault .codeBounds pc (info.name ++ " truncated: needs " ++ toString info.length ++ " bytes, "
    ++ toString (Int64.ofNat size - pc).toInt ++ " left")

/-- The description of the opcode that was read at `pc`. -/
def entry (pc : Int64) (op : UInt16) : Except Stop Info :=
  (lookup op).elim (.error (unknownOpcode pc op)) .ok

/-- Reads the opcode at `pc`. -/
def peek (code : Array UInt8) (pc : Int64) : Except Stop Info :=
  if pc < 0 ∨ Int64.ofNat code.size < pc + Int64.ofNat opcodeSize then
    .error (noOpcode pc code.size)
  else match window code pc.toNatClampNeg opcodeSize with
    | [lo, hi] => entry pc (LittleEndian.value [lo, hi]).toUInt16
    -- Only a wrapped end leads here: the check was passed, but the code has no two bytes at `pc`.
    | _ => .error (.abort none)

/-- Reads the instruction at `pc`. -/
def decode (code : Array UInt8) (pc : Int64) : Except Stop Inst := do
  let info ← peek code pc
  if Int64.ofNat code.size < pc + Int64.ofNat info.length then
    throw (truncated pc info code.size)
  let fields := window code (pc.toNatClampNeg + opcodeSize) (info.length - opcodeSize)
  -- As for the opcode, a wrapped end passes the check before.
  if fields.length < info.length - opcodeSize then throw (.abort none)
  return ⟨pc, info, readOperands info.kinds fields⟩

/-- Decodes one instruction after the other from `pc` to the end of the code, at most `fuel` of
them. Gives the instructions and the stop that ended the sweep, if one did. -/
def sweepFrom (code : Array UInt8) : Nat → Int64 → List Inst × Option Stop
  | 0, _ => ([], none)
  | fuel + 1, pc =>
    if pc < Int64.ofNat code.size then
      match decode code pc with
      | .ok inst =>
        let (rest, stop) := sweepFrom code fuel inst.next
        (inst :: rest, stop)
      | .error stop => ([], some stop)
    else ([], none)

/-- The linear decode from `pc`. Every instruction has at least two bytes, so the size of the code
bounds their number. -/
def sweep (code : Array UInt8) (pc : Int64) : List Inst × Option Stop :=
  sweepFrom code (code.size + 1) pc

end BlockVM.Isa
