import BlockVM.X86.Encode

/-!
# The assembler

An assembler writes instructions to a sink one call at a time, and every call gives the number of
bytes that it has produced. Without a sink it only measures: both kinds go the same way, so that
they agree on every length.

A call names its operands as plain numbers, of which some have no encoding.
-/

namespace BlockVM.X86

/-- A memory operand as a caller names it. -/
inductive Address where
  | ptr (base : Reg) (disp : Int32)
  | indexed (base index : Reg) (factor : UInt8) (disp : Int32)
  | rip (disp : Int32)
deriving DecidableEq, Repr

def Address.mem : Address → Except EncodeError Mem
  | ptr base disp => .ok (.based base disp)
  | indexed base index factor disp => Mem.withIndex base index factor disp
  | rip disp => .ok (.relative disp)

/-- The calls of an assembler. Widths are in bits. -/
inductive Call where
  | movRegImm64 (reg : Reg) (imm : UInt64)
  | movRegImm32 (reg : Reg) (imm : UInt32)
  | movRegImm32SignExt (reg : Reg) (imm : Int32)
  | movRegImm (reg : Reg) (imm : UInt64)
  | movRegMem (bits : UInt8) (reg : Reg) (a : Address)
  | movMemReg (bits : UInt8) (a : Address) (reg : Reg)
  | movMemImm (bits : UInt8) (a : Address) (imm : Int32)
  | movzxRegReg8 (dst src : Reg)
  | lea (reg : Reg) (a : Address)
  | aluRegReg (op : AluOp) (bits : UInt8) (dst src : Reg)
  | aluRegImm (op : AluOp) (bits : UInt8) (reg : Reg) (imm : Int32)
  | aluRegMem (op : AluOp) (bits : UInt8) (reg : Reg) (a : Address)
  | aluMemReg (op : AluOp) (bits : UInt8) (a : Address) (reg : Reg)
  | aluMemImm (op : AluOp) (bits : UInt8) (a : Address) (imm : Int32)
  | addRegImm32 (reg : Reg) (imm : Int32)
  | subRegImm32 (reg : Reg) (imm : Int32)
  | xorRegReg32 (dst src : Reg)
  | imulRegReg (bits : UInt8) (dst src : Reg)
  | idiv (bits : UInt8) (reg : Reg)
  | cqo
  | cdq
  | shiftRegCl (op : ShiftOp) (bits : UInt8) (reg : Reg)
  | shiftRegImm (op : ShiftOp) (bits : UInt8) (reg : Reg) (count : UInt8)
  | movssXmmMem (x : Xmm) (a : Address)
  | movssMemXmm (a : Address) (x : Xmm)
  | sseXmmXmm (op : SseOp) (dst src : Xmm)
  | sseXmmMem (op : SseOp) (x : Xmm) (a : Address)
  | ucomissMem (x : Xmm) (a : Address)
  | cvtss2si (bits : UInt8) (dst : Reg) (src : Xmm)
  | cvtsi2ss (bits : UInt8) (dst : Xmm) (src : Reg)
  | cvtsi2ssMem (bits : UInt8) (dst : Xmm) (a : Address)
  | setcc (cond : Cond) (reg : Reg)
  | jccShort (cond : Cond) (rel : Int8)
  | ret
  | push (reg : Reg)
  | pop (reg : Reg)
  | repMovs (bits : UInt8)
deriving DecidableEq, Repr

/-- The instruction that a call produces. -/
def Call.inst : Call → Except EncodeError Inst
  | movRegImm64 reg imm => .ok (.movRegImm64 reg imm)
  | movRegImm32 reg imm => .ok (.movRegImm32 reg imm)
  | movRegImm32SignExt reg imm => .ok (.movRegImmSigned reg imm)
  | movRegImm reg imm => .ok (.movRegImm reg imm)
  | movRegMem bits reg a => do Inst.loadBits bits reg (← a.mem)
  | movMemReg bits a reg => do Inst.storeBits bits (← a.mem) reg
  | movMemImm bits a imm => do Inst.storeImmBits bits (← a.mem) imm
  | movzxRegReg8 dst src => .ok (.movzxByte dst src)
  | lea reg a => return .lea reg (← a.mem)
  | aluRegReg op bits dst src => Inst.aluRegRegBits op bits dst src
  | aluRegImm op bits reg imm => Inst.aluRegImmBits op bits reg imm
  | aluRegMem op bits reg a => do Inst.aluRegMemBits op bits reg (← a.mem)
  | aluMemReg op bits a reg => do Inst.aluMemRegBits op bits (← a.mem) reg
  | aluMemImm op bits a imm => do Inst.aluMemImmBits op bits (← a.mem) imm
  | addRegImm32 reg imm => .ok (.addImm reg imm)
  | subRegImm32 reg imm => .ok (.subImm reg imm)
  | xorRegReg32 dst src => .ok (.xorReg dst src)
  | imulRegReg bits dst src => Inst.imulBits bits dst src
  | idiv bits reg => Inst.idivBits bits reg
  | cqo => .ok .cqo
  | cdq => .ok .cdq
  | shiftRegCl op bits reg => Inst.shiftClBits op bits reg
  | shiftRegImm op bits reg count => Inst.shiftImmBits op bits reg count
  | movssXmmMem x a => return .movssLoad x (← a.mem)
  | movssMemXmm a x => return .movssStore (← a.mem) x
  | sseXmmXmm op dst src => .ok (.sseReg op dst src)
  | sseXmmMem op x a => return .sseMem op x (← a.mem)
  | ucomissMem x a => return .ucomissMem x (← a.mem)
  | cvtss2si bits dst src => Inst.cvtss2siBits bits dst src
  | cvtsi2ss bits dst src => Inst.cvtsi2ssBits bits dst src
  | cvtsi2ssMem bits dst a => do Inst.cvtsi2ssMemBits bits dst (← a.mem)
  | setcc cond reg => .ok (.setcc cond reg)
  | jccShort cond rel => .ok (.jccShort cond rel)
  | ret => .ok .ret
  | push reg => .ok (.push reg)
  | pop reg => .ok (.pop reg)
  | repMovs bits => Inst.repMovsBits bits

/-- An assembler at work. -/
structure Assembler where
  /-- What the sink has received; an assembler without a sink only measures. -/
  sink : Option (List UInt8)
  /-- Bytes produced so far. -/
  size : Nat
deriving DecidableEq, Repr

namespace Assembler

/-- An assembler that writes behind what the sink already holds. -/
def new (held : List UInt8) : Assembler := ⟨some held, 0⟩

def measure : Assembler := ⟨none, 0⟩

/-- Produces bytes and gives their number. -/
def put (a : Assembler) (bytes : List UInt8) : Assembler × Nat :=
  (⟨a.sink.map (· ++ bytes), a.size + bytes.length⟩, bytes.length)

def perform (a : Assembler) (c : Call) : Except EncodeError (Assembler × Nat) :=
  return a.put (← c.inst).encode

end Assembler

end BlockVM.X86
