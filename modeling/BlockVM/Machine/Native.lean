import BlockVM.Machine.Control
import BlockVM.X86.Machine

/-!
# Running machine code

A block runs on an x86-64 machine whose memory is the register file of the core, the machine code
itself, a small processor stack and the mapped pages of the arenas. Whenever it returns a token, the
host performs the named instruction and resumes it; a token of 0 ends it.

No instruction of a block jumps backward, so a call executes each byte of the code at most once and
each resumption starts behind the one before it. These bounds end the loops.
-/

namespace BlockVM

open X86 (ByteMemory)

namespace Native

/-- A stretch of addresses. Distances from its base wrap at the top of the range. -/
structure Region where
  base : UInt64
  size : Nat
deriving DecidableEq, Repr

namespace Region

def has (r : Region) (a : UInt64) : Bool := (a - r.base).toNat < r.size

def ofArena (a : Arena) : Region := ⟨a.base, a.mapped⟩

end Region

/-- Where the host keeps what a block needs beside the arenas. -/
structure Placement where
  /-- The register file. -/
  file : UInt64
  /-- The machine code. -/
  code : UInt64
  /-- The upper end of the processor's stack. -/
  stackTop : UInt64
  /-- Bytes of the processor's stack. -/
  stackBytes : Nat
  /-- Where control goes when a block returns. -/
  returnAddress : UInt64
deriving DecidableEq, Repr

namespace Placement

/-- A placement below all arenas. -/
def standard : Placement where
  file := 0x10000
  code := 0x40000000
  stackTop := 0x20000000
  stackBytes := 0x1000
  returnAddress := 0x30000000

def fileRegion (p : Placement) : Region := ⟨p.file, Layout.fileSize⟩

def codeRegion (p : Placement) (size : Nat) : Region := ⟨p.code, size⟩

def stackRegion (p : Placement) : Region := ⟨p.stackTop - UInt64.ofNat p.stackBytes, p.stackBytes⟩

end Placement

/-- The memory that a block can reach. -/
structure View where
  place : Placement
  code : Array UInt8
  regs : Registers
  /-- The processor's stack. -/
  scratch : Memory
  memory : Memory
  arenas : List Arena

namespace View

/-- Whether an address lies in a mapped page of an arena. -/
def isMapped (v : View) (a : UInt64) : Bool := v.arenas.any fun x => (Region.ofArena x).has a

def load (v : View) (a : UInt64) : Option UInt8 :=
  if v.place.fileRegion.has a then some (v.regs.byteAt (a - v.place.file).toNat)
  else if (v.place.codeRegion v.code.size).has a then v.code[(a - v.place.code).toNat]?
  else if v.place.stackRegion.has a then some (v.scratch.load a)
  else if v.isMapped a then some (v.memory.load a)
  else none

/-- Stores a byte. The machine code is write-protected. -/
def store (v : View) (a : UInt64) (b : UInt8) : Option View :=
  if v.place.fileRegion.has a then
    some { v with regs := v.regs.setByteAt (a - v.place.file).toNat b }
  else if (v.place.codeRegion v.code.size).has a then none
  else if v.place.stackRegion.has a then some { v with scratch := v.scratch.store a b }
  else if v.isMapped a then some { v with memory := v.memory.store a b }
  else none

end View

instance : ByteMemory View := ⟨View.load, View.store⟩

/-- The processor at the entry of a block. -/
def entryCpu (p : Placement) (entry : UInt64) : X86.Cpu :=
  let cpu : X86.Cpu := ⟨.replicate 16 0, .replicate 16 0, none, entry⟩
  (cpu.setReg .rdi p.file).setReg .rsp (p.stackTop - 8)

/-- Calls the code at an offset and gives the token that it returns. A hardware trap gives none. -/
def call (v : View) (offset : UInt32) : Option (UInt64 × View) := do
  let p := v.place
  -- The processor's stack holds nothing but the address to return to.
  let scratch := v.scratch.setWord (p.stackTop - 8) 8 p.returnAddress
  let cpu := entryCpu p (p.code + offset.toUInt64)
  let s ← X86.run p.returnAddress (v.code.size + 1) ⟨cpu, { v with scratch := scratch }⟩
  return (s.cpu.reg .rax, s.mem)

end Native

namespace Machine

/-- What a block of this core can reach. -/
def view (place : Native.Placement) (b : Block) (m : Machine) : Native.View where
  place := place
  code := b.code
  regs := m.core.regs
  scratch := {}
  memory := m.memory
  arenas := m.proc.space.arenas

/-- The core after its registers and memory were changed by a block. -/
def adopt (m : Machine) (v : Native.View) : Machine := (m.setMemory v.memory).setRegs v.regs

/-- A fault that generated code detected. -/
def stackFault (m : Machine) (pc : Int64) : Stop :=
  .fault .stackBounds pc ("stack pointer " ++ toString m.core.regs.sp.toInt ++ " outside the "
    ++ toString m.core.stack.size ++ "-byte stack")

/-- Performs an instruction that generated code left to the host. -/
def serviceAt (m : Machine) (pc : Int64) : Machine × Option Stop :=
  match Isa.decode m.proc.program.code pc with
  | .error e => (m, some e)
  | .ok i =>
    let m := m.count fun s => { s with serviceExits := s.serviceExits + 1 }
    (m.notify (.service m.core.id i.family)).step i

/-- Runs a block from an offset to its end, at most `fuel` calls of its code. -/
def resume (b : Block) : Nat → UInt32 → Machine → Machine × Option Stop
  | 0, _, m => (m, some (.abort none))
  | fuel + 1, offset, m =>
    match Native.call (m.view .standard b) offset with
    | none => (m, some (.abort none))
    | some (token, v) =>
      let m := m.adopt v
      if token = 0 then (m, none)
      else
        let pc := (token >>> 32).toInt64
        let next := token.toUInt32
        -- A fault leaves the block for good, a service resumes it behind the instruction.
        if next = Lower.faultMark then (m, some (m.stackFault pc))
        else match m.serviceAt pc with
          | (m, some e) => (m, some e)
          | (m, none) => resume b fuel next m

/-- Runs the machine code of a block. -/
def runBlock (b : Block) (m : Machine) : Machine × Option Stop :=
  resume b (b.code.size + 1) 0 m

end Machine

end BlockVM
