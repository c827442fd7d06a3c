import BlockVM.Numeric.Binary32
import BlockVM.X86.Decode

/-!
# An x86-64 machine

Sixteen general registers, the low lanes of sixteen SSE registers, the arithmetic flags and a byte
memory. The memory is anything that answers to single-byte loads and stores; an address that it
does not answer to is a hardware trap, as is a division without a quotient.

Flags that an instruction leaves undefined are `none`, and an instruction that reads them then
traps, so no result can depend on them. The direction flag is clear.

`run` fetches, decodes and executes until control returns to a given address.
-/

namespace BlockVM.X86

/-- A byte-addressed memory, in which not every address need exist. -/
class ByteMemory (μ : Type) where
  loadByte : μ → UInt64 → Option UInt8
  storeByte : μ → UInt64 → UInt8 → Option μ

section
variable {μ : Type} [ByteMemory μ]

/-- The `n` bytes from an address on. -/
def loadBytes (m : μ) : Nat → UInt64 → Option (List UInt8)
  | 0, _ => some []
  | n + 1, a => do
    let b ← ByteMemory.loadByte m a
    let bs ← loadBytes m n (a + 1)
    return b :: bs

def storeBytes (m : μ) : UInt64 → List UInt8 → Option μ
  | _, [] => some m
  | a, b :: bs => do
    let m ← ByteMemory.storeByte m a b
    storeBytes m (a + 1) bs

/-- A zero-extended little-endian load of `n` bytes. -/
def loadWord (m : μ) (n : Nat) (a : UInt64) : Option UInt64 :=
  (loadBytes m n a).map LittleEndian.toUInt64

/-- A little-endian store of the low `n` bytes. -/
def storeWord (m : μ) (n : Nat) (a v : UInt64) : Option μ :=
  storeBytes m a (LittleEndian.bytes n v.toNat)

/-- The bytes from an address on that can be loaded, at most `n`. -/
def fetchBytes (m : μ) : Nat → UInt64 → List UInt8
  | 0, _ => []
  | n + 1, a =>
    match ByteMemory.loadByte m a with
    | some b => b :: fetchBytes m n (a + 1)
    | none => []

end

/-- The arithmetic flags: carry, zero, sign, overflow, parity. -/
structure Flags where
  cf : Bool
  zf : Bool
  sf : Bool
  of : Bool
  pf : Bool
deriving DecidableEq, Repr

/-- The register state of the processor. -/
structure Cpu where
  gpr : Vector UInt64 16
  xmm : Vector UInt32 16
  flags : Option Flags
  rip : UInt64
deriving DecidableEq, Repr

namespace Cpu

/-- The place of a register; four bits of its number count. -/
def slot (num : UInt8) : Fin 16 := ⟨num.toNat % 16, Nat.mod_lt _ (by decide)⟩

def reg (c : Cpu) (r : Reg) : UInt64 := c.gpr[slot r.num]

def setReg (c : Cpu) (r : Reg) (v : UInt64) : Cpu := { c with gpr := c.gpr.set (slot r.num) v }

def lane (c : Cpu) (x : Xmm) : UInt32 := c.xmm[slot x.num]

def setLane (c : Cpu) (x : Xmm) (v : UInt32) : Cpu := { c with xmm := c.xmm.set (slot x.num) v }

def regAt (c : Cpu) (s : Size) (r : Reg) : UInt64 :=
  match s with
  | .dword => c.reg r &&& 0xffffffff
  | .qword => c.reg r

/-- Writes a result; a 32-bit result clears the upper half. -/
def setRegAt (c : Cpu) (s : Size) (r : Reg) (v : UInt64) : Cpu :=
  match s with
  | .dword => c.setReg r (v &&& 0xffffffff)
  | .qword => c.setReg r v

/-- Replaces the low byte of a register. -/
def setLowByte (c : Cpu) (r : Reg) (v : UInt8) : Cpu :=
  c.setReg r ((c.reg r &&& 0xffffffffffffff00) ||| v.toUInt64)

/-- The address of a memory operand; `rip` is already past the instruction. -/
def address (c : Cpu) : Mem → UInt64
  | .based base disp => c.reg base + disp.toInt64.toUInt64
  | .indexed base index scale disp =>
    c.reg base + c.reg index * scale.factor.toUInt64 + disp.toInt64.toUInt64
  | .relative disp => c.rip + disp.toInt64.toUInt64

end Cpu

/-! ## Arithmetic -/

namespace Size

def truncate (s : Size) (v : UInt64) : UInt64 :=
  match s with
  | .dword => v &&& 0xffffffff
  | .qword => v

/-- The sign bit of a truncated value. -/
def signBit (s : Size) (v : UInt64) : Bool :=
  match s with
  | .dword => v &&& 0x80000000 != 0
  | .qword => v &&& 0x8000000000000000 != 0

/-- A truncated value as a signed number. -/
def toInt (s : Size) (v : UInt64) : Int :=
  match s with
  | .dword => v.toUInt32.toInt32.toInt
  | .qword => v.toInt64.toInt

def ofInt (s : Size) (i : Int) : UInt64 :=
  match s with
  | .dword => (Int32.ofInt i).toUInt32.toUInt64
  | .qword => (Int64.ofInt i).toUInt64

end Size

/-- Whether the low byte has an even number of ones. -/
def evenParity (v : UInt64) : Bool :=
  let v := v ^^^ (v >>> 4)
  let v := v ^^^ (v >>> 2)
  let v := v ^^^ (v >>> 1)
  v &&& 1 == 0

def resultFlags (s : Size) (r : UInt64) (cf of : Bool) : Flags :=
  ⟨cf, r == 0, s.signBit r, of, evenParity r⟩

/-- Sum with carry of truncated operands. -/
def addCarry (s : Size) (a b : UInt64) (carry : Bool) : UInt64 × Flags :=
  let sum := a.toNat + b.toNat + carry.toNat
  let r := s.truncate (UInt64.ofNat sum)
  let cf := 2 ^ (8 * s.bytes) ≤ sum
  let of := s.signBit a == s.signBit b && s.signBit r != s.signBit a
  (r, resultFlags s r cf of)

/-- Difference with borrow of truncated operands. -/
def subBorrow (s : Size) (a b : UInt64) (borrow : Bool) : UInt64 × Flags :=
  let r := s.truncate (a - b - borrow.toUInt64)
  let cf := a.toNat < b.toNat + borrow.toNat
  let of := s.signBit a != s.signBit b && s.signBit r != s.signBit a
  (r, resultFlags s r cf of)

def logic (s : Size) (r : UInt64) : UInt64 × Flags := (r, resultFlags s r false false)

/-- The result and the flags of a two-operand operation on truncated operands. -/
def alu (op : AluOp) (s : Size) (flags : Option Flags) (a b : UInt64) : Option (UInt64 × Flags) :=
  if op = .add then some (addCarry s a b false)
  else if op = .or then some (logic s (a ||| b))
  else if op = .adc then flags.map fun f => addCarry s a b f.cf
  else if op = .sbb then flags.map fun f => subBorrow s a b f.cf
  else if op = .and then some (logic s (a &&& b))
  else if op = .sub ∨ op = .cmp then some (subBorrow s a b false)
  else if op = .xor then some (logic s (a ^^^ b))
  else none

/-- A shift or rotation of a truncated operand by a masked count. -/
def shift (op : ShiftOp) (s : Size) (v : UInt64) (count : UInt8) : Option UInt64 :=
  let n := count.toUInt64
  let bits : UInt64 := 8 * UInt64.ofNat s.bytes
  if op = .shl then some (s.truncate (v <<< n))
  else if op = .shr then some (v >>> n)
  else if op = .sar then some (s.ofInt (s.toInt v / 2 ^ count.toNat))
  else if count = 0 then some v
  else if op = .rol then some (s.truncate (v <<< n) ||| (v >>> (bits - n)))
  else if op = .ror then some ((v >>> n) ||| s.truncate (v <<< (bits - n)))
  else none

/-- Quotient and remainder of a signed division, toward zero. There is none for a zero divisor or a
quotient that does not fit. -/
def divide (s : Size) (high low divisor : UInt64) : Option (UInt64 × UInt64) :=
  let dividend := s.toInt high * 2 ^ (8 * s.bytes) + (s.truncate low).toNat
  let d := s.toInt divisor
  let q := dividend.tdiv d
  if d = 0 ∨ s.toInt (s.ofInt q) ≠ q then none
  else some (s.ofInt q, s.ofInt (dividend.tmod d))

def Cond.holds (c : Cond) (f : Flags) : Bool :=
  let base := match ((c.code >>> 1) &&& 7).toNat with
    | 0 => f.of
    | 1 => f.cf
    | 2 => f.zf
    | 3 => f.cf || f.zf
    | 4 => f.sf
    | 5 => f.pf
    | 6 => f.sf != f.of
    | _ => f.zf || f.sf != f.of
  if c.code &&& 1 = 1 then !base else base

/-- A scalar float operation, for the operations that blocks use. -/
def SseOp.apply (op : SseOp) (a b : UInt32) : Option UInt32 :=
  if op = .add then some (Binary32.add a b)
  else if op = .sub then some (Binary32.sub a b)
  else if op = .mul then some (Binary32.mul a b)
  else if op = .div then some (Binary32.div a b)
  else none

/-- The flags of a float comparison: unordered operands set carry, zero and parity. -/
def compareFlags : Binary32.Order → Flags
  | .unordered => ⟨true, true, false, false, true⟩
  | .less => ⟨true, false, false, false, false⟩
  | .equal => ⟨false, true, false, false, false⟩
  | .greater => ⟨false, false, false, false, false⟩

/-! ## Execution -/

/-- Processor and memory. -/
structure State (μ : Type) where
  cpu : Cpu
  mem : μ

section
variable {μ : Type} [ByteMemory μ]

namespace State

def load (s : State μ) (n : Nat) (m : Mem) : Option UInt64 := loadWord s.mem n (s.cpu.address m)

def store (s : State μ) (n : Nat) (m : Mem) (v : UInt64) : Option (State μ) :=
  return { s with mem := ← storeWord s.mem n (s.cpu.address m) v }

def setReg (s : State μ) (r : Reg) (v : UInt64) : State μ := { s with cpu := s.cpu.setReg r v }

def setRegAt (s : State μ) (z : Size) (r : Reg) (v : UInt64) : State μ :=
  { s with cpu := s.cpu.setRegAt z r v }

def setLane (s : State μ) (x : Xmm) (v : UInt32) : State μ := { s with cpu := s.cpu.setLane x v }

def setFlags (s : State μ) (f : Option Flags) : State μ :=
  { s with cpu := { s.cpu with flags := f } }

/-- Pushes a value on the processor's stack. -/
def push (s : State μ) (v : UInt64) : Option (State μ) := do
  let sp := s.cpu.reg .rsp - 8
  let mem ← storeWord s.mem 8 sp v
  return { s with mem := mem }.setReg .rsp sp

/-- Pops a value from the processor's stack. -/
def pop (s : State μ) : Option (UInt64 × State μ) := do
  let sp := s.cpu.reg .rsp
  let v ← loadWord s.mem 8 sp
  return (v, s.setReg .rsp (sp + 8))

end State

/-- Copies `n` elements of `w` bytes upward and moves both pointers past them. -/
def copyUp (w : Nat) : Nat → State μ → Option (State μ)
  | 0, s => some s
  | n + 1, s => do
    let src := s.cpu.reg .rsi
    let dst := s.cpu.reg .rdi
    let v ← loadWord s.mem w src
    let mem ← storeWord s.mem w dst v
    let s := ({ s with mem := mem }.setReg .rsi (src + UInt64.ofNat w)).setReg .rdi
      (dst + UInt64.ofNat w)
    copyUp w n (s.setReg .rcx (s.cpu.reg .rcx - 1))

/-- A constant, sign-extended and truncated to an operation's size. -/
def immediate (z : Size) (imm : Int32) : UInt64 := z.truncate imm.toInt64.toUInt64

/-- The effect of an instruction; `rip` is already past it. -/
def exec (i : Inst) (s : State μ) : Option (State μ) :=
  match i with
  | .movRegImm64 reg imm => some (s.setReg reg imm)
  | .movRegImm32 reg imm => some (s.setReg reg imm.toUInt64)
  | .movRegImmSigned reg imm => some (s.setReg reg imm.toInt64.toUInt64)
  | .load w reg m => return s.setReg reg (← s.load w.bytes m)
  | .store w m reg => s.store w.bytes m (s.cpu.reg reg)
  | .storeImm w m imm => s.store w.bytes m imm.toInt64.toUInt64
  | .movzxByte dst src => some (s.setReg dst (s.cpu.reg src &&& 0xff))
  | .lea reg m => some (s.setReg reg (s.cpu.address m))
  | .aluRegReg op z dst src => do
    let (r, f) ← alu op z s.cpu.flags (s.cpu.regAt z dst) (s.cpu.regAt z src)
    return (if op = .cmp then s else s.setRegAt z dst r).setFlags f
  | .aluRegImm op z reg imm => do
    let (r, f) ← alu op z s.cpu.flags (s.cpu.regAt z reg) (immediate z imm)
    return (if op = .cmp then s else s.setRegAt z reg r).setFlags f
  | .aluRegMem op z reg m => do
    let (r, f) ← alu op z s.cpu.flags (s.cpu.regAt z reg) (← s.load z.bytes m)
    return (if op = .cmp then s else s.setRegAt z reg r).setFlags f
  | .aluMemReg op z m reg => do
    let (r, f) ← alu op z s.cpu.flags (← s.load z.bytes m) (s.cpu.regAt z reg)
    let s ← if op = .cmp then some s else s.store z.bytes m r
    return s.setFlags f
  | .aluMemImm op z m imm => do
    let (r, f) ← alu op z s.cpu.flags (← s.load z.bytes m) (immediate z imm)
    let s ← if op = .cmp then some s else s.store z.bytes m r
    return s.setFlags f
  | .imul z dst src =>
    some ((s.setRegAt z dst (s.cpu.regAt z dst * s.cpu.regAt z src)).setFlags none)
  | .idiv z reg => do
    let (q, r) ← divide z (s.cpu.regAt z .rdx) (s.cpu.regAt z .rax) (s.cpu.regAt z reg)
    return ((s.setRegAt z .rax q).setRegAt z .rdx r).setFlags none
  | .cqo => some (s.setReg .rdx (if Size.qword.signBit (s.cpu.reg .rax) then -1 else 0))
  | .cdq => some (s.setReg .rdx
      (if Size.dword.signBit (s.cpu.regAt .dword .rax) then 0xffffffff else 0))
  | .shiftCl op z reg => do
    let count := (s.cpu.reg .rcx).toUInt8 &&& z.countMask
    let r ← shift op z (s.cpu.regAt z reg) count
    return (s.setRegAt z reg r).setFlags (if count = 0 then s.cpu.flags else none)
  | .shiftImm op z reg count => do
    let count := count &&& z.countMask
    let r ← shift op z (s.cpu.regAt z reg) count
    return (s.setRegAt z reg r).setFlags (if count = 0 then s.cpu.flags else none)
  | .movssLoad x m => return s.setLane x (← s.load 4 m).toUInt32
  | .movssStore m x => s.store 4 m (s.cpu.lane x).toUInt64
  | .sseReg op dst src => return s.setLane dst (← op.apply (s.cpu.lane dst) (s.cpu.lane src))
  | .sseMem op x m => do
    let v ← s.load 4 m
    return s.setLane x (← op.apply (s.cpu.lane x) v.toUInt32)
  | .ucomissMem x m => do
    let v ← s.load 4 m
    return s.setFlags (compareFlags (Binary32.compare (s.cpu.lane x) v.toUInt32))
  | .cvtss2si .dword dst src =>
    some (s.setReg dst (Binary32.toInt32 (s.cpu.lane src)).toUInt64)
  | .cvtss2si .qword _ _ => none
  | .cvtsi2ss z dst src => some (s.setLane dst (Binary32.ofInt (z.toInt (s.cpu.regAt z src))))
  | .cvtsi2ssMem z dst m => return s.setLane dst (Binary32.ofInt (z.toInt (← s.load z.bytes m)))
  | .setcc cond reg => do
    let f ← s.cpu.flags
    return { s with cpu := s.cpu.setLowByte reg (cond.holds f).toUInt8 }
  | .jccShort cond rel => do
    let f ← s.cpu.flags
    if cond.holds f then
      return { s with cpu := { s.cpu with rip := s.cpu.rip + rel.toInt64.toUInt64 } }
    return s
  | .ret => do
    let (target, s) ← s.pop
    return { s with cpu := { s.cpu with rip := target } }
  | .push reg => s.push (s.cpu.reg reg)
  | .pop reg => do
    let (v, s) ← s.pop
    return s.setReg reg v
  | .repMovs w => copyUp w.bytes (s.cpu.reg .rcx).toNat s

/-- Fetches, decodes and executes one instruction. No instruction is longer than 15 bytes. -/
def step (s : State μ) : Option (State μ) := do
  let bytes := fetchBytes s.mem 15 s.cpu.rip
  let (i, rest) ← decode bytes
  let rip := s.cpu.rip + UInt64.ofNat (bytes.length - rest.length)
  exec i { s with cpu := { s.cpu with rip := rip } }

/-- Steps until control is at `stop`, for at most `fuel` instructions. -/
def run (stop : UInt64) : Nat → State μ → Option (State μ)
  | 0, s => if s.cpu.rip = stop then some s else none
  | fuel + 1, s =>
    if s.cpu.rip = stop then some s
    else match step s with
      | some s => run stop fuel s
      | none => none

end

end BlockVM.X86
