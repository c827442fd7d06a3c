import BlockVM.Block.Action
import BlockVM.Block.Lower
import BlockVM.Memory.CodeRegion
import BlockVM.X86.Assembler

/-!
# Emission of machine code

The compiler lowers one instruction after the other by calls of an assembler that writes to a code
buffer. What is not known yet is written as zeros and filled in later: the token of an exit once the
exit has been written, the place of a float constant once the constant has been appended behind the
block.

A buffer that could not grow drops what is appended to it, while the assembler goes on counting;
from then on nothing is filled in. Emission aborts on a call that has no encoding, on an operand
that has no place in memory and on a field outside the bytes that were written.
-/

namespace BlockVM

open Isa (Inst)
open X86 (Reg Xmm Cond AluOp ShiftOp SseOp Call Address)

/-- A float constant that an instruction uses, and the place of the displacement that names it. -/
structure Deferred where
  bits : UInt32
  pos : Nat
deriving DecidableEq, Repr

/-- A block under construction. -/
structure Emission where
  region : CodeRegion
  /-- Bytes that the assembler has produced, whether the buffer took them or not. -/
  size : Nat := 0
  /-- The constants used so far. -/
  floats : List Deferred := []
  /-- The instruction that is lowered. -/
  pc : Int64

/-- A part of the compiler. It ends early only by an abort. -/
abbrev Emit := EStateM Stop Emission

namespace Emit

/-! ## Bytes -/

def onRegion (f : CodeRegion → Except Stop CodeRegion) : Emit Unit := fun e =>
  match f e.region with
  | .ok region => .ok () { e with region := region }
  | .error stop => .error stop e

/-- Appends bytes behind the assembler's back. -/
def append (bytes : List UInt8) : Emit Unit := onRegion (·.append bytes)

/-- Overwrites bytes that were written before. -/
def patch (off : Int64) (bytes : List UInt8) : Emit Unit := onRegion (·.patch off bytes)

/-- Bytes that the assembler has produced. -/
def length : Emit Nat := return (← get).size

/-- Whether the buffer could not grow. -/
def failed : Emit Bool := return (← get).region.buffer.error.isSome

def call (c : Call) : Emit Unit := do
  match c.inst with
  | .error e => throw (.abort (some e.message))
  | .ok i =>
    append i.encode
    modify fun e => { e with size := e.size + i.length }

def calls : List Call → Emit Unit
  | [] => pure ()
  | c :: cs => do
    call c
    calls cs

/-- The bytes that calls produce, found without writing them. -/
def measure (cs : List Call) : Emit Nat :=
  match cs.foldlM (fun a c => Prod.fst <$> a.perform c) X86.Assembler.measure with
  | .ok a => return a.size
  | .error e => throw (.abort (some e.message))

/-! ## Entries and exits -/

def regSlot (r : UInt8) : Address := .ptr Lower.stateReg (8 * Int32.ofNat r.toNat)
def fregSlot (r : UInt8) : Address :=
  .ptr Lower.stateReg (Layout.floatsOffset + 4 * Int32.ofNat r.toNat)
def spSlot : Address := .ptr Lower.stateReg Layout.pointerOffset

/-- Reserves the frame and loads the address of the global data. -/
def enter : Emit Unit :=
  calls [.subRegImm32 .rsp Lower.frameSize, .movRegMem 64 Lower.globalBase (regSlot globalReg)]

def leaveCalls : List Call := [.addRegImm32 .rsp Lower.frameSize, .ret]

/-- Fills in the token of the exit at `start`, unless the buffer could not grow. -/
def fillToken (start resume : Nat) : Emit Unit := do
  unless ← failed do
    let token := Lower.token (← get).pc (UInt32.ofNat resume)
    patch (Int64.ofNat (start + 2)) (LittleEndian.ofUInt64 token)

/-- Hands an instruction to the host and goes on after it. The token is filled in once it is known
where that is. -/
def serviceExit : Emit Unit := do
  let start ← length
  call (.movRegImm64 Lower.acc 0)
  calls leaveCalls
  fillToken start (← length)
  enter

def faultCalls (pc : Int64) : List Call :=
  .movRegImm64 Lower.acc (Lower.token pc Lower.faultMark) :: leaveCalls

def faultExit : Emit Unit := do
  calls (faultCalls (← get).pc)

/-- Reports a stack fault unless a condition holds. -/
def faultUnless (c : Cond) : Emit Unit := do
  let size ← measure (faultCalls (← get).pc)
  call (.jccShort c (Int8.ofNat size))
  faultExit

/-! ## Integers -/

/-- The width of an operand as the assembler counts it. -/
def widthOf (o : Operand) : UInt8 := UInt8.ofNat o.width.bits

/-- Where an operand lives. The address of a pointer operand is loaded into `tmp` first. -/
def ref (o : Operand) (tmp : Reg) : Emit Address := do
  match o with
  | .reg r => return regSlot r
  | .freg r => return fregSlot r
  | .global off _ _ => return .ptr Lower.globalBase off
  | .pointer r _ _ =>
    call (.movRegMem 64 tmp (regSlot r))
    return .ptr tmp 0
  | .imm _ | .fimm _ =>
    throw (.abort (some ("dynarec: operand " ++ o.text ++ " has no memory location")))

/-- Loads the integer value of an operand, zero-extended. -/
def load (r : Reg) (o : Operand) : Emit Unit := do
  match o with
  | .imm v => call (.movRegImm r v)
  | .reg s => call (.movRegMem 64 r (regSlot s))
  | o => call (.movRegMem (widthOf o) r (← ref o Lower.srcAddr))

/-- Stores the low bits of a register. -/
def store (o : Operand) (r : Reg) : Emit Unit := do
  call (.movMemReg (widthOf o) (← ref o Lower.dstAddr) r)

def copy (dst src : Operand) : Emit Unit := do
  load Lower.acc src
  store dst Lower.acc

def move (dst src : Operand) : Emit Unit := do
  match src with
  | .imm v =>
    if Lower.storesAsConstant dst.width v then
      call (.movMemImm (widthOf dst) (← ref dst Lower.dstAddr) v.toUInt32.toInt32)
    else copy dst src
  | _ => copy dst src

def alu (op : AluOp) (dst src : Operand) : Emit Unit := do
  load Lower.source src
  call (.aluMemReg op (widthOf dst) (← ref dst Lower.dstAddr) Lower.source)

def multiply (dst src : Operand) : Emit Unit := do
  load Lower.acc dst
  load Lower.source src
  call (.imulRegReg (widthOf dst) Lower.acc Lower.source)
  store dst Lower.acc

/-- Divides; a division without a quotient traps. -/
def divide (result : Reg) (dst src : Operand) : Emit Unit := do
  load Lower.acc dst
  load Lower.source src
  if dst.width = .qword then call .cqo else call .cdq
  call (.idiv (widthOf dst) Lower.source)
  store dst result

def shift (op : ShiftOp) (dst count : Operand) : Emit Unit := do
  load Lower.acc dst
  match count with
  | .imm v =>
    let mask : UInt8 := if dst.width = .qword then 63 else 31
    call (.shiftRegImm op (widthOf dst) Lower.acc (v.toUInt8 &&& mask))
  | _ =>
    load Lower.source count
    call (.shiftRegCl op (widthOf dst) Lower.acc)
  store dst Lower.acc

def arith : ArithOp → Operand → Operand → Emit Unit
  | .add => alu .add
  | .sub => alu .sub
  | .and => alu .and
  | .or => alu .or
  | .xor => alu .xor
  | .mul => multiply
  | .div => divide Lower.acc
  | .mod => divide .rdx
  | .shl => shift .shl
  | .shr => shift .shr

/-- Turns a condition into 1 or 0 and stores it. -/
def storeCondition (c : Cond) (dst : Operand) : Emit Unit := do
  call (.setcc c Lower.acc)
  call (.movzxRegReg8 Lower.acc Lower.acc)
  store dst Lower.acc

def compare (rel : Relation) (dst src : Operand) : Emit Unit := do
  load Lower.acc dst
  match src with
  | .reg r => call (.aluRegMem .cmp 32 Lower.acc (regSlot r))
  | _ =>
    load Lower.source src
    call (.aluRegReg .cmp 32 Lower.acc Lower.source)
  storeCondition (Lower.signedCond rel) dst

/-! ## Floats -/

/-- Makes a call that reads a float constant; where the constant is gets filled in later. -/
def withFloat (bits : UInt32) (use : Address → Call) : Emit Unit := do
  call (use (.rip 0))
  modify fun e => { e with floats := e.floats ++ [⟨bits, e.size - 4⟩] }

/-- Loads the float value of an operand; integers are read as 32 bits and converted. -/
def loadF (x : Xmm) (o : Operand) : Emit Unit := do
  match o with
  | .fimm bits => withFloat bits (.movssXmmMem x)
  | .imm v =>
    call (.movRegImm32 Lower.source v.toUInt32)
    call (.cvtsi2ss 32 x Lower.source)
  | o =>
    if o.holdsFloat then call (.movssXmmMem x (← ref o Lower.srcAddr))
    else call (.cvtsi2ssMem 32 x (← ref o Lower.srcAddr))

/-- Stores a float; an integer destination gets the nearest 32-bit integer. -/
def storeF (o : Operand) (x : Xmm) : Emit Unit := do
  if o.holdsFloat then call (.movssMemXmm (← ref o Lower.dstAddr) x)
  else
    call (.cvtss2si 32 Lower.acc x)
    store o Lower.acc

def fmove (dst src : Operand) : Emit Unit := do
  loadF Lower.x0 src
  storeF dst Lower.x0

/-- Operates on `x0`; a float source is used where it lives. -/
def operateF (op : SseOp) (src : Operand) : Emit Unit := do
  match src with
  | .fimm bits => withFloat bits (.sseXmmMem op Lower.x0)
  | src =>
    if src.holdsFloat then call (.sseXmmMem op Lower.x0 (← ref src Lower.srcAddr))
    else
      loadF Lower.x1 src
      call (.sseXmmXmm op Lower.x0 Lower.x1)

def farith (op : SseOp) (dst src : Operand) : Emit Unit := do
  loadF Lower.x0 dst
  operateF op src
  storeF dst Lower.x0

def fcompare (rel : Relation) (dst a b : Operand) : Emit Unit := do
  call (.movssXmmMem Lower.x0 (fregSlot a.index))
  call (.ucomissMem Lower.x0 (fregSlot b.index))
  storeCondition (Lower.unsignedCond rel) dst

/-! ## The stack -/

/-- Reports a fault unless the offset in `rax`, taken as unsigned, is at most `limit`. -/
def stackGuard (limit : Int64) : Emit Unit := do
  if limit < 0 then faultExit
  else
    call (.movRegImm Lower.source limit.toUInt64)
    call (.aluRegReg .cmp 64 Lower.acc Lower.source)
    faultUnless .belowEqual

/-- Where the first register of a range lives. -/
def rangeSlot (r : RegRange) : Address := if r.float then fregSlot r.first else regSlot r.first

def slotBits (r : RegRange) : UInt8 := if r.float then 32 else 64

def pushOne (t : Target) (r : RegRange) : Emit Unit := do
  call (.movRegMem 64 Lower.acc spSlot)
  stackGuard (Lower.stackLimit t r)
  calls [
    .movRegImm64 Lower.dstAddr t.stackBase,
    .movRegMem (slotBits r) Lower.source (rangeSlot r),
    .movMemReg (slotBits r) (.indexed Lower.dstAddr Lower.acc 1 0) Lower.source,
    .aluMemImm .add 64 spSlot (Int32.ofNat r.bytes)]

def popOne (t : Target) (r : RegRange) : Emit Unit := do
  call (.movRegMem 64 Lower.acc spSlot)
  call (.aluRegImm .sub 64 Lower.acc (Int32.ofNat r.bytes))
  stackGuard (Lower.stackLimit t r)
  calls [
    .movRegImm64 Lower.srcAddr t.stackBase,
    .movRegMem (slotBits r) Lower.source (.indexed Lower.srcAddr Lower.acc 1 0),
    .movMemReg (slotBits r) (rangeSlot r) Lower.source,
    .movMemReg 64 spSlot Lower.acc]

/-- Copies a range to the stack in ascending order. -/
def pushRange (t : Target) (r : RegRange) : Emit Unit := do
  call (.movRegMem 64 Lower.acc spSlot)
  stackGuard (Lower.stackLimit t r)
  calls [
    .push Lower.stateReg,
    .lea .rsi (rangeSlot r),
    .movRegImm64 Lower.dstAddr t.stackBase,
    .lea .rdi (.indexed Lower.dstAddr Lower.acc 1 0),
    .movRegImm32 Lower.source (UInt32.ofNat r.count),
    .repMovs (slotBits r),
    .pop Lower.stateReg,
    .aluMemImm .add 64 spSlot (Int32.ofNat r.bytes)]

/-- Copies the top of the stack to a range in ascending order. -/
def popRange (t : Target) (r : RegRange) : Emit Unit := do
  call (.movRegMem 64 Lower.acc spSlot)
  call (.aluRegImm .sub 64 Lower.acc (Int32.ofNat r.bytes))
  stackGuard (Lower.stackLimit t r)
  calls [
    .movMemReg 64 spSlot Lower.acc,
    .push Lower.stateReg,
    .lea .rdi (rangeSlot r),
    .movRegImm64 Lower.srcAddr t.stackBase,
    .lea .rsi (.indexed Lower.srcAddr Lower.acc 1 0),
    .movRegImm32 Lower.source (UInt32.ofNat r.count),
    .repMovs (slotBits r),
    .pop Lower.stateReg]

end Emit

open Emit in
def Action.emit (t : Target) : Action → Emit Unit
  | .move dst src => Emit.move dst src
  | .arith op dst src => Emit.arith op dst src
  | .compare rel dst src => Emit.compare rel dst src
  | .fcompare rel dst a b => Emit.fcompare rel dst a b
  | .fmove dst src => Emit.fmove dst src
  | .farith .add dst src => Emit.farith .add dst src
  | .farith .sub dst src => Emit.farith .sub dst src
  | .farith .mul dst src => Emit.farith .mul dst src
  | .farith .div dst src => Emit.farith .div dst src
  | .farith .mod _ _ => serviceExit
  | .push r => pushOne t r
  | .pop r => popOne t r
  | .pushRange r => Emit.pushRange t r
  | .popRange r => Emit.popRange t r
  | .nop => pure ()
  | .service _ => serviceExit

namespace Emit

/-- Lowers an instruction whose operands have been prepared. Control flow has no lowering. -/
def lower (t : Target) (i : Inst) (ops : List Operand) : Emit Unit := do
  modify fun e => { e with pc := i.pc }
  match Action.of? i.family i.info.width ops with
  | some a => a.emit t
  | none => throw (.abort (some ("dynarec: control-flow instruction " ++ i.name ++ " at "
      ++ Hex.ofInt i.pc.toInt ++ " reached the compiler")))

/-- Appends constants and fills in where they are, until the buffer cannot grow. -/
def emitFloats : List Deferred → Emit Unit
  | [] => pure ()
  | f :: fs => do
    let place := (← get).region.buffer.size
    append (LittleEndian.ofUInt32 f.bits)
    unless ← failed do
      let distance := Int64.ofNat place - Int64.ofNat f.pos - 4
      patch (Int64.ofNat f.pos) (LittleEndian.ofUInt32 distance.toInt32.toUInt32)
      emitFloats fs

end Emit

end BlockVM
