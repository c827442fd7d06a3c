import BlockVM.Block.Action
import BlockVM.X86.Encode

/-!
# Machine code of actions

Generated code runs on a register file in memory, addressed through `rdi`, and on the global data,
addressed through `r11`. It keeps a scratch frame of 32 bytes below its return address; every entry
(the start and each point where it is resumed) reserves the frame and loads `r11`, every exit
releases the frame.

A block returns a token in `rax`: 0 at its end, otherwise the address of an instruction in the upper
half and, in the lower half, either where to resume after the host has performed that instruction or
`faultMark` if the instruction moved the stack pointer outside the stack.

Machine code is lowered to items. An item is an instruction whose fields are known, or one that
waits for the layout of the whole block: a token that names the place after its exit, or the use of
a float constant that stands behind the block.
-/

namespace BlockVM

open X86 (Reg Xmm Mem Cond AluOp ShiftOp SseOp Width Size)

/-- What generated code depends on besides the instruction. -/
structure Target where
  globalSize : Int64
  stackBase : UInt64
  stackSize : Int64
deriving DecidableEq, Repr

/-- Machine code before its layout is known. -/
inductive Item where
  | inst (i : X86.Inst)
  /-- Loads the token of an exit that ends 15 bytes after the start of this instruction. -/
  | token (pc : Int64)
  /-- Loads a float constant. -/
  | loadConst (x : Xmm) (bits : UInt32)
  /-- Operates with a float constant. -/
  | opConst (op : SseOp) (x : Xmm) (bits : UInt32)
deriving DecidableEq, Repr

namespace Layout

/-! ## The register file in memory -/

def floatsOffset : Int32 := 2048
def pointerOffset : Int32 := 3072

def fileSize : Nat := 3080

end Layout

namespace Lower

def stateReg : Reg := .rdi
def globalBase : Reg := .r11
def acc : Reg := .rax
def source : Reg := .rcx
def dstAddr : Reg := .r8
def srcAddr : Reg := .r9

def x0 : Xmm := ⟨0⟩
def x1 : Xmm := ⟨1⟩

def regSlot (r : UInt8) : Mem := .based stateReg (8 * Int32.ofNat r.toNat)
def fregSlot (r : UInt8) : Mem := .based stateReg (Layout.floatsOffset + 4 * Int32.ofNat r.toNat)
def spSlot : Mem := .based stateReg Layout.pointerOffset

def frameSize : Int32 := 0x20

/-- The lower half of a fault's token. -/
def faultMark : UInt32 := 0xffffffff

def token (pc : Int64) (resume : UInt32) : UInt64 := pc.toUInt64 <<< 32 ||| resume.toUInt64

/-! ## Entries and exits -/

/-- Reserves the frame and loads the address of the global data. -/
def enter : List Item :=
  [.inst (.subImm .rsp frameSize), .inst (.load .qword globalBase (regSlot globalReg))]

def leave : List Item := [.inst (.addImm .rsp frameSize), .inst .ret]

/-- Hands an instruction to the host and goes on after it. -/
def serviceExit (pc : Int64) : List Item := .token pc :: leave ++ enter

def faultExit (pc : Int64) : List Item :=
  .inst (.movRegImm64 acc (token pc faultMark)) :: leave

def faultExitSize : Int8 := 15

/-- Reports a stack fault unless a condition holds. -/
def faultUnless (pc : Int64) (c : Cond) : List Item :=
  .inst (.jccShort c faultExitSize) :: faultExit pc

def finish : List Item :=
  [.inst (.addImm .rsp frameSize), .inst (.xorReg acc acc), .inst .ret]

/-! ## Integers -/

def moveWidth : Access → Width
  | .byte => .byte
  | .dword => .dword
  | .qword => .qword

def aluSize : Access → Size
  | .qword => .qword
  | _ => .dword

/-- Where an operand lives, with the code that makes it reachable through `tmp`. -/
def place (o : Operand) (tmp : Reg) : List Item × Mem :=
  match o with
  | .reg r => ([], regSlot r)
  | .freg r => ([], fregSlot r)
  | .global off _ _ => ([], .based globalBase off)
  | .pointer r _ _ => ([.inst (.load .qword tmp (regSlot r))], .based tmp 0)
  | .imm _ | .fimm _ => ([], .based tmp 0)

/-- Loads the integer value of an operand, zero-extended. -/
def load (r : Reg) (o : Operand) : List Item :=
  match o with
  | .imm v => [.inst (.movRegImm r v)]
  | o =>
    let (pre, m) := place o srcAddr
    pre ++ [.inst (.load (moveWidth o.width) r m)]

/-- Stores the low bits of a register. -/
def store (o : Operand) (r : Reg) : List Item :=
  let (pre, m) := place o dstAddr
  pre ++ [.inst (.store (moveWidth o.width) m r)]

/-- Whether a store of a sign-extended 32-bit constant stores `v`. -/
def storesAsConstant (w : Access) (v : UInt64) : Bool :=
  match w with
  | .qword => -0x80000000 ≤ v.toInt64 && v.toInt64 ≤ 0x7fffffff
  | _ => true

def move (dst src : Operand) : List Item :=
  match src with
  | .imm v =>
    if storesAsConstant dst.width v then
      let (pre, m) := place dst dstAddr
      pre ++ [.inst (.storeImm (moveWidth dst.width) m v.toUInt32.toInt32)]
    else load acc src ++ store dst acc
  | _ => load acc src ++ store dst acc

def alu (op : AluOp) (dst src : Operand) : List Item :=
  let (pre, m) := place dst dstAddr
  load source src ++ pre ++ [.inst (.aluMemReg op (aluSize dst.width) m source)]

def multiply (dst src : Operand) : List Item :=
  load acc dst ++ load source src ++ [.inst (.imul (aluSize dst.width) acc source)]
    ++ store dst acc

/-- Divides; a division without a quotient traps. -/
def divide (result : Reg) (dst src : Operand) : List Item :=
  let size := aluSize dst.width
  let widen : X86.Inst := match size with
    | .qword => .cqo
    | .dword => .cdq
  load acc dst ++ load source src ++ [.inst widen, .inst (.idiv size source)] ++ store dst result

def shift (op : ShiftOp) (dst count : Operand) : List Item :=
  let size := aluSize dst.width
  let middle := match count with
    | .imm v => [.inst (.shiftImm op size acc (v.toUInt8 &&& size.countMask))]
    | _ => load source count ++ [.inst (.shiftCl op size acc)]
  load acc dst ++ middle ++ store dst acc

def arith : ArithOp → Operand → Operand → List Item
  | .add => alu .add
  | .sub => alu .sub
  | .and => alu .and
  | .or => alu .or
  | .xor => alu .xor
  | .mul => multiply
  | .div => divide acc
  | .mod => divide .rdx
  | .shl => shift .shl
  | .shr => shift .shr

/-- Turns a condition into 1 or 0 and stores it. -/
def storeCondition (c : Cond) (dst : Operand) : List Item :=
  [.inst (.setcc c acc), .inst (.movzxByte acc acc)] ++ store dst acc

def signedCond : Relation → Cond
  | .equal => .equal
  | .notEqual => .notEqual
  | .greater => .greater
  | .less => .less
  | .greaterEqual => .greaterEqual
  | .lessEqual => .lessEqual

def compare (rel : Relation) (dst src : Operand) : List Item :=
  let test := match src with
    | .reg r => [.inst (.aluRegMem .cmp .dword acc (regSlot r))]
    | _ => load source src ++ [.inst (.aluRegReg .cmp .dword acc source)]
  load acc dst ++ test ++ storeCondition (signedCond rel) dst

/-! ## Floats -/

/-- Loads the float value of an operand; integers are read as 32 bits and converted. -/
def loadF (x : Xmm) (o : Operand) : List Item :=
  match o with
  | .fimm bits => [.loadConst x bits]
  | .imm v => [.inst (.movRegImm32 source v.toUInt32), .inst (.cvtsi2ss .dword x source)]
  | o =>
    let (pre, m) := place o srcAddr
    pre ++ [if o.holdsFloat then .inst (.movssLoad x m) else .inst (.cvtsi2ssMem .dword x m)]

/-- Stores a float; an integer destination gets the nearest 32-bit integer. -/
def storeF (o : Operand) (x : Xmm) : List Item :=
  if o.holdsFloat then
    let (pre, m) := place o dstAddr
    pre ++ [.inst (.movssStore m x)]
  else .inst (.cvtss2si .dword acc x) :: store o acc

def fmove (dst src : Operand) : List Item := loadF x0 src ++ storeF dst x0

/-- Operates on `x0`; a float source is used where it lives. -/
def operateF (op : SseOp) (src : Operand) : List Item :=
  match src with
  | .fimm bits => [.opConst op x0 bits]
  | src =>
    if src.holdsFloat then
      let (pre, m) := place src srcAddr
      pre ++ [.inst (.sseMem op x0 m)]
    else loadF x1 src ++ [.inst (.sseReg op x0 x1)]

def farith (op : SseOp) (dst src : Operand) : List Item :=
  loadF x0 dst ++ operateF op src ++ storeF dst x0

/-- An unordered pair sets carry and zero, so it counts as equal and as less. -/
def unsignedCond : Relation → Cond
  | .equal => .equal
  | .notEqual => .notEqual
  | .greater => .above
  | .less => .below
  | .greaterEqual => .aboveEqual
  | .lessEqual => .belowEqual

def fcompare (rel : Relation) (dst a b : Operand) : List Item :=
  [.inst (.movssLoad x0 (fregSlot a.index)), .inst (.ucomissMem x0 (fregSlot b.index))]
    ++ storeCondition (unsignedCond rel) dst

/-! ## The stack -/

/-- Reports a fault unless the offset in `rax`, taken as unsigned, is at most `limit`. -/
def stackGuard (pc limit : Int64) : List Item :=
  -- A range larger than the whole stack never fits.
  if limit < 0 then faultExit pc
  else [.inst (.movRegImm source limit.toUInt64), .inst (.aluRegReg .cmp .qword acc source)]
    ++ faultUnless pc .belowEqual

/-- Where the first register of a range lives. -/
def rangeSlot (r : RegRange) : Mem := if r.float then fregSlot r.first else regSlot r.first

def slotWidth (r : RegRange) : Width := if r.float then .dword else .qword

/-- The largest offset at which a range fits on the stack. -/
def stackLimit (t : Target) (r : RegRange) : Int64 := t.stackSize - Int64.ofNat r.bytes

def loadPointer : Item := .inst (.load .qword acc spSlot)
def growPointer (n : Nat) : Item := .inst (.aluMemImm .add .qword spSlot (Int32.ofNat n))
def storePointer : Item := .inst (.store .qword spSlot acc)
def lowerPointer (n : Nat) : Item := .inst (.aluRegImm .sub .qword acc (Int32.ofNat n))

def pushOne (t : Target) (pc : Int64) (r : RegRange) : List Item :=
  loadPointer :: stackGuard pc (stackLimit t r) ++ [
    .inst (.movRegImm64 dstAddr t.stackBase),
    .inst (.load (slotWidth r) source (rangeSlot r)),
    .inst (.store (slotWidth r) (.indexed dstAddr acc .one 0) source),
    growPointer r.bytes]

def popOne (t : Target) (pc : Int64) (r : RegRange) : List Item :=
  loadPointer :: lowerPointer r.bytes :: stackGuard pc (stackLimit t r) ++ [
    .inst (.movRegImm64 srcAddr t.stackBase),
    .inst (.load (slotWidth r) source (.indexed srcAddr acc .one 0)),
    .inst (.store (slotWidth r) (rangeSlot r) source),
    storePointer]

/-- Copies a range to the stack in ascending order. -/
def pushRange (t : Target) (pc : Int64) (r : RegRange) : List Item :=
  loadPointer :: stackGuard pc (stackLimit t r) ++ [
    .inst (.push stateReg),
    .inst (.lea .rsi (rangeSlot r)),
    .inst (.movRegImm64 dstAddr t.stackBase),
    .inst (.lea .rdi (.indexed dstAddr acc .one 0)),
    .inst (.movRegImm32 source (UInt32.ofNat r.count)),
    .inst (.repMovs (slotWidth r)),
    .inst (.pop stateReg),
    growPointer r.bytes]

/-- Copies the top of the stack to a range in ascending order. -/
def popRange (t : Target) (pc : Int64) (r : RegRange) : List Item :=
  loadPointer :: lowerPointer r.bytes :: stackGuard pc (stackLimit t r) ++ [
    storePointer,
    .inst (.push stateReg),
    .inst (.lea .rdi (rangeSlot r)),
    .inst (.movRegImm64 srcAddr t.stackBase),
    .inst (.lea .rsi (.indexed srcAddr acc .one 0)),
    .inst (.movRegImm32 source (UInt32.ofNat r.count)),
    .inst (.repMovs (slotWidth r)),
    .inst (.pop stateReg)]

end Lower

open Lower in
def Action.lower (t : Target) (pc : Int64) : Action → List Item
  | .move dst src => Lower.move dst src
  | .arith op dst src => Lower.arith op dst src
  | .compare rel dst src => Lower.compare rel dst src
  | .fcompare rel dst a b => Lower.fcompare rel dst a b
  | .fmove dst src => Lower.fmove dst src
  | .farith .add dst src => Lower.farith .add dst src
  | .farith .sub dst src => Lower.farith .sub dst src
  | .farith .mul dst src => Lower.farith .mul dst src
  | .farith .div dst src => Lower.farith .div dst src
  | .farith .mod _ _ => serviceExit pc
  | .push r => pushOne t pc r
  | .pop r => popOne t pc r
  | .pushRange r => Lower.pushRange t pc r
  | .popRange r => Lower.popRange t pc r
  | .nop => []
  | .service _ => serviceExit pc

end BlockVM
