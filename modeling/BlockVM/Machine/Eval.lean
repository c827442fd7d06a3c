import BlockVM.Machine.State

/-!
# The evaluator

`Machine.step` performs one instruction that is not control flow. It runs every instruction of a
core that interprets, and the instructions that generated code leaves to the host, so each effect
has one definition.

A step gives the machine after it, also when it fails: what it did before it failed stays done. Most
instructions have one effect, which comes last (`commit`); only the stack instructions and the
replies of ports have several.
-/

namespace BlockVM

open Isa (Inst)

/-! ## Values -/

def truth (b : Bool) : UInt64 := if b then 1 else 0

def divideFault (i : Inst) (a b : Int) : Stop :=
  .fault .divide i.pc (i.name ++ ": " ++ toString a ++ " / " ++ toString b)

/-- Signed division of 32-bit operands, toward zero. -/
def divide32 (i : Inst) (remainder : Bool) (a b : Int32) : Except Stop UInt64 :=
  if b = 0 ∨ (a = Int32.minValue ∧ b = -1) then .error (divideFault i a.toInt b.toInt)
  else .ok (if remainder then a % b else a / b).toUInt32.toUInt64

/-- Signed division of 64-bit operands, toward zero. -/
def divide64 (i : Inst) (remainder : Bool) (a b : Int64) : Except Stop UInt64 :=
  if b = 0 ∨ (a = Int64.minValue ∧ b = -1) then .error (divideFault i a.toInt b.toInt)
  else .ok (if remainder then a % b else a / b).toUInt64

/-- A signed division at the width of its destination. -/
def divide (i : Inst) (remainder : Bool) (w : Access) (a b : UInt64) : Except Stop UInt64 :=
  match w with
  | .dword => divide32 i remainder a.toUInt32.toInt32 b.toUInt32.toInt32
  | _ => divide64 i remainder a.toInt64 b.toInt64

def shiftCount (w : Access) (b : UInt64) : UInt64 :=
  match w with
  | .dword => b &&& 31
  | _ => b &&& 63

/-- An integer operation at the width of its destination. Only the low bits of the result count. -/
def arith (i : Inst) (op : ArithOp) (w : Access) (a b : UInt64) : Except Stop UInt64 :=
  match op with
  | .add => .ok (a + b)
  | .sub => .ok (a - b)
  | .mul => .ok (a * b)
  | .and => .ok (a &&& b)
  | .or => .ok (a ||| b)
  | .xor => .ok (a ^^^ b)
  | .shl => .ok (a <<< shiftCount w b)
  | .shr =>
    match w with
    | .dword => .ok (a.toUInt32.toUInt64 >>> shiftCount w b)
    | _ => .ok (a >>> shiftCount w b)
  | .div => divide i false w a b
  | .mod => divide i true w a b

def Relation.holds (r : Relation) (a b : Int32) : Bool :=
  match r with
  | .equal => a == b
  | .notEqual => a != b
  | .greater => b < a
  | .less => a < b
  | .greaterEqual => b ≤ a
  | .lessEqual => a ≤ b

/-- A comparison of floats; an unordered pair counts as equal and as less. -/
def Relation.holdsFloat (r : Relation) (a b : UInt32) : Bool :=
  match r, Binary32.compare a b with
  | .equal, .equal | .equal, .unordered => true
  | .notEqual, .less | .notEqual, .greater => true
  | .greater, .greater => true
  | .less, .less | .less, .unordered => true
  | .greaterEqual, .greater | .greaterEqual, .equal => true
  | .lessEqual, .less | .lessEqual, .equal | .lessEqual, .unordered => true
  | _, _ => false

def FloatOp.apply : FloatOp → UInt32 → UInt32 → UInt32
  | .add => Binary32.add
  | .sub => Binary32.sub
  | .mul => Binary32.mul
  | .div => Binary32.div
  | .mod => Binary32.mod

/-! ## Operands -/

/-- The failure of an access, as a fault of the instruction. -/
def accessFault (kind : FaultKind) (i : Inst) (what : String) : Stop → Stop
  | .failure f => .failure (.faultBy kind i.pc what f)
  | .abort r => .abort r

/-- Relabels the failure of an access. -/
def faultOn {α : Type} (kind : FaultKind) (i : Inst) (what : String) (r : Except Stop α) :
    Except Stop α :=
  r.mapError (accessFault kind i what)

namespace Machine

def setRegs (m : Machine) (regs : Registers) : Machine :=
  { m with core := { m.core with regs := regs } }

def setMemory (m : Machine) (memory : Memory) : Machine :=
  { m with proc := { m.proc with host := { m.proc.host with memory := memory } } }

def memory (m : Machine) : Memory := m.proc.host.memory

/-- The arena and offset that a register points to. -/
def target (m : Machine) (i : Inst) (r : UInt8) (w : Access) : Except Stop (Arena × Int64) :=
  faultOn .badPointer i i.name (m.proc.space.resolve (m.core.regs.int r) (Int64.ofNat w.bytes))

/-- The integer value of an operand, zero-extended. -/
def read (m : Machine) (i : Inst) (o : Operand) : Except Stop UInt64 :=
  match o with
  | .imm v => .ok v
  | .reg r => .ok (m.core.regs.int r)
  | .global off w _ =>
    faultOn .operandBounds i i.name
      (m.proc.global.read m.memory off.toInt64 (Int64.ofNat w.bytes))
  | .pointer r w _ => do
    let (a, off) ← m.target i r w
    a.read m.memory off (Int64.ofNat w.bytes)
  | .freg _ | .fimm _ =>
    .error (.fault .invalidOpcode i.pc (i.name ++ ": " ++ o.text ++ " is not an integer operand"))

/-- Stores a value: registers take 64 bits, memory the width of the access. -/
def write (m : Machine) (i : Inst) (o : Operand) (v : UInt64) : Except Stop Machine :=
  match o with
  | .reg r => .ok (m.setRegs (m.core.regs.setInt r v))
  | .global off w _ => do
    let memory ← faultOn .operandBounds i i.name
      (m.proc.global.write m.memory off.toInt64 (Int64.ofNat w.bytes) v)
    return m.setMemory memory
  | .pointer r w _ => do
    let (a, off) ← m.target i r w
    return m.setMemory (← a.write m.memory off (Int64.ofNat w.bytes) v)
  | .freg _ | .imm _ | .fimm _ =>
    .error (.fault .invalidOpcode i.pc (i.name ++ ": cannot write " ++ o.text))

/-- The float value of an operand. Integers are read as 32 bits and converted. -/
def readF (m : Machine) (i : Inst) (o : Operand) : Except Stop UInt32 :=
  match o with
  | .fimm bits => .ok bits
  | .freg r => .ok (m.core.regs.float r)
  | o => do
    let v ← m.read i o
    return if o.holdsFloat then v.toUInt32 else Binary32.ofInt v.toUInt32.toInt32.toInt

/-- Stores a float. An integer destination gets the nearest 32-bit integer. -/
def writeF (m : Machine) (i : Inst) (o : Operand) (bits : UInt32) : Except Stop Machine :=
  match o with
  | .freg r => .ok (m.setRegs (m.core.regs.setFloat r bits))
  | o =>
    if o.holdsFloat then m.write i o bits.toUInt64
    else m.write i o (Binary32.toInt32 bits).toUInt64

/-! ## The stack -/

/-- The machine after an effect that happens as a whole or not at all. -/
def commit (m : Machine) : Except Stop Machine → Machine × Option Stop
  | .ok m => (m, none)
  | .error e => (m, some e)

/-- Bytes of one register on the stack. -/
def slotSize (float : Bool) : Int64 := if float then 4 else 8

/-- Stores registers in ascending order from a stack offset on. -/
def storeRange (stack : Arena) (regs : Registers) (float : Bool) :
    Nat → UInt8 → Int64 → Memory → Memory × Option Stop
  | 0, _, _, memory => (memory, none)
  | n + 1, r, off, memory =>
    match stack.write memory off (slotSize float) (regs.bits float r) with
    | .error e => (memory, some e)
    | .ok memory => storeRange stack regs float n (r + 1) (off + slotSize float) memory

/-- Loads registers in ascending order from a stack offset on. -/
def loadRange (stack : Arena) (memory : Memory) (float : Bool) :
    Nat → UInt8 → Int64 → Registers → Registers × Option Stop
  | 0, _, _, regs => (regs, none)
  | n + 1, r, off, regs =>
    match stack.read memory off (slotSize float) with
    | .error e => (regs, some e)
    | .ok v =>
      loadRange stack memory float n (r + 1) (off + slotSize float) (regs.setBits float r v)

/-- A push that the stack has no room for. -/
def overflow (m : Machine) (i : Inst) (r : RegRange) : Stop :=
  .fault .stackBounds i.pc (i.name ++ ": " ++ toString r.bytes ++ " bytes at sp "
    ++ toString m.core.regs.sp.toInt ++ " overflow the " ++ toString m.core.stack.size
    ++ "-byte stack")

/-- A pop that the stack does not hold enough for. -/
def underflow (m : Machine) (i : Inst) (r : RegRange) : Stop :=
  .fault .stackBounds i.pc (i.name ++ ": " ++ toString r.bytes ++ " bytes below sp "
    ++ toString m.core.regs.sp.toInt ++ " underflow the stack")

/-- Pushes registers; the stack pointer moves last. -/
def push (m : Machine) (i : Inst) (r : RegRange) : Machine × Option Stop :=
  let sp := m.core.regs.sp
  let n := Int64.ofNat r.bytes
  if m.core.stack.inBounds sp n then
    -- Some registers may be on the stack already when a store
    -- fails; the pointer has not moved then.
    match storeRange m.core.stack m.core.regs r.float r.count r.first sp m.memory with
    | (memory, some e) => (m.setMemory memory, some e)
    | (memory, none) => ((m.setMemory memory).setRegs { m.core.regs with sp := sp + n }, none)
  else (m, some (m.overflow i r))

/-- Pops registers; the stack pointer moves last. -/
def pop (m : Machine) (i : Inst) (r : RegRange) : Machine × Option Stop :=
  let n := Int64.ofNat r.bytes
  let sp := m.core.regs.sp - n
  if m.core.stack.inBounds sp n then
    match loadRange m.core.stack m.memory r.float r.count r.first sp m.core.regs with
    | (regs, some e) => (m.setRegs regs, some e)
    | (regs, none) => (m.setRegs { regs with sp := sp }, none)
  else (m, some (m.underflow i r))

/-! ## Services -/

/-- The failure of a port access, as a fault of the instruction. -/
def portFault (i : Inst) (f : Failure) : Stop := .failure (.faultBy .operandBounds i.pc i.name f)

def port (m : Machine) (i : Inst) (o : Operand) : Except Stop UInt32 := do
  let p ← m.read i o
  if p < 256 then return p.toUInt32
  throw (.fault .operandBounds i.pc
    (i.name ++ ": port " ++ Hex.ofNat p.toNat ++ " out of range"))

def setPorts (m : Machine) (ports : Bank CorePort) : Machine :=
  { m with core := { m.core with ports := ports } }

def setProc (m : Machine) (proc : Proc) : Machine := { m with proc := proc }

def reply (m : Machine) (p : UInt32) (width : Int64) (v : UInt64) : Machine × Option Failure :=
  match m.core.ports.store p width v with
  | .error f => (m, some f)
  | .ok ports => (m.setPorts ports, none)

/-- Makes a request to the graphics device. -/
def request (m : Machine) (r : GpuRequest) : Machine × Option Failure :=
  let (devices, refusal) := m.proc.devices.request r
  (m.setProc { m.proc with devices := devices }, refusal.map .ofText)

/-- What a write to a port of the core does. -/
def serve (m : Machine) (h : CorePort) (v : UInt64) : Machine × Option Failure :=
  match h with
  | .framebufferIn => m.request (.framebufferIn v)
  | .framebufferOut => m.request (.framebufferOut v)
  | .gpuCommand => m.request (.command v)
  | .keyboard =>
    let (devices, held) := m.proc.devices.poll v
    (m.setProc { m.proc with devices := devices }).reply Port.keyboard 1 (truth held)
  | .makeHeap =>
    let (proc, base) := m.proc.makeHeap v
    (m.setProc proc).reply Port.makeHeap 8 (base.getD 0)
  | .destroyHeap => (m.setProc (m.proc.destroyHeap v), none)
  | .threadCreate =>
    match m.core.ports.read Port.threadParameter 8 with
    | .error f => (m, some f)
    | .ok param =>
      -- The start is cut to 32 bits.
      let (proc, result) := m.proc.spawn (Int64.ofNat v.toUInt32.toNat) param
      (m.setProc proc).reply Port.threadCreate 1 (truth result.isOk)

def output (m : Machine) (p : UInt32) (width : Nat) (v : UInt64) : Machine × Option Failure :=
  match m.core.ports.write p (Int64.ofNat width) v with
  | .error f => (m, some f)
  | .ok (.stored ports) => (m.setPorts ports, none)
  | .ok (.passed h value) =>
    let (m, failure) := m.serve h value
    (m, failure.map (Bank.handlerFailure p))

/-- The address of the image that a draw instruction names: a register's value, or the eight bytes
of global data at an offset. -/
def imageAddress (m : Machine) (i : Inst) (o : Operand) : Except Stop UInt64 :=
  match o with
  | .global off _ _ =>
    faultOn .operandBounds i "reading image address" (m.proc.global.read m.memory off.toInt64 8)
  | o => .ok (m.core.regs.int o.index)

/-- The request of a draw instruction. -/
def drawCall (m : Machine) (i : Inst) (x y image : Operand) : Except Stop DrawCall := do
  let addr ← m.imageAddress i image
  let effects ← (m.core.ports.read Port.gpuEffects 1).mapError (portFault i)
  let rotation ← (m.core.ports.read Port.gpuRotation 2).mapError (portFault i)
  return {
    x := (m.core.regs.int x.index).toUInt32.toInt32
    y := (m.core.regs.int y.index).toUInt32.toInt32
    image := addr
    effects := effects.toUInt8
    rotation := rotation.toUInt16 }

def draw (m : Machine) (i : Inst) (x y image : Operand) : Machine × Option Stop :=
  match m.drawCall i x y image with
  | .error e => (m, some e)
  | .ok call =>
    let (m, refusal) := m.request (.draw call)
    (m, refusal.map fun f => .failure (.faultBy .resource i.pc "draw" f))

/-- The port and the value of an output instruction. -/
def outputArgs (m : Machine) (i : Inst) (port value : Operand) : Except Stop (UInt32 × UInt64) := do
  let p ← m.port i port
  let v ← m.read i value
  return (p, v)

def service (m : Machine) (i : Inst) (s : Service) : Machine × Option Stop :=
  match s with
  | .output port value width =>
    match m.outputArgs i port value with
    | .error e => (m, some e)
    | .ok (p, v) =>
      let (m, failure) := m.output p width v
      (m, failure.map (portFault i))
  | .input dst port width => m.commit do
    let p ← m.port i port
    let v ← (m.core.ports.read p (Int64.ofNat width)).mapError (portFault i)
    m.write i dst v
  | .foutput port value => m.commit do
    let p ← m.port i port
    let bits ← m.readF i value
    let ports ← (m.core.ports.storeFloat p bits).mapError (portFault i)
    return m.setPorts ports
  | .finput dst port => m.commit do
    let p ← m.port i port
    let bits ← (m.core.ports.readFloat p).mapError (portFault i)
    m.writeF i dst bits
  | .draw x y image => m.draw i x y image
  | .time =>
    let (now, clock) := m.proc.clock.read
    ((m.setProc { m.proc with clock := clock }).setRegs (m.core.regs.setInt 0 now.toUInt64), none)
  | .sleep =>
    (m.setProc { m.proc with clock := m.proc.clock.sleep Clock.millisecond }, none)
  | .rand =>
    let (v, random) := m.proc.random.next31
    ((m.setProc { m.proc with random := random }).setRegs (m.core.regs.setInt 0 v), none)

/-! ## Instructions -/

def perform (m : Machine) (i : Inst) (a : Action) : Machine × Option Stop :=
  match a with
  | .move dst src => m.commit do
    let v ← m.read i src
    m.write i dst v
  | .arith op dst src => m.commit do
    let a ← m.read i dst
    let b ← m.read i src
    let r ← arith i op dst.width a b
    m.write i dst r
  | .compare rel dst src => m.commit do
    let a ← m.read i dst
    let b ← m.read i src
    m.write i dst (truth (rel.holds a.toUInt32.toInt32 b.toUInt32.toInt32))
  | .fcompare rel dst a b => m.commit
    (m.write i dst
      (truth (rel.holdsFloat (m.core.regs.float a.index) (m.core.regs.float b.index))))
  | .fmove dst src => m.commit do
    let v ← m.readF i src
    m.writeF i dst v
  | .farith op dst src => m.commit do
    let a ← m.readF i dst
    let b ← m.readF i src
    m.writeF i dst (op.apply a b)
  | .push r | .pushRange r => m.push i r
  | .pop r | .popRange r => m.pop i r
  | .nop => (m, none)
  | .service s => m.service i s

/-- Performs an instruction that is not control flow. -/
def step (m : Machine) (i : Inst) : Machine × Option Stop :=
  match Action.ofInst i (Int64.ofNat m.proc.global.size) with
  | .error e => (m, some e)
  | .ok a => m.perform i a

end Machine

end BlockVM
