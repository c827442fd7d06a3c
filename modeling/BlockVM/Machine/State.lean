import BlockVM.Block.Cache
import BlockVM.Device.Clock
import BlockVM.Device.Gpu
import BlockVM.Device.Ports
import BlockVM.Machine.Registers
import BlockVM.Mode
import BlockVM.Numeric.Pcg

/-!
# Cores and processes

A process runs one program. Code and global data are shared by its cores; each core has its own
registers, stack, data space, ports and block cache. Clock, devices, random numbers and heaps belong
to the process.

A machine is one core of a process at work.
-/

namespace BlockVM

/-- How a program wants its cores set up. -/
structure Header where
  stackSize : UInt32
  dataSize : UInt32
  codeStart : UInt32
  /-- Stored at the start of the data space when it is not 0. -/
  param : UInt64
deriving DecidableEq, Repr

/-- A program: its header, its code and its initial global data. -/
structure Program where
  header : Header
  code : Array UInt8
  global : List UInt8
deriving DecidableEq, Repr

/-- What a core has done. -/
structure Stats where
  core : Int64 := 0
  compiled : UInt64 := 0
  executed : UInt64 := 0
  hits : UInt64 := 0
  serviceExits : UInt64 := 0
  controls : UInt64 := 0
  interpreted : UInt64 := 0
  blocks : UInt64 := 0
  codeBytes : UInt64 := 0
  running : Bool := false
deriving DecidableEq, Repr

/-- The ports of a core that do something. -/
inductive CorePort where
  | framebufferIn
  | framebufferOut
  | gpuCommand
  | keyboard
  | makeHeap
  | destroyHeap
  | threadCreate
deriving DecidableEq, Repr

/-- The memory of a core. -/
structure CoreMemory where
  /-- Where the registers are kept, out of reach for programs. -/
  state : Arena
  stack : Arena
  data : Arena
deriving DecidableEq, Repr

/-- Maps the memory of a core. If a mapping is refused, those made before it are taken back. -/
def Host.mapCore (h : Host) (name : String) (stackSize dataSize : Nat) :
    Host × Except (String × Failure) CoreMemory :=
  match h.map (name ++ ".state") (Int64.ofNat Layout.fileSize) with
  | .error f => (h, .error ("mapping core state", f))
  | .ok (state, h) =>
    match h.map (name ++ ".stack") (Int64.ofNat stackSize) with
    | .error f => (h.unmap state, .error ("mapping stack", f))
    | .ok (stack, h) =>
      match h.map (name ++ ".data") (Int64.ofNat dataSize) with
      | .error f => ((h.unmap stack).unmap state, .error ("mapping data space", f))
      | .ok (data, h) => (h, .ok ⟨state, stack, data⟩)

/-- One thread of a program. -/
structure Core extends CoreMemory where
  id : Nat
  pc : Int64
  regs : Registers
  ports : Bank CorePort
  cache : Cache := {}
  stats : Stats

/-- The core after its memory was given back. -/
def Core.close (c : Core) : Core :=
  { c with state := c.state.close, stack := c.stack.close, data := c.data.close, cache := {} }

/-- What an observer of a process is told. -/
inductive Event where
  | started (core : Nat)
  /-- A run ended, with the error that it gave. -/
  | stopped (core : Nat) (error : Option Stop)
  | compiled (core insts bytes : Nat)
  | executed (core : Nat)
  | service (core : Nat) (family : Isa.Family)
  | control (core : Nat) (family : Isa.Family)
deriving DecidableEq, Repr

/-- How a process is run. -/
structure Options where
  mode : Mode := .jit
  /-- Growth of code buffers. -/
  increment : Int64 := 0
  seed : UInt64 := 0
  clock : Clock := {}
  devices : Devices := {}
  exec : ExecMemory := .unlimited
  /-- Gives up at that many control transfers; 0 for never. -/
  cancelAfter : Nat := 0
  /-- What the host answers to the process's requests for memory. -/
  plan : List Answer := []

/-- A program with what its cores share. -/
structure Proc where
  program : Program
  mode : Mode
  increment : Int64
  exec : ExecMemory
  cancelAfter : Nat
  host : Host
  global : Arena
  space : Space
  /-- Live heaps under their addresses. -/
  heaps : List (UInt64 × Arena) := []
  /-- Heaps made so far. -/
  heapCount : Nat := 0
  clock : Clock
  devices : Devices
  random : Pcg
  events : Array Event := #[]
  /-- Control transfers so far, over all cores. -/
  transfers : Nat := 0
  /-- Cores made so far. -/
  coreCount : Nat := 0
  /-- Cores may be spawned. -/
  started : Bool := false
  /-- Cores that were spawned and have not been taken up. -/
  spawned : List Core := []
  /-- The context of the process is done. -/
  canceled : Bool := false

/-- One core of a process at work. -/
structure Machine where
  core : Core
  proc : Proc

namespace Proc

/-- The failure to map the global data. -/
def globalFailure (f : Failure) : Failure := .within "mapping global data" f

/-- A process that no core belongs to yet. -/
def new (program : Program) (o : Options) : Except Failure Proc :=
  match ({ plan := o.plan } : Host).mapBytes "global" program.global with
  | .error f => .error (globalFailure f)
  | .ok (global, host) =>
    .ok {
      program := program
      mode := o.mode
      increment := o.increment
      exec := o.exec
      cancelAfter := o.cancelAfter
      host := host
      global := global
      space := (({} : Space).add global).1
      clock := o.clock
      devices := o.devices
      random := .ofSeed o.seed }

def notify (p : Proc) (e : Event) : Proc := { p with events := p.events.push e }

/-- Registers an arena that was just mapped. -/
def register (p : Proc) (a : Arena) : Proc := { p with space := (p.space.add a).1 }

def wiredPorts : Bank CorePort :=
  let wire (b : Bank CorePort) (e : UInt32 × Handler CorePort) := b.handle e.1.toUInt8 (some e.2)
  [ (Port.framebufferIn, .call .framebufferIn),
    (Port.framebufferOut, .call .framebufferOut),
    (Port.gpuCommand, .call .gpuCommand),
    (Port.keyboard, .call .keyboard),
    (Port.makeHeap, .call .makeHeap),
    (Port.destroyHeap, .call .destroyHeap),
    (Port.threadCreate, .call .threadCreate),
    (Port.fileCommand, .latch),
    (Port.stringCommand, .latch),
    (Port.dmaSize, .latch)].foldl wire Bank.empty

/-- Bytes of a core's data space; a parameter needs eight. -/
def dataSize (h : Header) (param : UInt64) : Nat :=
  if param ≠ 0 ∧ h.dataSize < 8 then 8 else h.dataSize.toNat

/-- Makes a core that starts at `start`. Its number is used up even if it cannot be made. -/
def newCore (p : Proc) (start : Int64) (param : UInt64) : Proc × Except Failure Core :=
  let id := p.coreCount
  let h := p.program.header
  match p.host.mapCore ("core" ++ toString id) h.stackSize.toNat (dataSize h param) with
  | (host, .error (what, f)) =>
    ({ p with host := host, coreCount := id + 1 }, .error (.faultBy .resource start what f))
  | (host, .ok a) =>
    let memory := if param = 0 then host.memory else host.memory.setWord a.data.base 8 param
    let p := { p with host := { host with memory := memory }, coreCount := id + 1 }
    let p := (p.register a.stack).register a.data
    let regs := (Registers.zero.setInt dataReg a.data.base).setInt globalReg p.global.base
    (p, .ok {
      id := id
      pc := start
      regs := regs
      toCoreMemory := a
      ports := wiredPorts
      stats := { core := Int64.ofNat id } })

/-- Takes back what belongs to a core. Doing it again changes nothing. -/
def closeCore (p : Proc) (c : Core) : Proc :=
  { p with
    space := (p.space.remove c.stack).remove c.data
    host := ((p.host.unmap c.stack).unmap c.data).unmap c.state }

def spawn (p : Proc) (start : Int64) (param : UInt64) : Proc × Except Failure Unit :=
  if p.started then
    match p.newCore start param with
    | (p, .ok c) => ({ p with spawned := p.spawned ++ [c] }, .ok ())
    | (p, .error f) => (p, .error f)
  else (p, .error (.cause .notStarted))

/-! ## Heaps -/

def maxHeap : UInt64 := 0x10000000000

/-- Makes a heap and gives its address. A size of 0 or above the largest makes none. -/
def makeHeap (p : Proc) (size : UInt64) : Proc × Option UInt64 :=
  if size = 0 ∨ maxHeap < size then (p, none)
  else
    let name := "heap" ++ toString p.heapCount
    let p := { p with heapCount := p.heapCount + 1 }
    match p.host.map name size.toInt64 with
    | .error _ => (p, none)
    | .ok (h, host) =>
      let heaps := (h.base, h) :: p.heaps.eraseP (·.1 == h.base)
      (({ p with host := host, heaps := heaps } : Proc).register h, some h.base)

/-- Destroys the heap at an address, if there is one. -/
def destroyHeap (p : Proc) (base : UInt64) : Proc :=
  match p.heaps.lookup base with
  | none => p
  | some h =>
    { p with
      heaps := p.heaps.eraseP (·.1 == base)
      space := p.space.remove h
      host := p.host.unmap h }

end Proc

end BlockVM
