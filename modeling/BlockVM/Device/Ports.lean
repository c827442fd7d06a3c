import BlockVM.Bytes.LittleEndian
import BlockVM.Fault

/-!
# Ports

A core talks to devices, to the memory manager and to the thread manager through 256 numbered port
bytes. Ports are little-endian storage; a write to a port with a handler goes to the handler
instead. A latching handler stores what is written, as a port without handler does, for commands
that nothing implements.
-/

namespace BlockVM

namespace Port

def framebufferIn : UInt32 := 0x00
def framebufferOut : UInt32 := 0x01
def keyboard : UInt32 := 0x02
def makeHeap : UInt32 := 0x03
def destroyHeap : UInt32 := 0x0b
def fileCommand : UInt32 := 0x0c
def stringCommand : UInt32 := 0x0d
def threadCreate : UInt32 := 0x0e
def threadParameter : UInt32 := 0x0f
def dmaSize : UInt32 := 0x17
def gpuCommand : UInt32 := 0x1b
def gpuEffects : UInt32 := 0x20
def gpuRotation : UInt32 := 0x21

def names : List (UInt32 × String) := [
  (framebufferIn, "GPU_FB_IN_DMA"),
  (framebufferOut, "GPU_FB_OUT_DMA"),
  (keyboard, "KEYBOARD"),
  (makeHeap, "MEMORY_MAKE_HEAP"),
  (destroyHeap, "MEMORY_DESTROY_HEAP"),
  (fileCommand, "FILE_COMMAND"),
  (stringCommand, "STRING_COMMAND"),
  (threadCreate, "THREAD_CREATE"),
  (threadParameter, "THREAD_PARAMETER"),
  (dmaSize, "DMA_SIZE"),
  (gpuCommand, "GPU_COMMAND"),
  (gpuEffects, "GPU_EFFECTS"),
  (gpuRotation, "GPU_ROTATION")]

/-- The name of a port, empty for a port without one. -/
def name (p : UInt32) : String := (names.lookup p).getD ""

end Port

/-- What a write to a port does; `η` are the handlers of the bank's owner. -/
inductive Handler (η : Type) where
  | latch
  | call (h : η)
deriving DecidableEq, Repr

/-- The port space of one core. -/
structure Bank (η : Type) where
  bytes : Vector UInt8 256
  handlers : Vector (Option (Handler η)) 256

namespace Bank

variable {η : Type}

/-- All ports zero and without handlers. -/
def empty : Bank η := ⟨.replicate 256 0, .replicate 256 none⟩

def place (port : Nat) : Fin 256 := Fin.ofNat 256 port

/-- Gives a port a handler, or takes it away. -/
def handle (b : Bank η) (port : UInt8) (h : Option (Handler η)) : Bank η :=
  { b with handlers := b.handlers.set (place port.toNat) h }

def handler (b : Bank η) (port : UInt32) : Option (Handler η) := b.handlers[place port.toNat]

/-- The ports that an access touches must exist. -/
def span (port : UInt32) (width : Int64) : Except Failure Unit :=
  if !(width == 1 || width == 2 || width == 4 || width == 8) then
    .error (.ofText ("port " ++ Hex.ofNat port.toNat ++ ": invalid width " ++ toString width.toInt))
  else if 256 < port.toNat + width.toNatClampNeg then
    .error (.detailed (.cause .portRange)
      (Hex.ofNat port.toNat ++ "+" ++ toString width.toInt))
  else .ok ()

def put (bytes : Vector UInt8 256) : Nat → List UInt8 → Vector UInt8 256
  | _, [] => bytes
  | port, v :: vs => put (bytes.set (place port) v) (port + 1) vs

def get (bytes : Vector UInt8 256) : Nat → Nat → List UInt8
  | _, 0 => []
  | port, n + 1 => bytes[place port] :: get bytes (port + 1) n

/-- Writes the low bytes of a value without asking a handler. -/
def store (b : Bank η) (port : UInt32) (width : Int64) (v : UInt64) : Except Failure (Bank η) := do
  span port width
  return { b with
    bytes := put b.bytes port.toNat (LittleEndian.bytes width.toNatClampNeg v.toNat) }

def read (b : Bank η) (port : UInt32) (width : Int64) : Except Failure UInt64 := do
  span port width
  return LittleEndian.toUInt64 (get b.bytes port.toNat width.toNatClampNeg)

/-- What becomes of a write. -/
inductive Written (η : Type) where
  | stored (b : Bank η)
  /-- The handler gets the value, cut to the width. -/
  | passed (h : η) (value : UInt64)

def cut (width : Int64) (v : UInt64) : UInt64 :=
  LittleEndian.toUInt64 (LittleEndian.bytes width.toNatClampNeg v.toNat)

/-- Passes a value to the port's handler, or stores it where there is none. -/
def write (b : Bank η) (port : UInt32) (width : Int64) (v : UInt64) :
    Except Failure (Written η) := do
  span port width
  match b.handler port with
  | some (.call h) => return .passed h (cut width v)
  | some .latch | none => return .stored (← b.store port width v)

def handlerFailure (port : UInt32) (f : Failure) : Failure := .within ("port " ++ Port.name port) f

/-- Stores a float. Floats never reach a handler. -/
def storeFloat (b : Bank η) (port : UInt32) (bits : UInt32) : Except Failure (Bank η) :=
  b.store port 4 bits.toUInt64

def readFloat (b : Bank η) (port : UInt32) : Except Failure UInt32 :=
  return (← b.read port 4).toUInt32

end Bank

end BlockVM
