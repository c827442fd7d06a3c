/-!
# Graphics and keyboard

The graphics device takes requests and may refuse them; the keyboard tells which keys are held. A
recorder keeps what was asked for, in order. What a device answers may depend on every call before.
-/

namespace BlockVM

/-- One request to draw. -/
structure DrawCall where
  x : Int32
  y : Int32
  /-- The address of the image. -/
  image : UInt64
  effects : UInt8
  rotation : UInt16
deriving DecidableEq, Repr

/-- A request to the graphics device. -/
inductive GpuRequest where
  | draw (call : DrawCall)
  /-- Transfers to the framebuffer, from an address. -/
  | framebufferIn (addr : UInt64)
  /-- Transfers from the framebuffer, to an address. -/
  | framebufferOut (addr : UInt64)
  | command (cmd : UInt64)
deriving DecidableEq, Repr

/-- A call of a device. -/
inductive DeviceCall where
  | request (r : GpuRequest)
  /-- Asks whether a key is held. -/
  | poll (key : UInt64)
deriving DecidableEq, Repr

/-- What was asked for, and which keys are held. -/
structure Recorder where
  draws : Array DrawCall := #[]
  commands : Array UInt64 := #[]
  dmaIn : Array UInt64 := #[]
  dmaOut : Array UInt64 := #[]
  keys : List (UInt64 × Bool) := []
  /-- Every call so far, refused ones too, the latest first. -/
  calls : List DeviceCall := []
deriving DecidableEq, Repr

namespace Recorder

def note (r : Recorder) (c : DeviceCall) : Recorder := { r with calls := c :: r.calls }

def record (r : Recorder) : GpuRequest → Recorder
  | .draw call => { r with draws := r.draws.push call }
  | .framebufferIn addr => { r with dmaIn := r.dmaIn.push addr }
  | .framebufferOut addr => { r with dmaOut := r.dmaOut.push addr }
  | .command cmd => { r with commands := r.commands.push cmd }

def press (r : Recorder) (key : UInt64) (held : Bool) : Recorder :=
  { r with keys := (key, held) :: r.keys }

def isHeld (r : Recorder) (key : UInt64) : Bool := (r.keys.lookup key).getD false

end Recorder

/-- The devices behind the ports. -/
structure Devices where
  recorder : Recorder := {}
  /-- The reason for which a request is refused, given what was asked before. -/
  refuses : Recorder → GpuRequest → Option String := fun _ _ => none
  /-- Whether a key is held, given what was asked before. -/
  held : Recorder → UInt64 → Bool := Recorder.isHeld

namespace Devices

/-- Makes a request; of a refused one only the call is kept. -/
def request (d : Devices) (r : GpuRequest) : Devices × Option String :=
  let noted := d.recorder.note (.request r)
  match d.refuses d.recorder r with
  | some reason => ({ d with recorder := noted }, some reason)
  | none => ({ d with recorder := noted.record r }, none)

def poll (d : Devices) (key : UInt64) : Devices × Bool :=
  ({ d with recorder := d.recorder.note (.poll key) }, d.held d.recorder key)

end Devices

end BlockVM
