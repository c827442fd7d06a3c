import BlockVM.Memory.CodeBuffer

/-!
# Mappings for machine code

Every code buffer stands in a mapping of its own. The host numbers the requests for such mappings
and may grant or refuse each of them by its number and its size; it remembers the requests and which
of the mappings still exist. Giving a mapping back never fails.
-/

namespace BlockVM

/-- A request for a mapping. -/
structure ExecRequest where
  size : Nat
  granted : Bool
deriving DecidableEq, Repr

/-- The host as far as memory for machine code is concerned. -/
structure ExecHost where
  /-- Whether the request with a number is granted for a mapping of that many bytes. -/
  grants : Nat → Nat → Bool
  /-- The requests so far, the latest first. -/
  requests : List ExecRequest := []
  /-- The numbers of the requests whose mappings exist. -/
  live : List Nat := []

namespace ExecHost

/-- What the host grants to the next request. -/
def memory (h : ExecHost) : ExecMemory := ⟨h.grants h.requests.length⟩

/-- A host that decides by the size alone. -/
def uniform (x : ExecMemory) : ExecHost := { grants := fun _ => x.grants }

def ask (h : ExecHost) (size : Nat) : ExecHost :=
  let granted := (h.memory.refusal? size).isNone
  { h with
    requests := ⟨size, granted⟩ :: h.requests
    live := if granted then h.requests.length :: h.live else h.live }

def drop (h : ExecHost) (mapping : Nat) : ExecHost := { h with live := h.live.erase mapping }

end ExecHost

/-- The size of the mapping that an append of `n` bytes asks for, if it asks for one. -/
def CodeBuffer.request? (b : CodeBuffer) (n : Nat) : Option Nat :=
  if b.error.isNone && b.capacity < b.size + n then some (b.grownTo (b.size + n)) else none

/-- A code buffer with the number of its mapping and the host that the mapping is from. -/
structure CodeRegion where
  host : ExecHost
  buffer : CodeBuffer
  mapping : Nat

namespace CodeRegion

/-- An empty buffer of one increment, or why there is none and the host after the request. -/
def new (h : ExecHost) (increment : Int64) : Except (Failure × ExecHost) CodeRegion :=
  let asked := h.ask (CodeBuffer.incrementOf increment)
  match CodeBuffer.new h.memory increment with
  | .error f => .error (f, asked)
  | .ok b => .ok ⟨asked, b, h.requests.length⟩

/-- Appends bytes. A buffer that grows moves to the new mapping and gives the old one back. -/
def append (r : CodeRegion) (bytes : List UInt8) : Except Stop CodeRegion := do
  let buffer ← r.buffer.append r.host.memory bytes
  match r.buffer.request? bytes.length with
  | none => return { r with buffer := buffer }
  | some size =>
    let host := r.host.ask size
    match buffer.error with
    | some _ => return { r with host := host, buffer := buffer }
    | none => return ⟨host.drop r.mapping, buffer, r.host.requests.length⟩

/-- Overwrites bytes that were written before. -/
def patch (r : CodeRegion) (off : Int64) (bytes : List UInt8) : Except Stop CodeRegion := do
  return { r with buffer := ← r.buffer.patch off bytes }

/-- Gives the mapping back, unless that happened before. -/
def release (r : CodeRegion) : CodeRegion :=
  if r.buffer.mapped then { r with host := r.host.drop r.mapping, buffer := r.buffer.release }
  else r

end CodeRegion

end BlockVM
