import BlockVM.Memory.Host

/-!
# Code buffers

A code buffer is a region of executable memory that machine code is appended to. It grows by whole
increments, which moves it to a new mapping; bytes already written can be overwritten until the
buffer is finished. A failure to grow sticks: later bytes are dropped, and the first failure is
kept.
-/

namespace BlockVM

/-- What the host grants for machine code. -/
structure ExecMemory where
  /-- Whether a mapping of that many bytes is granted. -/
  grants : Nat → Bool

namespace ExecMemory

def unlimited : ExecMemory := ⟨fun _ => true⟩

/-- Only mappings of at most `n` bytes. -/
def upTo (n : Int64) : ExecMemory := ⟨fun size => (size : Int) ≤ n.toInt⟩

/-- The refusal of a mapping, if it is refused. -/
def refusal? (x : ExecMemory) (size : Nat) : Option MapError :=
  if !x.grants size then some .noExecutableMemory
  else if Host.maxMapping.toInt < size then some .outOfMemory
  else none

end ExecMemory

/-- A region of executable memory under construction. -/
structure CodeBuffer where
  /-- The bytes written so far. -/
  bytes : Array UInt8
  /-- Bytes of the mapping. -/
  capacity : Nat
  /-- Bytes of growth. -/
  increment : Nat
  /-- The first failure to grow. -/
  error : Option Failure
  final : Bool
  mapped : Bool
deriving DecidableEq, Repr

namespace CodeBuffer

/-- Growth of a buffer for which none is given. -/
def defaultIncrement : Nat := 10240

/-- The growth for a given number; one that is not positive selects the default. -/
def incrementOf (n : Int64) : Nat := if n ≤ 0 then defaultIncrement else n.toNatClampNeg

/-- An empty buffer of one increment. -/
def new (x : ExecMemory) (increment : Int64) : Except Failure CodeBuffer :=
  let inc := incrementOf increment
  match x.refusal? inc with
  | some e => .error (.within "failed to map executable memory" e.failure)
  | none => .ok ⟨#[], inc, inc, none, false, true⟩

def size (b : CodeBuffer) : Nat := b.bytes.size

/-- The capacity after growth: the first whole number of increments more that holds `need` bytes. -/
def grownTo (b : CodeBuffer) (need : Nat) : Nat :=
  b.capacity + (need - b.capacity + (b.increment - 1)) / b.increment * b.increment

/-- Moves the buffer to a mapping for `need` bytes. A buffer that was released has no mapping to
move from. -/
def grow (x : ExecMemory) (b : CodeBuffer) (need : Nat) : Except Failure CodeBuffer :=
  let size := b.grownTo need
  match x.refusal? size with
  | some e =>
    .error (.within ("failed to grow code buffer to " ++ toString size ++ " bytes") e.failure)
  | none =>
    if b.mapped then .ok { b with capacity := size }
    else .error (.within "failed to release old code buffer" MapError.invalidLength.failure)

def append (x : ExecMemory) (b : CodeBuffer) (bytes : List UInt8) : Except Stop CodeBuffer :=
  if b.final then .error (.abort (some "codebuf: append to finalized buffer"))
  else match b.error with
    | some _ => .ok b
    | none =>
      let need := b.size + bytes.length
      if need ≤ b.capacity then .ok { b with bytes := b.bytes ++ bytes.toArray }
      else match b.grow x need with
        | .ok b => .ok { b with bytes := b.bytes ++ bytes.toArray }
        | .error e => .ok { b with error := some e }

/-- Replaces the bytes from `pos` on. -/
def overwrite (code : Array UInt8) : Nat → List UInt8 → Array UInt8
  | _, [] => code
  | pos, b :: bs => overwrite (code.setIfInBounds pos b) (pos + 1) bs

/-- Overwrites bytes that were written before. -/
def patch (b : CodeBuffer) (off : Int64) (bytes : List UInt8) : Except Stop CodeBuffer :=
  -- This sum may wrap as well.
  let stop := off + Int64.ofNat bytes.length
  if b.final then .error (.abort (some "codebuf: patch of finalized buffer"))
  else if off < 0 ∨ Int64.ofNat b.size < stop then
    .error (.abort (some ("codebuf: patch [" ++ toString off.toInt ++ ", " ++ toString stop.toInt
      ++ ") beyond cursor " ++ toString b.size)))
  else if stop < off then .error (.abort none)
  else .ok { b with bytes := overwrite b.bytes off.toNatClampNeg bytes }

/-- Overwrites four bytes with a word. -/
def patch32 (b : CodeBuffer) (off : Int64) (v : UInt32) : Except Stop CodeBuffer :=
  b.patch off (LittleEndian.ofUInt32 v)

/-- Overwrites eight bytes with a word. -/
def patch64 (b : CodeBuffer) (off : Int64) (v : UInt64) : Except Stop CodeBuffer :=
  b.patch off (LittleEndian.ofUInt64 v)

def finalize (b : CodeBuffer) : Except Failure CodeBuffer :=
  match b.error with
  | some e => .error e
  | none =>
    if b.final then .ok b
    else if b.mapped then .ok { b with final := true }
    else .error (.within "failed to protect code buffer" MapError.invalidLength.failure)

def release (b : CodeBuffer) : CodeBuffer := { b with bytes := #[], capacity := 0, mapped := false }

end CodeBuffer

end BlockVM
