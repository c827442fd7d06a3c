import BlockVM.Memory.Space

/-!
# The host's memory

The host hands out mappings and holds their contents. Mappings that exist at the same time never
meet, but the addresses of one that is gone may be handed out again. Unless the host has other
plans, each mapping gets fresh addresses below all earlier ones, with unmapped addresses in between.
Memory for machine code may be limited in the size of a mapping.
-/

namespace BlockVM

/-- Why the host refuses a mapping. -/
inductive MapError where
  | invalidLength
  | outOfMemory
  | noExecutableMemory
deriving DecidableEq, Repr

def MapError.message : MapError → String
  | invalidLength => "invalid argument"
  | outOfMemory => "cannot allocate memory"
  | noExecutableMemory => "no executable memory"

def MapError.failure (e : MapError) : Failure := .ofText e.message

/-- What the host means to do about a request. -/
inductive Answer where
  | refuse
  /-- Maps at an address, if nothing is mapped there. -/
  | place (base : UInt64)
deriving DecidableEq, Repr

/-- The memory of the host. -/
structure Host where
  memory : Memory := {}
  /-- Every mapping so far begins here or above. -/
  frontier : UInt64 := 0x6d3f9a5b7000
  /-- Every arena mapped so far, the latest first. -/
  history : List Arena := []
  /-- The arenas whose mapping exists. -/
  live : List Arena := []
  /-- Answers to the requests to come. Where there are none, mappings go below the frontier. -/
  plan : List Answer := []

namespace Host

/-- The longest mapping that the host grants. -/
def maxMapping : Int64 := 0x800000000000

/-- Unmapped bytes behind a mapping. -/
def gap : UInt64 := 0x10000

/-- Programs own the lower half of the address space; no mapping reaches beyond it. -/
def addressLimit : Nat := 2 ^ 63

/-- No mapping begins below this address. -/
def lowest : Nat := 0x1000

/-- Whether a mapping may take `[base, base + length)`. -/
def isFree (h : Host) (base : UInt64) (length : Nat) : Bool :=
  lowest ≤ base.toNat && base.toNat + length + gap.toNat ≤ addressLimit &&
    h.live.all fun a =>
      base.toNat + length ≤ a.base.toNat || a.base.toNat + a.mapped ≤ base.toNat

/-- Where the host puts a mapping. -/
def choose (h : Host) (length : Nat) : Option UInt64 :=
  -- A gap stays free above the mapping, so that two arenas never touch.
  let fresh := h.frontier - gap - UInt64.ofNat length
  let below := if h.isFree fresh length then some fresh else none
  match h.plan with
  | [] => below
  | .refuse :: _ => none
  | .place base :: _ => if h.isFree base length then some base else below

/-- Maps a zeroed arena. -/
def map (h : Host) (name : String) (size : Int64) : Except Failure (Arena × Host) :=
  if size < 0 then
    .error (.ofText ("arena " ++ name ++ ": negative size " ++ toString size.toInt))
  else
    let length := mappingLength size
    let refused := fun (e : MapError) => Failure.within
      ("failed to map arena " ++ name ++ " (" ++ toString size.toInt ++ " bytes)") e.failure
    if length ≤ 0 then .error (refused .invalidLength)
    else if maxMapping < length then .error (refused .outOfMemory)
    else
      match h.choose length.toNatClampNeg with
      | none => .error (refused .outOfMemory)
      | some base =>
        let a : Arena :=
          { name := name, base := base, size := size.toNatClampNeg, serial := h.history.length }
        .ok (a, {
          memory := h.memory.clear base length.toNatClampNeg
          frontier := min h.frontier base
          history := a :: h.history
          live := a :: h.live
          plan := h.plan.tail })

/-- Takes the mapping of an arena back, if it exists. -/
def unmap (h : Host) (a : Arena) : Host := { h with live := h.live.eraseP (Space.same a) }

/-- Maps an arena with the given contents. -/
def mapBytes (h : Host) (name : String) (bytes : List UInt8) : Except Failure (Arena × Host) := do
  let (a, h) ← h.map name (Int64.ofNat bytes.length)
  return (a, { h with memory := h.memory.storeBytes a.base bytes })

/-- The arena whose mapping an address lies in, open or not, with the offset. -/
def arenaAt (h : Host) (addr : UInt64) : Option (Arena × Nat) :=
  (h.history.find? fun a => a.base ≤ addr && (addr - a.base).toNat < a.mapped).map
    fun a => (a, (addr - a.base).toNat)

end Host

end BlockVM
