import BlockVM.Isa.Family
import BlockVM.Numeric.Binary64

/-!
# Metrics

An observer counts what the cores do. Some counts are kept for each core or for each family of
instructions, under a label; those exist from their first event on. The sizes of compiled blocks go
into buckets, each of which counts the blocks up to its bound.

`Metrics.samples` lists everything that was counted, ordered by name and then by label.
-/

namespace BlockVM

/-- Counts by label, in the order of the labels. -/
abbrev Tally := List (String × Nat)

/-- Counts one more event under a label. -/
def Tally.count (label : String) : Tally → Tally
  | [] => [(label, 1)]
  | (l, n) :: rest =>
    if label < l then (label, 1) :: (l, n) :: rest
    else if label = l then (l, n + 1) :: rest
    else (l, n) :: count label rest

/-- The bounds of the buckets for block sizes. -/
def sizeBounds : List Nat := (List.range 10).map fun k => 32 * 2 ^ k

/-- What an observer has counted. -/
structure Metrics where
  compiled : Tally := []
  executed : Tally := []
  serviceExits : Tally := []
  controls : Tally := []
  instructions : Nat := 0
  codeBytes : Nat := 0
  /-- The number of compiled blocks, the sum of their sizes, and for each bound how many are not
  larger. -/
  blocks : Nat := 0
  sizeSum : Nat := 0
  sizes : List Nat := sizeBounds.map fun _ => 0
  running : Int := 0
  faults : Nat := 0
deriving DecidableEq, Repr

namespace Metrics

/-! ## Events -/

def coreStarted (m : Metrics) : Metrics := { m with running := m.running + 1 }

def coreStopped (m : Metrics) (fault : Bool) : Metrics :=
  { m with running := m.running - 1, faults := if fault then m.faults + 1 else m.faults }

/-- A counter after an increase; it never goes down. -/
def increase (counter : Nat) (step : Int64) : Except String Nat :=
  if step < 0 then .error "counter cannot decrease in value"
  else .ok ((counter + Binary64.round step.toNatClampNeg) % 2 ^ 64)

/-- A core has compiled a block of so many instructions to so many bytes. -/
def blockCompiled (m : Metrics) (core insts bytes : Int64) : Except String Metrics := do
  let instructions ← increase m.instructions insts
  let codeBytes ← increase m.codeBytes bytes
  let size := Binary64.round bytes.toNatClampNeg
  return { m with
    compiled := m.compiled.count (toString core.toInt)
    instructions := instructions
    codeBytes := codeBytes
    blocks := m.blocks + 1
    sizeSum := Binary64.round (m.sizeSum + size)
    sizes := (sizeBounds.zip m.sizes).map fun (bound, n) => if size ≤ bound then n + 1 else n }

def blockExecuted (m : Metrics) (core : Int64) : Metrics :=
  { m with executed := m.executed.count (toString core.toInt) }

def serviceExit (m : Metrics) (family : String) : Metrics :=
  { m with serviceExits := m.serviceExits.count family }

def controlTransfer (m : Metrics) (family : String) : Metrics :=
  { m with controls := m.controls.count family }

/-! ## Samples -/

inductive Reading where
  | counter (value : Nat)
  | gauge (value : Int)
  /-- How many values there were, their sum, and how many are not above each bound. -/
  | histogram (count sum : Nat) (buckets : List (Nat × Nat))

/-- One thing that was counted. -/
structure Sample where
  name : String
  help : String
  /-- The name and the value of the label, if there is one. -/
  label : Option (String × String) := none
  reading : Reading

def tallySamples (name help label : String) (t : Tally) : List Sample :=
  t.map fun (value, n) => ⟨name, help, some (label, value), .counter n⟩

def samples (m : Metrics) : List Sample :=
  [⟨"despair_block_size_bytes", "Native size of compiled blocks.", none,
    .histogram m.blocks m.sizeSum (sizeBounds.zip m.sizes)⟩]
  ++ tallySamples "despair_blocks_compiled_total" "Basic blocks translated to native code." "core"
    m.compiled
  ++ tallySamples "despair_blocks_executed_total" "Native block entries from the dispatch loop."
    "core" m.executed
  ++ [⟨"despair_code_bytes_total", "Bytes of native code emitted.", none, .counter m.codeBytes⟩]
  ++ tallySamples "despair_control_transfers_total" "Interpreted jumps, calls and returns." "family"
    m.controls
  ++ [⟨"despair_core_faults_total", "Cores stopped by an error.", none, .counter m.faults⟩,
    ⟨"despair_cores_running", "Cores currently dispatching.", none, .gauge m.running⟩,
    ⟨"despair_instructions_compiled_total",
     "Bytecode instructions translated to native code.", none,
      .counter m.instructions⟩]
  ++ tallySamples "despair_service_exits_total"
    "Returns from native code to perform a host service." "family" m.serviceExits

/-- The names that an observer takes. -/
def names : List String := [
  "despair_blocks_compiled_total", "despair_blocks_executed_total",
  "despair_instructions_compiled_total", "despair_code_bytes_total", "despair_block_size_bytes",
  "despair_service_exits_total", "despair_control_transfers_total", "despair_cores_running",
  "despair_core_faults_total"]

/-- Takes the names of an observer, unless one of them is taken. -/
def register? (taken : List String) : Option (List String) :=
  if names.any taken.contains then none else some (taken ++ names)

end Metrics

end BlockVM
