import BlockVM.Block.Layout
import BlockVM.Memory.CodeBuffer

/-!
# Compilation

A block is the longest run of instructions from a start up to control flow, the end of the code or
an instruction that cannot be decoded or is rejected. Its machine code enters, performs the actions
of the run in order and returns 0.

If there is no run the compilation fails with what is wrong with the first instruction.
-/

namespace BlockVM

open Isa (Inst)

/-- A run of instructions. -/
structure Run where
  /-- The instructions and what they ask for. -/
  steps : List (Inst × Action)
  /-- The address behind the run. -/
  stop : Int64
  /-- What is wrong with the instruction behind the run, if anything. -/
  reason : Option Stop
deriving DecidableEq, Repr

/-- The run at `pc`, at most `fuel` instructions long. -/
def Run.take (code : Array UInt8) (globalSize : Int64) : Nat → Int64 → Run
  | 0, pc => ⟨[], pc, none⟩
  | fuel + 1, pc =>
    if pc < Int64.ofNat code.size then
      match Isa.decode code pc with
      | .error e => ⟨[], pc, some e⟩
      | .ok i =>
        -- Control flow is never compiled.
        if i.info.isControl then ⟨[], pc, none⟩
        else match Action.ofInst i globalSize with
          | .error e => ⟨[], pc, some e⟩
          | .ok a =>
            let rest := take code globalSize fuel i.next
            { rest with steps := (i, a) :: rest.steps }
    else ⟨[], pc, none⟩

/-- The run at `pc`. Every instruction has at least two bytes, so the size of the code bounds it. -/
def Run.at (code : Array UInt8) (globalSize pc : Int64) : Run :=
  Run.take code globalSize (code.size + 1) pc

/-- The machine code of a run before its layout. -/
def Run.items (t : Target) (r : Run) : List Item :=
  Lower.enter ++ r.steps.flatMap (fun (i, a) => a.lower t i.pc) ++ Lower.finish

/-- A compiled run. -/
structure Block where
  start : Int64
  stop : Int64
  /-- Number of instructions. -/
  insts : Nat
  code : Array UInt8
deriving DecidableEq, Repr

/-- The failure of a compilation for want of memory. -/
def outOfCodeMemory (start : Int64) (what : String) (f : Failure) : Stop :=
  .failure (.faultBy .resource start what f)

def appendAll (x : ExecMemory) : CodeBuffer → List (List UInt8) → Except Stop CodeBuffer
  | b, [] => .ok b
  | b, p :: ps => do
    let b ← b.append x p
    appendAll x b ps

/-- Compiles the run at `start`. -/
def compile (x : ExecMemory) (code : Array UInt8) (t : Target) (increment start : Int64) :
    Except Stop Block := do
  match CodeBuffer.new x increment with
  | .error f => throw (outOfCodeMemory start "allocating code buffer" f)
  | .ok buffer =>
    let run := Run.at code t.globalSize start
    if run.steps.isEmpty then
      throw (run.reason.getD (.fault .codeBounds start "no instruction to compile"))
    let buffer ← appendAll x buffer (Layout.pieces (run.items t))
    match buffer.error, buffer.finalize with
    | some f, _ => throw (outOfCodeMemory start "growing code buffer" f)
    | none, .error f => throw (outOfCodeMemory start "finalizing code buffer" f)
    | none, .ok buffer => return ⟨start, run.stop, run.steps.length, buffer.bytes⟩

end BlockVM
