import BlockVM.Block.Compile
import BlockVM.Block.Emission

/-!
# The compiler

A compiler belongs to one program and compiles its blocks one at a time. It maps a buffer, lowers
the instructions from the start on into it, and gives the buffer up with the mapping when there is
no block. `compile` says what comes of it, with the machine code laid out at once; here the code is
written and filled in step by step, and the compiler keeps between calls what a call leaves behind.
-/

namespace BlockVM

open Isa (Inst)

/-- A compiler of one core's program. -/
structure Compiler where
  code : Array UInt8
  target : Target
  increment : Int64
  /-- The float constants of the latest block. -/
  floats : List Deferred := []
  /-- The latest instruction that was lowered. -/
  pc : Int64 := 0

/-- A block with the buffer that holds its code. -/
structure Compiled where
  block : Block
  buffer : CodeBuffer
  /-- The mapping of the buffer. -/
  mapping : Nat
deriving DecidableEq, Repr

/-- What a call of a compiler leaves. -/
structure Outcome where
  result : Except Stop Compiled
  compiler : Compiler
  host : ExecHost

namespace Emit

/-- Lowers the instructions from `pc` on, at most `fuel` of them, `n` of the block being lowered
already. Gives the address behind them, the number of instructions of the block and what is wrong
with the first of them, if it is not accepted. -/
def body (code : Array UInt8) (t : Target) : Nat → Int64 → Nat → Emit (Int64 × Nat × Option Stop)
  | 0, pc, n => pure (pc, n, none)
  | fuel + 1, pc, n =>
    -- A stop behind the first instruction only ends the block: it is reported when it is reached.
    let refused : Stop → Emit (Int64 × Nat × Option Stop)
      | .abort reason => throw (.abort reason)
      | stop => return (pc, n, if n = 0 then some stop else none)
    if pc < Int64.ofNat code.size then
      match Isa.decode code pc with
      | .error stop => refused stop
      | .ok i =>
        if i.info.isControl then return (pc, n, none)
        else match prepare i t.globalSize with
          | .error stop => refused stop
          | .ok ops => do
            lower t i ops
            body code t fuel i.next (n + 1)
    else return (pc, n, none)

def free : Emit Unit := modify fun e => { e with region := e.region.release }

def finish : Emit Unit := do
  calls [.addRegImm32 .rsp Lower.frameSize, .xorRegReg32 Lower.acc Lower.acc, .ret]
  emitFloats (← get).floats

/-- Ends construction and makes the block, unless memory was short. -/
def close (start stop : Int64) (insts : Nat) : Emit (Except Stop Compiled) := do
  let r := (← get).region
  -- Bytes that a failed buffer dropped are noticed here at the latest.
  match r.buffer.error, r.buffer.finalize with
  | some f, _ =>
    free
    return .error (outOfCodeMemory start "growing code buffer" f)
  | none, .error f =>
    free
    return .error (outOfCodeMemory start "finalizing code buffer" f)
  | none, .ok buffer =>
    modify fun e => { e with region := { e.region with buffer := buffer } }
    return .ok ⟨⟨start, stop, insts, buffer.bytes⟩, buffer, r.mapping⟩

/-- Emits the block at `start` into an empty buffer. -/
def block (code : Array UInt8) (t : Target) (start : Int64) : Emit (Except Stop Compiled) := do
  enter
  match ← body code t (code.size + 1) start 0 with
  | (_, _, some stop) =>
    free
    return .error stop
  | (_, 0, none) =>
    free
    return .error (.fault .codeBounds start "no instruction to compile")
  | (stop, n + 1, none) =>
    finish
    close start stop (n + 1)

end Emit

namespace Compiler

/-- Compiles the block at `start`. -/
def compile (c : Compiler) (h : ExecHost) (start : Int64) : Outcome :=
  match CodeRegion.new h c.increment with
  | .error (f, h) => ⟨.error (outOfCodeMemory start "allocating code buffer" f), c, h⟩
  | .ok region =>
    let kept (e : Emission) : Compiler := { c with floats := e.floats, pc := e.pc }
    match (Emit.block c.code c.target start).run { region := region, pc := c.pc } with
    | .ok result e => ⟨result, kept e, e.region.host⟩
    | .error stop e => ⟨.error stop, kept e, e.region.host⟩

/-- The compiler and the host after a row of calls. -/
def history (c : Compiler) (h : ExecHost) : List Int64 → Compiler × ExecHost
  | [] => (c, h)
  | start :: rest =>
    let o := c.compile h start
    history o.compiler o.host rest

end Compiler

end BlockVM
