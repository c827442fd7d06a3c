import BlockVM.Machine.Dispatch

/-!
# Traces

A trace tells, for each dispatch, where the core is afterwards and what changed in its registers.
-/

namespace BlockVM

/-- What a dispatch changed. -/
structure Change where
  /-- The address after the dispatch. -/
  pc : Int64
  ints : List (UInt8 × UInt64)
  floats : List (UInt8 × UInt32)
  sp : Option Int64
deriving DecidableEq, Repr

namespace Registers

def numbers : List UInt8 := (List.range 256).map UInt8.ofNat

/-- The integer registers that differ from those of another file. -/
def intsOver (f base : Registers) : List (UInt8 × UInt64) :=
  (numbers.filter fun r => f.int r != base.int r).map fun r => (r, f.int r)

/-- The float registers that differ from those of another file. -/
def floatsOver (f base : Registers) : List (UInt8 × UInt32) :=
  (numbers.filter fun r => f.float r != base.float r).map fun r => (r, f.float r)

end Registers

namespace Machine

/-- What changed since an earlier state of the registers. -/
def changeSince (m : Machine) (before : Registers) : Change where
  pc := m.core.pc
  ints := m.core.regs.intsOver before
  floats := m.core.regs.floatsOver before
  sp := if m.core.regs.sp = before.sp then none else some m.core.regs.sp

/-- Dispatches until the core halts or fails, at most `n` times. -/
def trace : Nat → Machine → List Change → Machine × Option Stop × List Change
  | 0, m, log => (m, none, log.reverse)
  | n + 1, m, log =>
    if m.core.pc < 0 then (m, none, log.reverse)
    else
      let before := m.core.regs
      match m.dispatch with
      | (m, some e) => (m, some e, (m.changeSince before :: log).reverse)
      | (m, none) => trace n m (m.changeSince before :: log)

/-- The registers of a core that has just been made. -/
def initialRegs (m : Machine) : Registers :=
  (Registers.zero.setInt dataReg m.core.data.base).setInt globalReg m.proc.global.base

end Machine

end BlockVM
