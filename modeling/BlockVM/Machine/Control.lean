import BlockVM.Machine.Eval

/-!
# Control transfers

Jumps, calls and returns decide where the next block starts, so they are always evaluated. A return
from an empty stack halts the core: its stack pointer goes below zero and its address becomes
negative.
-/

namespace BlockVM

open Isa (Inst)

/-- The address of a core that has halted. -/
def haltPc : Int64 := -1

/-- Bytes of a return address on the stack. -/
def returnSize : Int64 := 4

namespace Machine

def setPc (m : Machine) (pc : Int64) : Machine := { m with core := { m.core with pc := pc } }

def setSp (m : Machine) (sp : Int64) : Machine := m.setRegs { m.core.regs with sp := sp }

def relative (i : Inst) (slot : Nat) : Int64 := i.pc + (i.arg slot).signed + Int64.ofNat i.length

def absolute (i : Inst) (slot : Nat) : Int64 := Int64.ofNat (i.arg slot).low.toNat

/-- A conditional jump is taken when its register is 0. -/
def isTaken (m : Machine) (i : Inst) : Bool := m.core.regs.int (i.arg 0).index == 0

/-- Pushes the address of the next instruction and jumps. -/
def call (m : Machine) (i : Inst) : Machine × Option Stop :=
  let sp := m.core.regs.sp
  match m.core.stack.write m.memory sp returnSize i.next.toUInt64 with
  | .error e => (m, some (accessFault .stackBounds i "pushing return address" e))
  | .ok memory => (((m.setMemory memory).setSp (sp + returnSize)).setPc (absolute i 0), none)

/-- Pops an address and jumps to it, or halts. The stack pointer moves first. -/
def ret (m : Machine) (i : Inst) : Machine × Option Stop :=
  let sp := m.core.regs.sp - returnSize
  -- The pointer keeps its new value even if the address cannot be read.
  let m := m.setSp sp
  if sp < 0 then (m.setPc haltPc, none)
  else match m.core.stack.read m.memory sp returnSize with
    | .error e => (m, some (accessFault .stackBounds i "popping return address" e))
    | .ok v => (m.setPc v.toInt64, none)

def jump (m : Machine) (i : Inst) : Machine × Option Stop :=
  match i.family with
  | .jmp => (m.setPc (absolute i 0), none)
  | .jmpr => (m.setPc (relative i 0), none)
  | .jc => (m.setPc (if m.isTaken i then absolute i 1 else i.next), none)
  | .jcr => (m.setPc (if m.isTaken i then relative i 1 else i.next), none)
  | .call => m.call i
  | .ret => m.ret i
  | _ =>
    (m, some (.fault .invalidOpcode i.pc (i.name ++ " is not a control-flow instruction")))

/-- Counts something in the core's statistics. -/
def count (m : Machine) (f : Stats → Stats) : Machine :=
  { m with core := { m.core with stats := f m.core.stats } }

def notify (m : Machine) (e : Event) : Machine := { m with proc := m.proc.notify e }

/-- Counts a control transfer of the process and gives up if it is the one to give up at. -/
def transferred (p : Proc) : Proc :=
  let n := p.transfers + 1
  { p with transfers := n, canceled := p.canceled || n == p.cancelAfter }

/-- Keeps account of a control transfer that was made. -/
def account (m : Machine) (i : Inst) : Machine :=
  let m := m.count fun s => { s with controls := s.controls + 1 }
  let m := m.notify (.control m.core.id i.family)
  m.setProc (transferred m.proc)

def control (m : Machine) (i : Inst) : Machine × Option Stop :=
  match m.jump i with
  | (m, some e) => (m, some e)
  | (m, none) => (m.account i, none)

end Machine

end BlockVM
