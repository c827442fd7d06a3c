import BlockVM.Machine.Dispatch
import BlockVM.Proofs.Machine.Effect

/-!
# What a dispatch can do

`jumped` and `dispatched` take a control transfer and a dispatch of an interpreting core apart into
the few ways in which they can go, each with what was checked on the way. `Reachable` collects the
states of a core that is dispatched again and again while its process may change in between, and
`Reachable.invariant` is the induction over them.
-/

namespace BlockVM

open Isa (Inst Decoded)

namespace Machine

/-! ## Control transfers -/

/-- The ways a control transfer can go. -/
inductive Jumped (m : Machine) (i : Inst) : Machine → Option Stop → Prop
  | next : Jumped m i (m.setPc i.next) none
  | absolute (slot : Nat) : Jumped m i (m.setPc (absolute i slot)) none
  | relative (slot : Nat) (family : i.family = .jmpr ∧ slot = 0 ∨ i.family = .jcr ∧ slot = 1) :
      Jumped m i (m.setPc (relative i slot)) none
  | called {memory : Memory}
      (stored : m.core.stack.write m.memory m.core.regs.sp returnSize i.next.toUInt64
        = .ok memory) :
      Jumped m i
        (((m.setMemory memory).setSp (m.core.regs.sp + returnSize)).setPc (absolute i 0)) none
  | overflowed {e : Stop}
      (refused : m.core.stack.write m.memory m.core.regs.sp returnSize i.next.toUInt64
        = .error e) :
      Jumped m i m (some (accessFault .stackBounds i "pushing return address" e))
  | halted (empty : m.core.regs.sp - returnSize < 0) (family : i.family = .ret) :
      Jumped m i ((m.setSp (m.core.regs.sp - returnSize)).setPc haltPc) none
  | returned {v : UInt64} (held : ¬ m.core.regs.sp - returnSize < 0)
      (loaded : m.core.stack.read m.memory (m.core.regs.sp - returnSize) returnSize = .ok v) :
      Jumped m i ((m.setSp (m.core.regs.sp - returnSize)).setPc v.toInt64) none
  | underflowed {e : Stop} (held : ¬ m.core.regs.sp - returnSize < 0)
      (refused : m.core.stack.read m.memory (m.core.regs.sp - returnSize) returnSize
        = .error e) :
      Jumped m i (m.setSp (m.core.regs.sp - returnSize))
        (some (accessFault .stackBounds i "popping return address" e))

theorem jumped_call (m : Machine) (i : Inst) : Jumped m i (m.call i).1 (m.call i).2 := by
  unfold call
  dsimp only
  split
  next e refused => exact .overflowed refused
  next memory stored => exact .called stored

/-- A return goes where the stack says, or halts at its bottom. -/
theorem jumped_ret (m : Machine) {i : Inst} (family : i.family = .ret) :
    Jumped m i (m.ret i).1 (m.ret i).2 := by
  unfold ret
  dsimp only
  split
  next empty => exact .halted empty family
  next held =>
    split
    next e refused => exact .underflowed held refused
    next v loaded => exact .returned held loaded

theorem families_of_isControl {f : Isa.Family} (h : f.isControl = true) :
    f = .jmp ∨ f = .jmpr ∨ f = .jc ∨ f = .jcr ∨ f = .call ∨ f = .ret := by
  cases f <;> simp [Isa.Family.isControl] at h ⊢

/-- Each of them changes no more than `Jumped` says. -/
theorem jumped (m : Machine) {i : Inst} (h : i.info.isControl = true) :
    Jumped m i (m.jump i).1 (m.jump i).2 := by
  unfold jump
  split
  · exact .absolute 0
  next hf => exact .relative 0 (.inl ⟨hf, rfl⟩)
  · split
    · exact .absolute 1
    · exact .next
  next hf =>
    split
    · exact .relative 1 (.inr ⟨hf, rfl⟩)
    · exact .next
  · exact jumped_call m i
  next hf => exact jumped_ret m hf
  -- No other family transfers control.
  next h₁ h₂ h₃ h₄ h₅ h₆ =>
    rcases families_of_isControl (f := i.family) h with hf | hf | hf | hf | hf | hf
    · exact absurd hf h₁
    · exact absurd hf h₂
    · exact absurd hf h₃
    · exact absurd hf h₄
    · exact absurd hf h₅
    · exact absurd hf h₆

/-! ## Dispatches -/

/-- The core with one more interpreted instruction in its statistics. -/
def countInterpreted (m : Machine) : Machine :=
  m.count fun s => { s with interpreted := s.interpreted + 1 }

/-- The ways a dispatch of an interpreting core can go. -/
inductive Dispatched (m : Machine) : Machine → Option Stop → Prop
  | undecoded {e : Stop} (read : Isa.decode m.proc.program.code m.core.pc = .error e) :
      Dispatched m m (some e)
  | jumped {i : Inst} {m' : Machine} (read : Isa.decode m.proc.program.code m.core.pc = .ok i)
      (done : Jumped m i m' none) : Dispatched m (m'.account i) none
  | stuck {i : Inst} {m' : Machine} {e : Stop}
      (read : Isa.decode m.proc.program.code m.core.pc = .ok i)
      (failed : Jumped m i m' (some e)) : Dispatched m m' (some e)
  | stepped {i : Inst} {m' : Machine} (read : Isa.decode m.proc.program.code m.core.pc = .ok i)
      (done : m.countInterpreted.step i = (m', none)) : Dispatched m (m'.setPc i.next) none
  | failed {i : Inst} {m' : Machine} {e : Stop}
      (read : Isa.decode m.proc.program.code m.core.pc = .ok i)
      (failed : m.countInterpreted.step i = (m', some e)) : Dispatched m m' (some e)

theorem dispatched_control {m : Machine} {i : Inst}
    (read : Isa.decode m.proc.program.code m.core.pc = .ok i) (h : i.info.isControl = true) :
    Dispatched m (m.control i).1 (m.control i).2 := by
  have hj := jumped m h
  unfold control
  split
  next m' e heq =>
    rw [heq] at hj
    exact .stuck read hj
  next m' heq =>
    rw [heq] at hj
    exact .jumped read hj

theorem dispatched_interpret {m : Machine} {i : Inst}
    (read : Isa.decode m.proc.program.code m.core.pc = .ok i) :
    Dispatched m (m.interpret i).1 (m.interpret i).2 := by
  unfold interpret
  dsimp only
  split
  next m' e heq => exact .failed read heq
  next m' heq => exact .stepped read heq

/-- An interpreting dispatch goes one of the ways of `Dispatched`, whatever would execute a
block. -/
theorem dispatched {m : Machine} (hmode : m.proc.mode = .interpret) (exec : Executor) :
    Dispatched m (m.dispatchWith exec).1 (m.dispatchWith exec).2 := by
  have hfresh : m.dispatchWith exec = m.dispatchFresh exec := by
    unfold dispatchWith
    rw [hmode]
  rw [hfresh]
  unfold dispatchFresh
  split
  next e read => exact .undecoded read
  next i read =>
    split
    next hc => exact dispatched_control read hc
    · rw [hmode]
      exact dispatched_interpret read

/-! ## New processes -/

def boot (program : Program) (o : Options) (start : Int64) (param : UInt64) :
    Except Failure Machine :=
  match Proc.new program o with
  | .error f => .error f
  | .ok p =>
    match p.newCore start param with
    | (_, .error f) => .error f
    | (p, .ok c) => .ok ⟨c, p⟩

/-- What was booted is a new process with a new core. -/
theorem boot_eq_ok {program : Program} {o : Options} {start : Int64} {param : UInt64} {m : Machine}
    (h : boot program o start param = .ok m) :
    ∃ p, Proc.new program o = .ok p ∧ p.newCore start param = (m.proc, .ok m.core) := by
  unfold boot at h
  split at h
  · cases h
  next p hp =>
    split at h
    · cases h
    next made =>
      cases h
      exact ⟨p, hp, made⟩

/-- A new process has the program and the options that it was asked for. -/
theorem new_eq_ok {program : Program} {o : Options} {p : Proc} (h : Proc.new program o = .ok p) :
    p.program = program ∧ p.mode = o.mode ∧ p.cancelAfter = o.cancelAfter ∧ p.canceled = false := by
  unfold Proc.new at h
  split at h
  · cases h
  · cases h
    exact ⟨rfl, rfl, rfl, rfl⟩

/-! ## Reachable states -/

/-- The states of a core that is dispatched again and again, also after failures. Between two
dispatches its process may change as `env` allows: by devices, by the clock or by other cores. -/
inductive Reachable (env : Proc → Proc → Prop) (start : Machine) : Machine → Prop
  | start : Reachable env start start
  | dispatch {m : Machine} (h : Reachable env start m) : Reachable env start m.dispatch.1
  | change {m : Machine} {proc : Proc} (h : Reachable env start m) (allowed : env m.proc proc) :
      Reachable env start (m.setProc proc)

/-- What dispatches and changes of the process keep holds wherever a core gets. -/
theorem Reachable.invariant {env : Proc → Proc → Prop} {start m : Machine} {P : Machine → Prop}
    (h : Reachable env start m) (initially : P start)
    (dispatch : ∀ m, P m → P m.dispatch.1)
    (change : ∀ m proc, P m → env m.proc proc → P (m.setProc proc)) : P m := by
  induction h with
  | start => exact initially
  | dispatch _ ih => exact dispatch _ ih
  | change _ allowed ih => exact change _ _ ih allowed

end Machine

end BlockVM
