import BlockVM.Proofs.Machine.Dispatch

/-!
# The reserved registers

Generated code addresses global data through one register and the data space of its core through
another, so no instruction may write them. `reserved_registers_hold_bases` says that they hold the
two addresses in every state that an interpreting core can reach, whatever its program does and
whether its dispatches succeed or fail.
-/

namespace BlockVM

open Isa (Inst)

/-! ## What a process keeps -/

namespace Proc

/-- The process runs the same program in the same mode on the same global data. -/
structure SameProgram (p p' : Proc) : Prop where
  program : p'.program = p.program
  mode : p'.mode = p.mode
  global : p'.global = p.global

theorem SameProgram.refl (p : Proc) : SameProgram p p := ⟨rfl, rfl, rfl⟩

theorem SameProgram.trans {p₁ p₂ p₃ : Proc} (h : SameProgram p₁ p₂) (h' : SameProgram p₂ p₃) :
    SameProgram p₁ p₃ :=
  ⟨h'.program.trans h.program, h'.mode.trans h.mode, h'.global.trans h.global⟩

theorem sameProgram_makeHeap (p : Proc) (size : UInt64) : SameProgram p (p.makeHeap size).1 := by
  unfold makeHeap
  split
  · exact .refl p
  · dsimp only
    split <;> exact ⟨rfl, rfl, rfl⟩

theorem sameProgram_destroyHeap (p : Proc) (base : UInt64) :
    SameProgram p (p.destroyHeap base) := by
  unfold destroyHeap
  split <;> exact ⟨rfl, rfl, rfl⟩

theorem sameProgram_newCore (p : Proc) (start : Int64) (param : UInt64) :
    SameProgram p (p.newCore start param).1 := by
  unfold newCore
  dsimp only
  split <;> exact ⟨rfl, rfl, rfl⟩

theorem sameProgram_spawn (p : Proc) (start : Int64) (param : UInt64) :
    SameProgram p (p.spawn start param).1 := by
  have made := sameProgram_newCore p start param
  unfold spawn
  split
  · split
    next heq =>
      rw [heq] at made
      exact ⟨made.program, made.mode, made.global⟩
    next heq =>
      rw [heq] at made
      exact made
  · exact .refl p

end Proc

namespace Machine

/-! ## What a core keeps -/

/-- The core keeps its reserved registers and its arenas, in the same program. -/
structure Kept (m m' : Machine) : Prop where
  int : ∀ r, reserved r = true → m'.core.regs.int r = m.core.regs.int r
  data : m'.core.data = m.core.data
  stack : m'.core.stack = m.core.stack
  proc : m.proc.SameProgram m'.proc

theorem Kept.refl (m : Machine) : Kept m m := ⟨fun _ _ => rfl, rfl, rfl, .refl _⟩

theorem Kept.trans {m₁ m₂ m₃ : Machine} (h : Kept m₁ m₂) (h' : Kept m₂ m₃) : Kept m₁ m₃ where
  int r hr := (h'.int r hr).trans (h.int r hr)
  data := h'.data.trans h.data
  stack := h'.stack.trans h.stack
  proc := h.proc.trans h'.proc

/-- A change of the process that keeps the program keeps the core. -/
theorem Kept.setProc {m : Machine} {p : Proc} (h : m.proc.SameProgram p) : Kept m (m.setProc p) :=
  ⟨fun _ _ => rfl, rfl, rfl, h⟩

theorem Effect.kept {m m' : Machine} (h : Effect m m') : Kept m m' := by
  induction h with
  | refl m => exact .refl m
  | trans _ _ ih ih' => exact ih.trans ih'
  | int m v free =>
    refine ⟨fun s hs => ?_, rfl, rfl, .refl _⟩
    show (m.core.regs.setInt _ v).int s = m.core.regs.int s
    rw [Registers.int_setInt, if_neg]
    rintro rfl
    rw [free] at hs
    cases hs
  | float | memory | grow | shrink | ports => exact ⟨fun _ _ => rfl, rfl, rfl, ⟨rfl, rfl, rfl⟩⟩
  | devices | clock | random => exact .setProc ⟨rfl, rfl, rfl⟩
  | makeHeap m size => exact .setProc (m.proc.sameProgram_makeHeap size)
  | destroyHeap m base => exact .setProc (m.proc.sameProgram_destroyHeap base)
  | spawn m start param => exact .setProc (m.proc.sameProgram_spawn start param)

theorem Jumped.kept {m m' : Machine} {i : Inst} {e : Option Stop} (h : Jumped m i m' e) :
    Kept m m' := by
  cases h <;> exact ⟨fun _ _ => rfl, rfl, rfl, ⟨rfl, rfl, rfl⟩⟩

theorem Dispatched.kept {m m' : Machine} {e : Option Stop} (h : Dispatched m m' e) :
    Kept m m' := by
  have counted : Kept m m.countInterpreted := ⟨fun _ _ => rfl, rfl, rfl, .refl _⟩
  cases h with
  | undecoded => exact .refl m
  | jumped _ done => exact done.kept.trans ⟨fun _ _ => rfl, rfl, rfl, ⟨rfl, rfl, rfl⟩⟩
  | stuck _ failed => exact failed.kept
  | stepped read done =>
    have effect := (effect_step (Isa.decode_eq_ok read) m.countInterpreted).kept
    rw [done] at effect
    exact (counted.trans effect).trans ⟨fun _ _ => rfl, rfl, rfl, .refl _⟩
  | failed read failed =>
    have effect := (effect_step (Isa.decode_eq_ok read) m.countInterpreted).kept
    rw [failed] at effect
    exact counted.trans effect

/-- A core that interprets keeps its reserved registers and its arenas. -/
theorem Reachable.kept {start m : Machine} (h : Reachable Proc.SameProgram start m)
    (hmode : start.proc.mode = .interpret) : Kept start m := by
  apply h.invariant
  · exact .refl start
  · intro m ih
    exact ih.trans (dispatched (ih.proc.mode.trans hmode) runBlock).kept
  · intro m proc ih allowed
    exact ih.trans (.setProc allowed)

/-! ## New cores -/

/-- In a new core the reserved registers hold the bases. -/
theorem reserved_newCore {p p' : Proc} {c : Core} {start : Int64} {param : UInt64}
    (h : p.newCore start param = (p', .ok c)) :
    c.regs.int dataReg = c.data.base ∧ c.regs.int globalReg = p'.global.base := by
  unfold Proc.newCore at h
  dsimp only at h
  split at h
  · cases h
  · cases h
    constructor
    · rw [Registers.int_setInt, if_neg (by decide), Registers.int_setInt, if_pos rfl]
    · rw [Registers.int_setInt, if_pos rfl]

/-- Whatever a core interprets, one reserved register holds the address of its data space and the
other that of the global data, and neither arena is ever exchanged. -/
theorem reserved_registers_hold_bases {p p' : Proc} {c : Core} {start : Int64} {param : UInt64}
    {m : Machine} (made : p.newCore start param = (p', .ok c)) (hmode : p.mode = .interpret)
    (h : Reachable Proc.SameProgram ⟨c, p'⟩ m) :
    m.core.regs.int dataReg = m.core.data.base ∧
      m.core.regs.int globalReg = m.proc.global.base ∧
      m.core.data = c.data ∧ m.proc.global = p.global := by
  have same := Proc.sameProgram_newCore p start param
  rw [made] at same
  have kept := h.kept (same.mode.trans hmode)
  obtain ⟨hdata, hglobal⟩ := reserved_newCore made
  refine ⟨?_, ?_, kept.data, kept.proc.global.trans same.global⟩
  · rw [kept.int dataReg rfl, kept.data]
    exact hdata
  · rw [kept.int globalReg rfl, kept.proc.global]
    exact hglobal

/-- A program whose only instruction pops into the register of the data space. -/
def popsReserved : Program where
  header := ⟨64, 64, 0, 0⟩
  code := #[0x92, 0x00, 0xff]
  global := [1, 2, 3, 4]

/-- A pop into the reserved register is refused, and the base is still there. -/
theorem reserved_registers_hold_bases_popsReserved :
    ∃ p p' c, Proc.new popsReserved { mode := .interpret } = .ok p ∧
      p.newCore 0 0 = (p', .ok c) ∧
      (let m := (⟨c, p'⟩ : Machine).dispatch.1.dispatch.1
       m.core.regs.int dataReg = m.core.data.base ∧
         m.core.regs.int globalReg = m.proc.global.base ∧
         m.core.data = c.data ∧ m.proc.global = p.global) := by
  refine ⟨_, _, _, rfl, Prod.ext rfl rfl, ?_⟩
  exact @reserved_registers_hold_bases _ _ _ 0 0 _ (Prod.ext rfl rfl) rfl
    (.dispatch (.dispatch .start))

end Machine

end BlockVM
