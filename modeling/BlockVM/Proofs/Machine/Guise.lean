import BlockVM.Machine.Dispatch
import BlockVM.Proofs.Result

/-!
# What no step looks at

The mode of a process, its events and its counters of control transfers, and the address, the cache
and the statistics of a core take no part in what an instruction does. Together they are the *guise*
of a machine. `step_wearing` says that a step commutes with a change of guise: it gives the same
result and the same failure, and it leaves the guise alone.
-/

namespace BlockVM

open Isa (Inst)

/-- What a step neither reads nor changes. -/
structure Guise where
  pc : Int64
  cache : Cache
  stats : Stats
  mode : Mode
  events : Array Event
  transfers : Nat
  cancelAfter : Nat
  canceled : Bool

namespace Proc

/-- The process in another guise. -/
def wearing (p : Proc) (g : Guise) : Proc :=
  { p with
    mode := g.mode
    events := g.events
    transfers := g.transfers
    cancelAfter := g.cancelAfter
    canceled := g.canceled }

theorem makeHeap_wearing (p : Proc) (g : Guise) (size : UInt64) :
    (p.wearing g).makeHeap size = ((p.makeHeap size).1.wearing g, (p.makeHeap size).2) := by
  unfold makeHeap wearing
  split
  · rfl
  · dsimp only
    cases p.host.map ("heap" ++ toString p.heapCount) size.toInt64 <;> rfl

theorem destroyHeap_wearing (p : Proc) (g : Guise) (base : UInt64) :
    (p.wearing g).destroyHeap base = (p.destroyHeap base).wearing g := by
  unfold destroyHeap wearing
  dsimp only
  cases p.heaps.lookup base <;> rfl

theorem newCore_wearing (p : Proc) (g : Guise) (start : Int64) (param : UInt64) :
    (p.wearing g).newCore start param
      = ((p.newCore start param).1.wearing g, (p.newCore start param).2) := by
  unfold newCore wearing
  dsimp only
  obtain ⟨host, made⟩ := p.host.mapCore ("core" ++ toString p.coreCount)
    p.program.header.stackSize.toNat (dataSize p.program.header param)
  cases made <;> rfl

theorem spawn_wearing (p : Proc) (g : Guise) (start : Int64) (param : UInt64) :
    (p.wearing g).spawn start param
      = ((p.spawn start param).1.wearing g, (p.spawn start param).2) := by
  unfold spawn
  rw [newCore_wearing]
  show (if p.started = true then _ else _) = _
  generalize p.newCore start param = made
  obtain ⟨p', c⟩ := made
  split
  · cases c <;> rfl
  · rfl

end Proc

namespace Machine

def guise (m : Machine) : Guise where
  pc := m.core.pc
  cache := m.core.cache
  stats := m.core.stats
  mode := m.proc.mode
  events := m.proc.events
  transfers := m.proc.transfers
  cancelAfter := m.proc.cancelAfter
  canceled := m.proc.canceled

/-- The machine in another guise. -/
def wearing (m : Machine) (g : Guise) : Machine where
  core := { m.core with pc := g.pc, cache := g.cache, stats := g.stats }
  proc := m.proc.wearing g

@[simp] theorem guise_wearing (m : Machine) (g : Guise) : (m.wearing g).guise = g := rfl

@[simp] theorem wearing_guise (m : Machine) : m.wearing m.guise = m := rfl

@[simp] theorem wearing_wearing (m : Machine) (g g' : Guise) :
    (m.wearing g).wearing g' = m.wearing g' := rfl

@[simp] theorem regs_wearing (m : Machine) (g : Guise) :
    (m.wearing g).core.regs = m.core.regs := rfl

@[simp] theorem stack_wearing (m : Machine) (g : Guise) :
    (m.wearing g).core.stack = m.core.stack := rfl

@[simp] theorem ports_wearing (m : Machine) (g : Guise) :
    (m.wearing g).core.ports = m.core.ports := rfl

@[simp] theorem memory_wearing (m : Machine) (g : Guise) : (m.wearing g).memory = m.memory := rfl

/-- A result of which the machine wears another guise. -/
def dress {α : Type} (g : Guise) (r : Machine × α) : Machine × α := (r.1.wearing g, r.2)

def dressOk (g : Guise) (r : Except Stop Machine) : Except Stop Machine := r.map (·.wearing g)

/-! ## Operands -/

theorem read_wearing (m : Machine) (g : Guise) (i : Inst) (o : Operand) :
    (m.wearing g).read i o = m.read i o := by
  cases o <;> rfl

theorem readF_wearing (m : Machine) (g : Guise) (i : Inst) (o : Operand) :
    (m.wearing g).readF i o = m.readF i o := by
  cases o <;> rfl

theorem bind_dressOk {α : Type} (g : Guise) (x : Except Stop α) {f f' : α → Except Stop Machine}
    (h : ∀ a, f' a = dressOk g (f a)) : (x >>= f') = dressOk g (x >>= f) := by
  cases x with
  | error e => rfl
  | ok a => exact h a

theorem write_wearing (m : Machine) (g : Guise) (i : Inst) (o : Operand) (v : UInt64) :
    (m.wearing g).write i o v = dressOk g (m.write i o v) := by
  unfold write
  cases o with
  | global off w float => exact bind_dressOk g _ fun memory => rfl
  | pointer r w float =>
    refine bind_dressOk g (m.target i r w) fun t => ?_
    exact bind_dressOk g _ fun memory => rfl
  | reg | freg | imm | fimm => rfl

theorem writeF_wearing (m : Machine) (g : Guise) (i : Inst) (o : Operand) (bits : UInt32) :
    (m.wearing g).writeF i o bits = dressOk g (m.writeF i o bits) := by
  unfold writeF
  split
  · rfl
  · split
    · exact write_wearing m g i o _
    · exact write_wearing m g i o _

theorem commit_dressOk (m : Machine) (g : Guise) (r : Except Stop Machine) :
    (m.wearing g).commit (dressOk g r) = dress g (m.commit r) := by
  cases r <;> rfl

/-! ## The stack -/

theorem push_wearing (m : Machine) (g : Guise) (i : Inst) (r : RegRange) :
    (m.wearing g).push i r = dress g (m.push i r) := by
  unfold push
  rw [stack_wearing, regs_wearing, memory_wearing]
  dsimp only
  split
  · generalize storeRange m.core.stack m.core.regs r.float r.count r.first m.core.regs.sp m.memory
      = stored
    obtain ⟨memory, e⟩ := stored
    cases e <;> rfl
  · rfl

theorem pop_wearing (m : Machine) (g : Guise) (i : Inst) (r : RegRange) :
    (m.wearing g).pop i r = dress g (m.pop i r) := by
  unfold pop
  rw [stack_wearing, regs_wearing, memory_wearing]
  dsimp only
  split
  · generalize loadRange m.core.stack m.memory r.float r.count r.first
      (m.core.regs.sp - Int64.ofNat r.bytes) m.core.regs = loaded
    obtain ⟨regs, e⟩ := loaded
    cases e <;> rfl
  · rfl

/-! ## Services -/

theorem reply_wearing (m : Machine) (g : Guise) (p : UInt32) (w : Int64) (v : UInt64) :
    (m.wearing g).reply p w v = dress g (m.reply p w v) := by
  unfold reply
  rw [ports_wearing]
  cases m.core.ports.store p w v <;> rfl

theorem serve_wearing (m : Machine) (g : Guise) (h : CorePort) (v : UInt64) :
    (m.wearing g).serve h v = dress g (m.serve h v) := by
  unfold serve
  -- A guise is the part of the machine that no request reads or changes.
  cases h with
  | framebufferIn | framebufferOut | gpuCommand => rfl
  | keyboard =>
    exact reply_wearing (m.setProc { m.proc with devices := (m.proc.devices.poll v).1 }) g
      Port.keyboard 1 (truth (m.proc.devices.poll v).2)
  | destroyHeap =>
    show ((m.wearing g).setProc ((m.proc.wearing g).destroyHeap v), none) = _
    rw [Proc.destroyHeap_wearing]
    rfl
  | makeHeap =>
    dsimp only
    rw [show (m.wearing g).proc.makeHeap v = _ from m.proc.makeHeap_wearing g v]
    exact reply_wearing (m.setProc (m.proc.makeHeap v).1) g _ _ _
  | threadCreate =>
    dsimp only
    rw [ports_wearing]
    cases m.core.ports.read Port.threadParameter 8 with
    | error f => rfl
    | ok param =>
      dsimp only
      rw [show (m.wearing g).proc.spawn _ param = _ from m.proc.spawn_wearing g _ param]
      exact reply_wearing (m.setProc (m.proc.spawn _ param).1) g _ _ _

theorem output_wearing (m : Machine) (g : Guise) (p : UInt32) (w : Nat) (v : UInt64) :
    (m.wearing g).output p w v = dress g (m.output p w v) := by
  unfold output
  rw [ports_wearing]
  cases m.core.ports.write p (Int64.ofNat w) v with
  | error f => rfl
  | ok written =>
    cases written with
    | stored ports => rfl
    | passed h value =>
      dsimp only
      rw [serve_wearing]
      rfl

theorem draw_wearing (m : Machine) (g : Guise) (i : Inst) (x y image : Operand) :
    (m.wearing g).draw i x y image = dress g (m.draw i x y image) := by
  have hcall : (m.wearing g).drawCall i x y image = m.drawCall i x y image := by
    cases image <;> rfl
  unfold draw
  rw [hcall]
  cases m.drawCall i x y image <;> rfl

theorem port_wearing (m : Machine) (g : Guise) (i : Inst) (o : Operand) :
    (m.wearing g).port i o = m.port i o := by
  unfold port
  rw [read_wearing]

theorem service_sleep (m : Machine) (i : Inst) :
    m.service i .sleep
      = (m.setProc { m.proc with clock := m.proc.clock.sleep Clock.millisecond }, none) := rfl

/-- Stated for any clock, so that nothing computes with the one that a sleep gives. -/
theorem setClock_wearing (m : Machine) (g : Guise) (c : Clock) :
    (((m.wearing g).setProc { (m.wearing g).proc with clock := c }, none) : Machine × Option Stop)
      = dress g (m.setProc { m.proc with clock := c }, none) := rfl

theorem service_wearing (m : Machine) (g : Guise) (i : Inst) (s : Service) :
    (m.wearing g).service i s = dress g (m.service i s) := by
  cases s with
  | output port value width =>
    unfold service outputArgs
    dsimp only
    rw [port_wearing, read_wearing]
    cases (do let p ← m.port i port; let v ← m.read i value; return (p, v)) with
    | error e => rfl
    | ok args =>
      dsimp only
      rw [output_wearing]
      rfl
  | input dst port width =>
    unfold service
    dsimp only
    rw [port_wearing]
    refine Eq.trans (congrArg _ ?_) (commit_dressOk m g _)
    refine bind_dressOk g _ fun p => ?_
    exact bind_dressOk g _ fun v => write_wearing m g i dst v
  | foutput port value =>
    unfold service
    dsimp only
    rw [port_wearing, readF_wearing]
    refine Eq.trans (congrArg _ ?_) (commit_dressOk m g _)
    refine bind_dressOk g _ fun p => ?_
    refine bind_dressOk g _ fun bits => ?_
    exact bind_dressOk g _ fun ports => rfl
  | finput dst port =>
    unfold service
    dsimp only
    rw [port_wearing]
    refine Eq.trans (congrArg _ ?_) (commit_dressOk m g _)
    refine bind_dressOk g _ fun p => ?_
    exact bind_dressOk g _ fun bits => writeF_wearing m g i dst bits
  | draw x y image => exact draw_wearing m g i x y image
  | time => rfl
  | sleep =>
    rw [service_sleep, service_sleep]
    exact setClock_wearing m g _
  | rand =>
    unfold service
    -- The draw stays abstract: unfolding it would compute with its bits.
    rw [show (m.wearing g).proc.random = m.proc.random from rfl]
    generalize m.proc.random.next31 = drawn
    obtain ⟨v, random⟩ := drawn
    rfl

/-! ## Instructions -/

theorem perform_wearing (m : Machine) (g : Guise) (i : Inst) (a : Action) :
    (m.wearing g).perform i a = dress g (m.perform i a) := by
  unfold perform
  cases a with
  | move dst src =>
    dsimp only
    rw [read_wearing]
    refine Eq.trans (congrArg _ ?_) (commit_dressOk m g _)
    exact bind_dressOk g _ fun v => write_wearing m g i dst v
  | arith op dst src =>
    dsimp only
    rw [read_wearing, read_wearing]
    refine Eq.trans (congrArg _ ?_) (commit_dressOk m g _)
    refine bind_dressOk g _ fun a => ?_
    refine bind_dressOk g _ fun b => ?_
    exact bind_dressOk g _ fun v => write_wearing m g i dst v
  | compare rel dst src =>
    dsimp only
    rw [read_wearing, read_wearing]
    refine Eq.trans (congrArg _ ?_) (commit_dressOk m g _)
    refine bind_dressOk g _ fun a => ?_
    exact bind_dressOk g _ fun b => write_wearing m g i dst _
  | fcompare rel dst a b =>
    exact (congrArg _ (write_wearing m g i dst _)).trans (commit_dressOk m g _)
  | fmove dst src =>
    dsimp only
    rw [readF_wearing]
    refine Eq.trans (congrArg _ ?_) (commit_dressOk m g _)
    exact bind_dressOk g _ fun v => writeF_wearing m g i dst v
  | farith op dst src =>
    dsimp only
    rw [readF_wearing, readF_wearing]
    refine Eq.trans (congrArg _ ?_) (commit_dressOk m g _)
    refine bind_dressOk g _ fun a => ?_
    exact bind_dressOk g _ fun b => writeF_wearing m g i dst _
  | push r | pushRange r => exact push_wearing m g i r
  | pop r | popRange r => exact pop_wearing m g i r
  | nop => rfl
  | service s => exact service_wearing m g i s

/-- A step neither reads nor changes the guise. -/
theorem step_wearing (m : Machine) (g : Guise) (i : Inst) :
    (m.wearing g).step i = dress g (m.step i) := by
  unfold step
  rw [show (m.wearing g).proc.global = m.proc.global from rfl]
  cases Action.ofInst i (Int64.ofNat m.proc.global.size) with
  | error e => rfl
  | ok a => exact perform_wearing m g i a

theorem guise_step (m : Machine) (i : Inst) : (m.step i).1.guise = m.guise := by
  have h := step_wearing m m.guise i
  rw [wearing_guise] at h
  rw [h]
  rfl

/-! ## Control transfers -/

/-- The result of a control transfer, in a guise that keeps its address. -/
def dressJump (g : Guise) : Machine × Option Stop → Machine × Option Stop
  | (m, none) => (m.wearing { g with pc := m.core.pc }, none)
  | (m, some e) => (m.wearing g, some e)

/-- A control transfer reads no guise either; it moves the address and nothing else of it. -/
theorem jump_wearing (m : Machine) (g : Guise) (i : Inst) :
    (m.wearing g).jump i = dressJump g (m.jump i) := by
  unfold jump
  cases i.family with
  | jc =>
    show ((m.wearing g).setPc (if m.isTaken i then _ else _), none) = _
    rfl
  | jcr =>
    show ((m.wearing g).setPc (if m.isTaken i then _ else _), none) = _
    rfl
  | call =>
    unfold call
    rw [stack_wearing, regs_wearing, memory_wearing]
    dsimp only
    cases m.core.stack.write m.memory m.core.regs.sp returnSize i.next.toUInt64 <;> rfl
  | ret =>
    unfold ret
    dsimp only
    rw [regs_wearing,
      show ((m.wearing g).setSp _).core.stack = m.core.stack from rfl,
      show ((m.wearing g).setSp _).memory = m.memory from rfl,
      show (m.setSp (m.core.regs.sp - returnSize)).core.stack = m.core.stack from rfl,
      show (m.setSp (m.core.regs.sp - returnSize)).memory = m.memory from rfl]
    split
    · rfl
    · cases m.core.stack.read m.memory (m.core.regs.sp - returnSize) returnSize <;> rfl
  | _ => rfl

end Machine

end BlockVM
