import BlockVM.Machine.Control
import BlockVM.Proofs.Block.Prepared
import BlockVM.Proofs.Machine.Registers

/-!
# What a step can do

`Effect` lists the changes that an instruction can make, and `effect_step` says that every step of a
decoded instruction, also one that fails, is a chain of them. What no step may do is absent from the
list: no reserved register is written, the stack pointer moves only by a range that was checked, and
arenas come and go only by way of heaps and cores. Invariants of runs are therefore inductions over
`Effect` and never look at the instructions.
-/

namespace BlockVM

open Isa (Inst Decoded)

namespace Machine

/-- A chain of changes. -/
inductive Effect : Machine → Machine → Prop
  | refl (m : Machine) : Effect m m
  | trans {m₁ m₂ m₃ : Machine} : Effect m₁ m₂ → Effect m₂ m₃ → Effect m₁ m₃
  | int (m : Machine) {r : UInt8} (v : UInt64) (free : reserved r = false) :
      Effect m (m.setRegs (m.core.regs.setInt r v))
  | float (m : Machine) (r : UInt8) (v : UInt32) :
      Effect m (m.setRegs (m.core.regs.setFloat r v))
  | memory (m : Machine) (memory : Memory) : Effect m (m.setMemory memory)
  | grow (m : Machine) {n : Nat} (short : n ≤ 2048) (slots : 4 ∣ n)
      (room : m.core.stack.inBounds m.core.regs.sp (Int64.ofNat n) = true) :
      Effect m (m.setSp (m.core.regs.sp + Int64.ofNat n))
  | shrink (m : Machine) {n : Nat} (short : n ≤ 2048) (slots : 4 ∣ n)
      (held : m.core.stack.inBounds (m.core.regs.sp - Int64.ofNat n) (Int64.ofNat n) = true) :
      Effect m (m.setSp (m.core.regs.sp - Int64.ofNat n))
  | ports (m : Machine) (bytes : Vector UInt8 256) :
      Effect m (m.setPorts { m.core.ports with bytes := bytes })
  | devices (m : Machine) (d : Devices) : Effect m (m.setProc { m.proc with devices := d })
  | clock (m : Machine) (c : Clock) : Effect m (m.setProc { m.proc with clock := c })
  | random (m : Machine) (r : Pcg) : Effect m (m.setProc { m.proc with random := r })
  | makeHeap (m : Machine) (size : UInt64) : Effect m (m.setProc (m.proc.makeHeap size).1)
  | destroyHeap (m : Machine) (base : UInt64) : Effect m (m.setProc (m.proc.destroyHeap base))
  | spawn (m : Machine) (start : Int64) (param : UInt64) :
      Effect m (m.setProc (m.proc.spawn start param).1)

/-! ## Single effects -/

/-- A committed step has the effect of what it commits, or none. -/
theorem effect_commit {m : Machine} {r : Except Stop Machine}
    (h : ∀ m', r = .ok m' → Effect m m') : Effect m (m.commit r).1 := by
  cases r with
  | error e => exact .refl m
  | ok m' => exact h m' rfl

/-- A write to anything but a reserved register has an effect within bounds. -/
theorem effect_write {m m' : Machine} {i : Inst} {o : Operand} {v : UInt64}
    (free : ∀ r, o = .reg r → reserved r = false) (h : m.write i o v = .ok m') : Effect m m' := by
  unfold write at h
  split at h
  next r =>
    cases h
    exact .int m v (free r rfl)
  · obtain ⟨memory, -, h⟩ := bind_eq_ok.mp h
    cases h
    exact .memory m memory
  · obtain ⟨⟨a, off⟩, -, h⟩ := bind_eq_ok.mp h
    obtain ⟨memory, -, h⟩ := bind_eq_ok.mp h
    cases h
    exact .memory m memory
  all_goals cases h

theorem effect_writeF {m m' : Machine} {i : Inst} {o : Operand} {bits : UInt32}
    (free : ∀ r, o = .reg r → reserved r = false) (h : m.writeF i o bits = .ok m') :
    Effect m m' := by
  unfold writeF at h
  split at h
  next r =>
    cases h
    exact .float m r bits
  · split at h
    · exact effect_write free h
    · exact effect_write free h

/-! ## The stack -/

/-- Loading registers does not move the stack pointer. -/
theorem sp_loadRange (stack : Arena) (memory : Memory) (float : Bool) (n : Nat) (r : UInt8)
    (off : Int64) (regs : Registers) :
    (loadRange stack memory float n r off regs).1.sp = regs.sp := by
  induction n generalizing r off regs with
  | zero => rfl
  | succ n ih =>
    unfold loadRange
    split
    · rfl
    · rw [ih]
      cases float <;> rfl

theorem effect_setBits {m : Machine} {float : Bool} {r : UInt8} (v : UInt64)
    (free : float = false → reserved r = false) :
    Effect m (m.setRegs (m.core.regs.setBits float r v)) := by
  cases float with
  | false => exact .int m v (free rfl)
  | true => exact .float m r v.toUInt32

theorem reserved_of_lt {r : UInt8} (h : r.toNat < 254) : reserved r = false := by
  simp only [reserved, dataReg, globalReg, Bool.or_eq_false_iff, beq_eq_false_iff_ne, ne_eq,
    ← UInt8.toNat_inj]
  have h₁ : (255 : UInt8).toNat = 255 := rfl
  have h₂ : (254 : UInt8).toNat = 254 := rfl
  omega

/-- Loading a range that ends below the reserved registers. -/
theorem effect_loadRange (m : Machine) (stack : Arena) (memory : Memory) (float : Bool) (n : Nat)
    (r : UInt8) (off : Int64) (kept : float = false → r.toNat + n ≤ 254) :
    Effect m (m.setRegs (loadRange stack memory float n r off m.core.regs).1) := by
  induction n generalizing r off m with
  | zero => exact .refl m
  | succ n ih =>
    unfold loadRange
    split
    · exact .refl m
    next v _ =>
      have first : Effect m (m.setRegs (m.core.regs.setBits float r v)) :=
        effect_setBits v fun hf => reserved_of_lt (by have := kept hf; omega)
      refine first.trans (ih (m.setRegs (m.core.regs.setBits float r v)) (r + 1) _ ?_)
      intro hf
      have hlt := kept hf
      have hnext : (r + 1).toNat = r.toNat + 1 := by
        rw [UInt8.toNat_add]
        show (r.toNat + 1) % 256 = r.toNat + 1
        omega
      omega

/-- A range is at most 256 slots of 8 bytes. -/
theorem bytes_range {r : RegRange} (h : r.first.toNat + r.count ≤ 256) :
    r.bytes ≤ 2048 ∧ 4 ∣ r.bytes := by
  unfold RegRange.bytes RegRange.slotSize
  split <;> constructor <;> omega

theorem isWidth_slotSize (float : Bool) : Arena.isWidth (slotSize float) = true := by
  cases float <;> rfl

/-- A push keeps the program counter and the reserved registers. -/
theorem effect_push {m : Machine} {i : Inst} {r : RegRange}
    (hr : r.first.toNat + r.count ≤ 256) : Effect m (m.push i r).1 := by
  unfold push
  dsimp only
  split
  next room =>
    split
    next memory e _ => exact .memory m memory
    next memory _ =>
      exact (Effect.memory m memory).trans
        (.grow (m.setMemory memory) (bytes_range hr).1 (bytes_range hr).2 room)
  · exact .refl m

theorem effect_pop {m : Machine} {i : Inst} {r : RegRange} (hr : r.first.toNat + r.count ≤ 256)
    (kept : r.float = false → r.first.toNat + r.count ≤ 254) : Effect m (m.pop i r).1 := by
  unfold pop
  dsimp only
  split
  next held =>
    have loaded := effect_loadRange m m.core.stack m.memory r.float r.count r.first
      (m.core.regs.sp - Int64.ofNat r.bytes) kept
    have hsp := sp_loadRange m.core.stack m.memory r.float r.count r.first
      (m.core.regs.sp - Int64.ofNat r.bytes) m.core.regs
    split
    next regs e heq =>
      rw [heq] at loaded
      exact loaded
    next regs heq =>
      rw [heq] at loaded hsp
      dsimp only at loaded hsp
      -- The stack pointer moves back by what the check has found on the stack.
      have hshrink := Effect.shrink (m.setRegs regs) (bytes_range hr).1 (bytes_range hr).2
        (by
          show m.core.stack.inBounds (regs.sp - Int64.ofNat r.bytes) (Int64.ofNat r.bytes) = true
          rw [hsp]
          exact held)
      have hres : (m.setRegs regs).setSp (regs.sp - Int64.ofNat r.bytes)
          = m.setRegs { regs with sp := m.core.regs.sp - Int64.ofNat r.bytes } := by
        rw [hsp]
        rfl
      rw [← hres]
      exact loaded.trans hshrink
  · exact .refl m

/-! ## Services -/

theorem store_eq_ok {b b' : Bank CorePort} {p : UInt32} {w : Int64} {v : UInt64}
    (h : b.store p w v = .ok b') : ∃ bytes, b' = { b with bytes := bytes } := by
  unfold Bank.store at h
  obtain ⟨⟨⟩, -, h⟩ := bind_eq_ok.mp h
  cases h
  exact ⟨_, rfl⟩

theorem effect_reply (m : Machine) (p : UInt32) (w : Int64) (v : UInt64) :
    Effect m (m.reply p w v).1 := by
  unfold reply
  split
  · exact .refl m
  next ports hstore =>
    obtain ⟨bytes, rfl⟩ := store_eq_ok hstore
    exact .ports m bytes

theorem effect_request (m : Machine) (r : GpuRequest) : Effect m (m.request r).1 :=
  .devices m _

/-- A handler of a device has an effect within bounds. -/
theorem effect_serve (m : Machine) (h : CorePort) (v : UInt64) : Effect m (m.serve h v).1 := by
  unfold serve
  split
  · exact effect_request m _
  · exact effect_request m _
  · exact effect_request m _
  · exact (Effect.devices m _).trans (effect_reply _ _ _ _)
  · exact (Effect.makeHeap m v).trans (effect_reply _ _ _ _)
  · exact .destroyHeap m v
  · split
    · exact .refl m
    · exact (Effect.spawn m _ _).trans (effect_reply _ _ _ _)

theorem effect_output (m : Machine) (p : UInt32) (w : Nat) (v : UInt64) :
    Effect m (m.output p w v).1 := by
  unfold output
  split
  · exact .refl m
  next ports hw =>
    unfold Bank.write at hw
    obtain ⟨⟨⟩, -, hw⟩ := bind_eq_ok.mp hw
    split at hw
    · cases hw
    all_goals
      obtain ⟨b, hstore, hw⟩ := bind_eq_ok.mp hw
      cases hw
      obtain ⟨bytes, rfl⟩ := store_eq_ok hstore
      exact .ports m bytes
  next h value _ => exact effect_serve m h value

theorem effect_draw (m : Machine) (i : Inst) (x y image : Operand) :
    Effect m (m.draw i x y image).1 := by
  unfold draw
  split
  · exact .refl m
  · exact effect_request m _

/-- A service has an effect within bounds if its destination is free. -/
theorem effect_service {m : Machine} {i : Inst} {s : Service}
    (free : ∀ r, (Action.service s).destination = some (.reg r) → reserved r = false) :
    Effect m (m.service i s).1 := by
  cases s with
  | output port value width =>
    unfold service
    dsimp only
    split
    · exact .refl m
    · exact effect_output m _ _ _
  | input dst port width =>
    apply effect_commit
    intro m' h
    obtain ⟨p, -, h⟩ := bind_eq_ok.mp h
    obtain ⟨v, -, h⟩ := bind_eq_ok.mp h
    exact effect_write (fun r hr => free r (congrArg some hr)) h
  | foutput port value =>
    apply effect_commit
    intro m' h
    obtain ⟨p, -, h⟩ := bind_eq_ok.mp h
    obtain ⟨bits, -, h⟩ := bind_eq_ok.mp h
    obtain ⟨ports, hstore, h⟩ := bind_eq_ok.mp h
    cases h
    obtain ⟨bytes, rfl⟩ := store_eq_ok (mapError_eq_ok.mp hstore)
    exact .ports m bytes
  | finput dst port =>
    apply effect_commit
    intro m' h
    obtain ⟨p, -, h⟩ := bind_eq_ok.mp h
    obtain ⟨bits, -, h⟩ := bind_eq_ok.mp h
    exact effect_writeF (fun r hr => free r (congrArg some hr)) h
  | draw x y image => exact effect_draw m i x y image
  | time =>
    simp only [service]
    exact (Effect.clock m _).trans (.int _ _ (reserved_of_lt (by decide)))
  | sleep => exact .clock m _
  | rand =>
    unfold service
    -- The draw stays abstract: its value does not matter here.
    generalize m.proc.random.next31 = drawn
    obtain ⟨v, random⟩ := drawn
    exact (Effect.random m random).trans (.int _ v (reserved_of_lt (by decide)))

/-! ## Instructions -/

theorem effect_perform {m : Machine} {i : Inst} {a : Action} (h : a.Lawful) :
    Effect m (m.perform i a).1 := by
  cases a with
  | move dst src =>
    apply effect_commit
    intro m' hm
    obtain ⟨v, -, hm⟩ := bind_eq_ok.mp hm
    exact effect_write (fun r hr => h.free r (congrArg some hr)) hm
  | arith op dst src =>
    apply effect_commit
    intro m' hm
    obtain ⟨a, -, hm⟩ := bind_eq_ok.mp hm
    obtain ⟨b, -, hm⟩ := bind_eq_ok.mp hm
    obtain ⟨v, -, hm⟩ := bind_eq_ok.mp hm
    exact effect_write (fun r hr => h.free r (congrArg some hr)) hm
  | compare rel dst src =>
    apply effect_commit
    intro m' hm
    obtain ⟨a, -, hm⟩ := bind_eq_ok.mp hm
    obtain ⟨b, -, hm⟩ := bind_eq_ok.mp hm
    exact effect_write (fun r hr => h.free r (congrArg some hr)) hm
  | fcompare rel dst a b =>
    apply effect_commit
    intro m' hm
    exact effect_write (fun r hr => h.free r (congrArg some hr)) hm
  | fmove dst src =>
    apply effect_commit
    intro m' hm
    obtain ⟨v, -, hm⟩ := bind_eq_ok.mp hm
    exact effect_writeF (fun r hr => h.free r (congrArg some hr)) hm
  | farith op dst src =>
    apply effect_commit
    intro m' hm
    obtain ⟨a, -, hm⟩ := bind_eq_ok.mp hm
    obtain ⟨b, -, hm⟩ := bind_eq_ok.mp hm
    exact effect_writeF (fun r hr => h.free r (congrArg some hr)) hm
  | push r => exact effect_push (h.pushed r rfl).2
  | pop r => exact effect_pop (h.popped r rfl).2 (h.kept r rfl)
  | pushRange r => exact effect_push (h.pushed r rfl).2
  | popRange r => exact effect_pop (h.popped r rfl).2 (h.kept r rfl)
  | nop => exact .refl m
  -- A service answers in a register too, and lawful actions never name a reserved one.
  | service s => exact effect_service fun r hr => h.free r hr

/-- Every step of a decoded instruction is a chain of effects, whether it succeeds or fails. -/
theorem effect_step {code : Array UInt8} {pc : Int64} {i : Inst} (hi : Decoded code pc i)
    (m : Machine) : Effect m (m.step i).1 := by
  unfold step
  split
  · exact .refl m
  next a ha => exact effect_perform (Action.lawful_of_ofInst hi ha)

end Machine

end BlockVM
