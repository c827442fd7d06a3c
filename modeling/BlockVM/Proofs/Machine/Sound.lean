import BlockVM.Proofs.Machine.StackPointer

/-!
# Sound machines

The checks of the evaluator are exact only in states that a core can reach: every arena is mapped
and open, the stack pointer lies on a slot of the stack and the address of the core is far from the
end of the signed numbers. `Sound` says this of a machine and `Dispatched.sound` that a dispatch
keeps it.
-/

namespace BlockVM

open Isa (Inst)

/-! ## Processes -/

namespace Proc

/-- Every arena of the process is mapped. -/
structure Sound (p : Proc) : Prop where
  space : ∀ a ∈ p.space.arenas, a.Mapped
  global : p.global.Mapped

theorem mem_add {s : Space} {a x : Arena} (h : x ∈ (s.add a).1.arenas) : x ∈ s.arenas ∨ x = a := by
  unfold Space.add at h
  dsimp only at h
  split at h
  · simpa using h
  · rw [List.mem_mergeSort] at h
    simpa using h

theorem Sound.register {p : Proc} {a : Arena} (h : p.Sound) (ha : a.Mapped) :
    (p.register a).Sound := by
  refine ⟨?_, h.global⟩
  intro x hx
  rcases mem_add hx with hx | rfl
  · exact h.space x hx
  · exact ha

theorem Sound.makeHeap {p : Proc} (h : p.Sound) (size : UInt64) : (p.makeHeap size).1.Sound := by
  unfold Proc.makeHeap
  split
  · exact h
  · dsimp only
    split
    · exact ⟨h.space, h.global⟩
    next a host hm => exact Sound.register ⟨h.space, h.global⟩ (Host.map_eq_ok hm).mapped

theorem Sound.destroyHeap {p : Proc} (h : p.Sound) (base : UInt64) :
    (p.destroyHeap base).Sound := by
  unfold Proc.destroyHeap
  split
  · exact h
  · refine ⟨?_, h.global⟩
    intro x hx
    exact h.space x (List.mem_of_mem_eraseP hx)

/-- A new core leaves the process sound, and its own stack is mapped. -/
theorem Sound.newCore {p : Proc} (h : p.Sound) (start : Int64) (param : UInt64) :
    (p.newCore start param).1.Sound ∧
      ∀ c, (p.newCore start param).2 = .ok c →
        c.stack.Mapped ∧ c.stack.size < 2 ^ 32 ∧ c.regs.sp = 0 ∧ c.pc = start := by
  rcases p.newCore_cases start param with ⟨host, what, f, -, made⟩ | ⟨host, a, memory, hmap, made⟩
  · rw [made]
    refine ⟨⟨h.space, h.global⟩, ?_⟩
    intro c hc
    cases hc
  · obtain ⟨_, _, -, hstack, hdata⟩ := Host.mapCore_eq_ok hmap
    rw [made]
    constructor
    · exact Sound.register (Sound.register ⟨h.space, h.global⟩ hstack.mapped) hdata.mapped
    · intro c hc
      cases hc
      exact ⟨hstack.mapped, p.stackSize_lt hstack, rfl, rfl⟩

theorem Sound.spawn {p : Proc} (h : p.Sound) (start : Int64) (param : UInt64) :
    (p.spawn start param).1.Sound := by
  have made := (h.newCore start param).1
  unfold Proc.spawn
  split
  · split
    next heq =>
      rw [heq] at made
      exact ⟨made.space, made.global⟩
    next heq =>
      rw [heq] at made
      exact made
  · exact h

theorem sound_new {program : Program} {o : Options} {p : Proc} (h : Proc.new program o = .ok p) :
    p.Sound ∧ p.program = program ∧ p.mode = o.mode := by
  unfold Proc.new at h
  split at h
  · cases h
  next global host hm =>
    cases h
    unfold Host.mapBytes at hm
    obtain ⟨⟨a, host'⟩, hmap, hm⟩ := bind_eq_ok.mp hm
    cases hm
    have ha := (Host.map_eq_ok hmap).mapped
    refine ⟨⟨?_, ha⟩, rfl, rfl⟩
    intro x hx
    rcases mem_add hx with hx | rfl
    · cases hx
    · exact ha

/-- A process in which cores may have been made, but that was not started. -/
inductive Unstarted (program : Program) (o : Options) : Proc → Prop
  | new {p : Proc} (h : Proc.new program o = .ok p) : Unstarted program o p
  | core {p : Proc} (h : Unstarted program o p) (start : Int64) (param : UInt64) :
      Unstarted program o (p.newCore start param).1

theorem Unstarted.sound {program : Program} {o : Options} {p : Proc} (h : Unstarted program o p) :
    p.Sound ∧ p.program = program ∧ p.mode = o.mode := by
  induction h with
  | new h => exact sound_new h
  | @core p _ start param ih =>
    obtain ⟨hs, hprogram, hmode⟩ := ih
    have same := p.sameProgram_newCore start param
    exact ⟨(hs.newCore start param).1, same.program.trans hprogram, same.mode.trans hmode⟩

/-- Between two dispatches the devices and the clock may become whatever they like. -/
def DeviceChange (p p' : Proc) : Prop :=
  ∃ devices clock, p' = { p with devices := devices, clock := clock }

end Proc

namespace Machine

theorem Effect.sound_proc {m m' : Machine} (h : Effect m m') (hp : m.proc.Sound) :
    m'.proc.Sound := by
  induction h with
  | trans _ _ ih ih' => exact ih' (ih hp)
  | makeHeap m size => exact hp.makeHeap size
  | destroyHeap m base => exact hp.destroyHeap base
  | spawn m start param => exact hp.spawn start param
  | _ => exact ⟨hp.space, hp.global⟩

/-! ## The address of the core -/

/-- Addresses stay far from the end of the signed numbers. -/
def addressBound : Int := 2 ^ 62 + 2 ^ 33

/-- The address behind an instruction is within bounds, because the code is not that long. -/
theorem next_lt {code : Array UInt8} {pc : Int64} {i : Inst} (hi : Isa.Decoded code pc i)
    (hcode : code.size < 2 ^ 62) : i.next.toInt < addressBound := by
  have hlen := Isa.length_le_of_mem_table hi.known
  have hpc := toInt_nonneg_iff.mp hi.nonneg
  have hin : pc.toInt.toNat + 2 ≤ code.size := hi.inside
  have hl : (Int64.ofNat i.info.length).toInt = i.info.length := Int64.toInt_ofNat_of_lt (by omega)
  have hnext : i.next.toInt = pc.toInt + i.info.length := by
    unfold Isa.Inst.next
    rw [hi.pc_eq, toInt_add_of_bounds (by omega) (by omega), hl]
  unfold addressBound
  omega

/-- A target that the instruction names itself is a word of 32 bits. -/
theorem absolute_lt (i : Inst) (slot : Nat) : (absolute i slot).toInt < addressBound := by
  have hlt := (i.arg slot).low.toNat_lt
  unfold absolute addressBound
  rw [Int64.toInt_ofNat_of_lt (by omega)]
  omega

/-- The operand of a relative jump is a displacement. -/
theorem disp_of_family {code : Array UInt8} {pc : Int64} {i : Inst} {slot : Nat}
    (hi : Isa.Decoded code pc i)
    (hf : i.family = .jmpr ∧ slot = 0 ∨ i.family = .jcr ∧ slot = 1) :
    -2 ^ 31 ≤ (i.arg slot).signed.toInt ∧ (i.arg slot).signed.toInt < 2 ^ 31 := by
  have hshape := Isa.shaped_of_mem_table hi.known
  have hkinds := hi.kinds_eq
  have hdisp : i.info.kinds[slot]? = some .disp := by
    rcases hf with ⟨hf, rfl⟩ | ⟨hf, rfl⟩
    · rw [show i.info.family = .jmpr from hf] at hshape
      simp only [Isa.Shaped, beq_iff_eq] at hshape
      rw [hshape]
      rfl
    · rw [show i.info.family = .jcr from hf] at hshape
      simp only [Isa.Shaped, beq_iff_eq] at hshape
      rw [hshape]
      rfl
  rw [← hkinds, List.getElem?_map] at hdisp
  obtain ⟨a, ha, hk⟩ := Option.map_eq_some_iff.mp hdisp
  have harg : i.arg slot = a := by
    simp only [Isa.Inst.arg, List.getD_eq_getElem?_getD, ha, Option.getD_some]
  rw [harg]
  exact hi.disp a (List.mem_of_getElem? ha) hk

theorem relative_lt {code : Array UInt8} {pc : Int64} {i : Inst} {slot : Nat}
    (hi : Isa.Decoded code pc i) (hcode : code.size < 2 ^ 62)
    (hf : i.family = .jmpr ∧ slot = 0 ∨ i.family = .jcr ∧ slot = 1) :
    (relative i slot).toInt < addressBound := by
  have hlen : i.length ≤ 16 := Isa.length_le_of_mem_table hi.known
  have hpc := toInt_nonneg_iff.mp hi.nonneg
  have hin : pc.toInt.toNat + 2 ≤ code.size := hi.inside
  obtain ⟨hlo, hhi⟩ := disp_of_family hi hf
  have hl : (Int64.ofNat i.length).toInt = i.length := Int64.toInt_ofNat_of_lt (by omega)
  have hsum : (i.pc + (i.arg slot).signed).toInt = pc.toInt + (i.arg slot).signed.toInt := by
    rw [hi.pc_eq, toInt_add_of_bounds (by omega) (by omega)]
  unfold relative addressBound
  rw [toInt_add_of_bounds (by omega) (by omega)]
  omega

theorem word_lt (memory : Memory) (a : UInt64) {n : Nat} (h : n ≤ 4) :
    (memory.word a n).toNat < 2 ^ 32 := by
  have hval := LittleEndian.value_lt (memory.loadBytes a n)
  rw [Memory.length_loadBytes] at hval
  have hpow : 256 ^ n ≤ 256 ^ 4 := Nat.pow_le_pow_right (by omega) h
  unfold Memory.word LittleEndian.toUInt64
  rw [UInt64.toNat_ofNat_of_lt' (by show _ < 2 ^ 64; omega)]
  omega

/-! ## Sound machines -/

/-- What holds of every machine that a core can reach. -/
structure Sound (m : Machine) : Prop where
  proc : m.proc.Sound
  code : m.proc.program.code.size < 2 ^ 62
  stack : m.core.stack.Mapped
  small : m.core.stack.size < 2 ^ 32
  pc : m.core.pc.toInt < addressBound
  sp : m.OnSlotOrHalted

/-- Wherever a transfer goes, the program counter stays within bounds. -/
theorem Jumped.sound {m m' : Machine} {i : Inst} {e : Option Stop} (h : Jumped m i m' e)
    (hm : m.Sound) (read : Isa.decode m.proc.program.code m.core.pc = .ok i) : m'.Sound := by
  have hi := Isa.decode_eq_ok read
  have sp := h.onSlotOrHalted hm.small (hm.sp.onSlot read)
  obtain ⟨proc, code, stack, small, pc, -⟩ := hm
  cases h with
  | next => exact ⟨proc, code, stack, small, next_lt hi code, sp⟩
  | absolute slot => exact ⟨proc, code, stack, small, absolute_lt i slot, sp⟩
  | relative slot family => exact ⟨proc, code, stack, small, relative_lt hi code family, sp⟩
  | called => exact ⟨⟨proc.1, proc.2⟩, code, stack, small, absolute_lt i 0, sp⟩
  | overflowed => exact ⟨proc, code, stack, small, pc, sp⟩
  | halted =>
    have hpc : haltPc.toInt < addressBound := by decide
    exact ⟨proc, code, stack, small, hpc, sp⟩
  -- The address comes from the stack: it has four bytes, so it is below the bound.
  | @returned v held loaded =>
    obtain ⟨-, hv⟩ := Arena.read_eq_ok stack.size_lt loaded
    have hlt := word_lt m.memory (m.core.stack.base + (m.core.regs.sp - returnSize).toUInt64)
      (n := returnSize.toNatClampNeg) (by decide)
    rw [← hv] at hlt
    have hpc : v.toInt64.toInt < addressBound := by
      unfold addressBound
      rw [toInt_toInt64_of_lt (by omega)]
      omega
    exact ⟨proc, code, stack, small, hpc, sp⟩
  | underflowed => exact ⟨proc, code, stack, small, pc, sp⟩

theorem Effect.pc_eq {m m' : Machine} (h : Effect m m') : m'.core.pc = m.core.pc := by
  induction h with
  | trans _ _ ih ih' => exact ih'.trans ih
  | _ => rfl

/-- A step leaves the machine sound, whether it succeeds or fails. -/
theorem sound_step {m : Machine} {i : Inst} (hm : m.Sound)
    (read : Isa.decode m.proc.program.code m.core.pc = .ok i) : (m.step i).1.Sound := by
  have effect := effect_step (Isa.decode_eq_ok read) m
  have kept := effect.kept
  refine ⟨effect.sound_proc hm.proc, ?_, ?_, ?_, ?_, .inl ?_⟩
  · rw [kept.proc.program]
    exact hm.code
  · rw [kept.stack]
    exact hm.stack
  · rw [kept.stack]
    exact hm.small
  · rw [effect.pc_eq]
    exact hm.pc
  · exact effect.onSlot hm.small (hm.sp.onSlot read)

theorem Sound.countInterpreted {m : Machine} (h : m.Sound) : m.countInterpreted.Sound := by
  obtain ⟨proc, code, stack, small, pc, sp⟩ := h
  refine ⟨proc, code, stack, small, pc, ?_⟩
  rcases sp with hs | halted
  · exact .inl ⟨hs.1, hs.2, hs.3⟩
  · exact .inr halted

theorem Sound.account {m : Machine} (h : m.Sound) (i : Inst) : (m.account i).Sound := by
  obtain ⟨proc, code, stack, small, pc, sp⟩ := h
  refine ⟨⟨proc.1, proc.2⟩, code, stack, small, pc, ?_⟩
  rcases sp with hs | halted
  · exact .inl ⟨hs.1, hs.2, hs.3⟩
  · exact .inr halted

/-- A dispatch leaves the machine sound, whether it succeeds or fails. -/
theorem Dispatched.sound {m m' : Machine} {e : Option Stop} (h : Dispatched m m' e)
    (hm : m.Sound) : m'.Sound := by
  cases h with
  | undecoded => exact hm
  | jumped read done => exact (done.sound hm read).account _
  | stuck read failed => exact failed.sound hm read
  | @stepped i m' read done =>
    have stepped := sound_step hm.countInterpreted read
    have hs := (effect_step (Isa.decode_eq_ok read) m.countInterpreted).onSlot hm.small
      (hm.countInterpreted.sp.onSlot read)
    rw [done] at stepped hs
    have hpc := next_lt (Isa.decode_eq_ok read) hm.code
    exact ⟨stepped.proc, stepped.code, stepped.stack, stepped.small, hpc, .inl ⟨hs.1, hs.2, hs.3⟩⟩
  | failed read failed =>
    have stepped := sound_step hm.countInterpreted read
    rw [failed] at stepped
    exact stepped

/-- Every state that an interpreting core reaches from a start in the code's range is sound. -/
theorem Reachable.sound {program : Program} {o : Options} {p p' : Proc} {c : Core}
    {start : Int64} {param : UInt64} {m : Machine} (hcode : program.code.size < 2 ^ 62)
    (hmode : o.mode = .interpret) (hp : Proc.Unstarted program o p)
    (made : p.newCore start param = (p', .ok c)) (hstart : start.toInt < 2 ^ 32)
    (h : Reachable Proc.DeviceChange ⟨c, p'⟩ m) : m.Sound ∧ m.proc.mode = .interpret := by
  obtain ⟨hs, hprogram, hm⟩ := hp.sound
  have same := p.sameProgram_newCore start param
  obtain ⟨hs', hcore⟩ := hs.newCore start param
  rw [made] at same hs' hcore
  obtain ⟨hstack, hsmall, hsp, hpc⟩ := hcore c rfl
  -- The start, a dispatch, and a change made by devices or the clock.
  apply h.invariant
  · refine ⟨⟨hs', ?_, hstack, hsmall, ?_, .inl ?_⟩, same.mode.trans (hm.trans hmode)⟩
    · rw [same.program, hprogram]
      exact hcode
    · show c.pc.toInt < addressBound
      unfold addressBound
      rw [hpc]
      omega
    · have hzero : c.regs.sp.toInt = 0 := by rw [hsp]; rfl
      exact ⟨by show 0 ≤ c.regs.sp.toInt; omega, by show c.regs.sp.toInt ≤ _; omega,
        by show 4 ∣ c.regs.sp.toInt; omega⟩
  · rintro m ⟨ih, ihmode⟩
    have dispatched := dispatched ihmode runBlock
    exact ⟨dispatched.sound ih, dispatched.kept.proc.mode.trans ihmode⟩
  · rintro m proc ⟨ih, ihmode⟩ ⟨devices, clock, rfl⟩
    obtain ⟨proc, code, stack, small, pc, sp⟩ := ih
    refine ⟨⟨⟨proc.1, proc.2⟩, code, stack, small, pc, ?_⟩, ihmode⟩
    rcases sp with hs | halted
    · exact .inl ⟨hs.1, hs.2, hs.3⟩
    · exact .inr halted

end Machine

end BlockVM
