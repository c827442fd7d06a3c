import BlockVM.Proofs.X86.Straight
import BlockVM.X86.Assembler

/-!
# What an assembler produces

`assembled_reads_back` says that the bytes of a call, whatever follows them, are read as what the
call asks for (`Means`), and that the call gives their number, with a sink or without. Calls must be
in the domain of their method: registers that exist, widths that the method has, operations of their
type.

`Means` is written down call by call, beside the encoder and not through it.
-/

namespace BlockVM.X86

/-! ## What a call may be given -/

def moveWidths : List UInt8 := [8, 16, 32, 64]
def aluWidths : List UInt8 := [32, 64]

namespace Address

def InDomain : Address → Prop
  | ptr base _ => base.num < 16
  | indexed base index factor _ =>
    base.num < 16 ∧ index.num < 16 ∧ index ≠ .rsp ∧ factor ∈ ([1, 2, 4, 8] : List UInt8)
  | rip _ => True

def IsAt : Address → Mem → Prop
  | ptr base disp, m => m = .based base disp
  | indexed base index factor disp, m =>
    ∃ s : Scale, s.factor = factor ∧ m = .indexed base index s disp
  | rip disp, m => m = .relative disp

end Address

def ShiftOp.all : List ShiftOp := [.rol, .ror, .shl, .shr, .sar]

namespace Call

def InDomain : Call → Prop
  | movRegImm64 reg _ | movRegImm32 reg _ | movRegImm32SignExt reg _ | movRegImm reg _
  | addRegImm32 reg _ | subRegImm32 reg _ | push reg | pop reg => reg.num < 16
  | movRegMem bits reg a | movMemReg bits a reg => bits ∈ moveWidths ∧ reg.num < 16 ∧ a.InDomain
  | movMemImm bits a _ => bits ∈ moveWidths ∧ a.InDomain
  | movzxRegReg8 dst src | xorRegReg32 dst src => dst.num < 16 ∧ src.num < 16
  | lea reg a => reg.num < 16 ∧ a.InDomain
  | aluRegReg op bits dst src => op.digit < 8 ∧ bits ∈ aluWidths ∧ dst.num < 16 ∧ src.num < 16
  | aluRegImm op bits reg _ => op.digit < 8 ∧ bits ∈ aluWidths ∧ reg.num < 16
  | aluRegMem op bits reg a | aluMemReg op bits a reg =>
    op.digit < 8 ∧ bits ∈ aluWidths ∧ reg.num < 16 ∧ a.InDomain
  | aluMemImm op bits a _ => op.digit < 8 ∧ bits ∈ aluWidths ∧ a.InDomain
  | imulRegReg bits dst src => bits ∈ aluWidths ∧ dst.num < 16 ∧ src.num < 16
  | idiv bits reg => bits ∈ aluWidths ∧ reg.num < 16
  | shiftRegCl op bits reg | shiftRegImm op bits reg _ =>
    op ∈ ShiftOp.all ∧ bits ∈ aluWidths ∧ reg.num < 16
  | movssXmmMem x a | movssMemXmm a x | ucomissMem x a => x.num < 16 ∧ a.InDomain
  | sseXmmXmm op dst src => op ∈ SseOp.all ∧ dst.num < 16 ∧ src.num < 16
  | sseXmmMem op x a => op ∈ SseOp.all ∧ x.num < 16 ∧ a.InDomain
  | cvtss2si bits dst src => bits ∈ aluWidths ∧ dst.num < 16 ∧ src.num < 16
  | cvtsi2ss bits dst src => bits ∈ aluWidths ∧ dst.num < 16 ∧ src.num < 16
  | cvtsi2ssMem bits dst a => bits ∈ aluWidths ∧ dst.num < 16 ∧ a.InDomain
  | setcc cond reg => cond.code < 16 ∧ reg.num < 16
  | jccShort cond _ => cond.code < 16
  | repMovs bits => bits ∈ moveWidths
  | cqo | cdq | ret => True

end Call

/-! ## What a call asks for -/

/-- The low bits of a constant that a store of this width has, sign-extended. -/
def Width.keeps (w : Width) (imm : Int32) : Int32 :=
  match w with
  | .byte => imm.toInt8.toInt32
  | .word => imm.toInt16.toInt32
  | .dword | .qword => imm

def Size.bits (s : Size) : Nat := 8 * s.bytes

/-- The instruction loads exactly this constant and does nothing else, on every machine. -/
def Inst.LoadsConstant (i : Inst) (reg : Reg) (imm : UInt64) : Prop :=
  ∀ (μ : Type) [ByteMemory μ] (s : State μ), exec i s = some (s.setReg reg imm)

namespace Call

/-- The instruction is the one that the call asks for. -/
def Means : Call → Inst → Prop
  | movRegImm64 reg imm, i => i = .movRegImm64 reg imm
  | movRegImm32 reg imm, i => i = .movRegImm32 reg imm
  | movRegImm32SignExt reg imm, i => i = .movRegImmSigned reg imm
  | movRegImm reg imm, i => i.LoadsConstant reg imm
  | movRegMem bits reg a, i => ∃ w m, w.bits = bits.toNat ∧ a.IsAt m ∧ i = .load w reg m
  | movMemReg bits a reg, i => ∃ w m, w.bits = bits.toNat ∧ a.IsAt m ∧ i = .store w m reg
  | movMemImm bits a imm, i =>
    ∃ w m, w.bits = bits.toNat ∧ a.IsAt m ∧ i = .storeImm w m (w.keeps imm)
  | movzxRegReg8 dst src, i => i = .movzxByte dst src
  | lea reg a, i => ∃ m, a.IsAt m ∧ i = .lea reg m
  | aluRegReg op bits dst src, i => ∃ s, s.bits = bits.toNat ∧ i = .aluRegReg op s dst src
  | aluRegImm op bits reg imm, i => ∃ s, s.bits = bits.toNat ∧ i = .aluRegImm op s reg imm
  | aluRegMem op bits reg a, i =>
    ∃ s m, s.bits = bits.toNat ∧ a.IsAt m ∧ i = .aluRegMem op s reg m
  | aluMemReg op bits a reg, i =>
    ∃ s m, s.bits = bits.toNat ∧ a.IsAt m ∧ i = .aluMemReg op s m reg
  | aluMemImm op bits a imm, i =>
    ∃ s m, s.bits = bits.toNat ∧ a.IsAt m ∧ i = .aluMemImm op s m imm
  | addRegImm32 reg imm, i => i = .aluRegImm .add .qword reg imm
  | subRegImm32 reg imm, i => i = .aluRegImm .sub .qword reg imm
  | xorRegReg32 dst src, i => i = .aluRegReg .xor .dword dst src
  | imulRegReg bits dst src, i => ∃ s, s.bits = bits.toNat ∧ i = .imul s dst src
  | idiv bits reg, i => ∃ s, s.bits = bits.toNat ∧ i = .idiv s reg
  | cqo, i => i = .cqo
  | cdq, i => i = .cdq
  | shiftRegCl op bits reg, i => ∃ s, s.bits = bits.toNat ∧ i = .shiftCl op s reg
  | shiftRegImm op bits reg count, i => ∃ s, s.bits = bits.toNat ∧ i = .shiftImm op s reg count
  | movssXmmMem x a, i => ∃ m, a.IsAt m ∧ i = .movssLoad x m
  | movssMemXmm a x, i => ∃ m, a.IsAt m ∧ i = .movssStore m x
  | sseXmmXmm op dst src, i => i = .sseReg op dst src
  | sseXmmMem op x a, i => ∃ m, a.IsAt m ∧ i = .sseMem op x m
  | ucomissMem x a, i => ∃ m, a.IsAt m ∧ i = .ucomissMem x m
  | cvtss2si bits dst src, i => ∃ s, s.bits = bits.toNat ∧ i = .cvtss2si s dst src
  | cvtsi2ss bits dst src, i => ∃ s, s.bits = bits.toNat ∧ i = .cvtsi2ss s dst src
  | cvtsi2ssMem bits dst a, i => ∃ s m, s.bits = bits.toNat ∧ a.IsAt m ∧ i = .cvtsi2ssMem s dst m
  | setcc cond reg, i => i = .setcc cond reg
  | jccShort cond rel, i => i = .jccShort cond rel
  | ret, i => i = .ret
  | push reg, i => i = .push reg
  | pop reg, i => i = .pop reg
  | repMovs bits, i => ∃ w, w.bits = bits.toNat ∧ i = .repMovs w

end Call

/-! ## Operands -/

theorem width_eq_ok {bits : UInt8} (h : bits ∈ moveWidths) (what : String) :
    ∃ w, Inst.width what bits = .ok w ∧ w.bits = bits.toNat := by
  simp only [moveWidths, List.mem_cons, List.not_mem_nil, or_false] at h
  rcases h with rfl | rfl | rfl | rfl <;> exact ⟨_, rfl, rfl⟩

theorem size_eq_ok {bits : UInt8} (h : bits ∈ aluWidths) (what : String) :
    ∃ s, Inst.size what bits = .ok s ∧ s.bits = bits.toNat := by
  simp only [aluWidths, List.mem_cons, List.not_mem_nil, or_false] at h
  rcases h with rfl | rfl <;> exact ⟨_, rfl, rfl⟩

/-- An address in the domain is a valid operand, at the place that it says. -/
theorem Address.mem_eq_ok {a : Address} (h : a.InDomain) :
    ∃ m, a.mem = .ok m ∧ m.Valid ∧ a.IsAt m := by
  cases a with
  | ptr base disp => exact ⟨_, rfl, h, rfl⟩
  | rip disp => exact ⟨_, rfl, trivial, rfl⟩
  | indexed base index factor disp =>
    obtain ⟨hbase, hindex, hrsp, hfactor⟩ := h
    have hscale : ∃ s, Scale.ofFactor? factor = some s ∧ s.factor = factor := by
      simp only [List.mem_cons, List.not_mem_nil, or_false] at hfactor
      rcases hfactor with rfl | rfl | rfl | rfl <;> exact ⟨_, rfl, rfl⟩
    obtain ⟨s, hs, hfactor⟩ := hscale
    refine ⟨.indexed base index s disp, ?_, ⟨hbase, hindex, hrsp⟩, s, hfactor, rfl⟩
    rw [Address.mem, Mem.withIndex, if_neg hrsp, hs]

/-- What is stored of an immediate is what the width keeps. -/
theorem stored_storeImm (w : Width) (m : Mem) (imm : Int32) :
    (Inst.storeImm w m imm).stored = .storeImm w m (w.keeps imm) := by
  have hbyte : imm.toUInt32.toUInt8.toInt8 = imm.toInt8 := by
    rw [← Int8.toBitVec_inj]
    exact (BitVec.signExtend_eq_setWidth_of_le imm.toBitVec (show 8 ≤ 32 by decide)).symm
  have hword : imm.toUInt32.toUInt16.toInt16 = imm.toInt16 := by
    rw [← Int16.toBitVec_inj]
    exact (BitVec.signExtend_eq_setWidth_of_le imm.toBitVec (show 16 ≤ 32 by decide)).symm
  cases w with
  | byte =>
    rw [Inst.stored, hbyte]
    rfl
  | word =>
    rw [Inst.stored, hword]
    rfl
  | dword | qword => rfl

theorem Cond.code_and {c : Cond} (h : c.code < 16) : (⟨c.code &&& 0xf⟩ : Cond) = c := by
  have all : ∀ k : Fin 16, UInt8.ofNat k &&& 0xf = UInt8.ofNat k := by decide
  have hcode := all ⟨c.code.toNat, h⟩
  rw [UInt8.ofNat_toNat] at hcode
  rw [hcode]

theorem ShiftOp.digit_lt {op : ShiftOp} (h : op ∈ ShiftOp.all) : op.digit < 8 := by
  revert op
  decide

/-- Each of the three forms of a constant load loads the constant. -/
theorem loadsConstant_movRegImm (reg : Reg) (imm : UInt64) :
    (Inst.movRegImm reg imm).stored.LoadsConstant reg imm := by
  have hstored : (Inst.movRegImm reg imm).stored = Inst.movRegImm reg imm := by
    unfold Inst.movRegImm
    split
    · rfl
    · split <;> rfl
  intro μ _ s
  rw [hstored]
  exact exec_movRegImm s reg imm

/-- A move of an immediate is valid in the form that is chosen for it. -/
theorem valid_movRegImm {reg : Reg} (h : reg.num < 16) (imm : UInt64) :
    (Inst.movRegImm reg imm).Valid := by
  unfold Inst.movRegImm
  split
  · exact h
  · split <;> exact h

/-! ## Calls -/

/-- A call in the domain of its method gives a valid instruction, and what is stored of it is what
the call asks for. -/
theorem Call.inst_eq_ok {c : Call} (h : c.InDomain) :
    ∃ i, c.inst = .ok i ∧ i.Valid ∧ c.Means i.stored := by
  cases c with
  | movRegImm64 | movRegImm32 | movRegImm32SignExt | movzxRegReg8 | push | pop | sseXmmXmm =>
    exact ⟨_, rfl, h, rfl⟩
  | cqo | cdq | ret => exact ⟨_, rfl, trivial, rfl⟩
  | movRegImm reg imm => exact ⟨_, rfl, valid_movRegImm h imm, loadsConstant_movRegImm reg imm⟩
  | addRegImm32 | subRegImm32 | xorRegReg32 => exact ⟨_, rfl, ⟨(by decide : _ < _), h⟩, rfl⟩
  | setcc cond reg => exact ⟨_, rfl, h.2, by rw [Inst.stored, Cond.code_and h.1]; rfl⟩
  | jccShort cond rel => exact ⟨_, rfl, trivial, by rw [Inst.stored, Cond.code_and h]; rfl⟩
  | repMovs bits =>
    obtain ⟨w, hw, hbits⟩ := width_eq_ok h "rep movs"
    exact ⟨.repMovs w, by rw [inst, Inst.repMovsBits, hw]; rfl, trivial, w, hbits, rfl⟩
  -- Moves between a register or a constant and memory.
  | movRegMem bits reg a =>
    obtain ⟨hbits, hreg, ha⟩ := h
    obtain ⟨w, hw, hbits⟩ := width_eq_ok hbits "mov reg, mem"
    obtain ⟨m, hm, hvalid, hat⟩ := Address.mem_eq_ok ha
    exact ⟨.load w reg m, by simp only [inst, Inst.loadBits, hm, hw]; rfl, ⟨hreg, hvalid⟩,
      w, m, hbits, hat, rfl⟩
  | movMemReg bits a reg =>
    obtain ⟨hbits, hreg, ha⟩ := h
    obtain ⟨w, hw, hbits⟩ := width_eq_ok hbits "mov mem, reg"
    obtain ⟨m, hm, hvalid, hat⟩ := Address.mem_eq_ok ha
    exact ⟨.store w m reg, by simp only [inst, Inst.storeBits, hm, hw]; rfl, ⟨hreg, hvalid⟩,
      w, m, hbits, hat, rfl⟩
  | movMemImm bits a imm =>
    obtain ⟨hbits, ha⟩ := h
    obtain ⟨w, hw, hbits⟩ := width_eq_ok hbits "mov mem, imm"
    obtain ⟨m, hm, hvalid, hat⟩ := Address.mem_eq_ok ha
    exact ⟨.storeImm w m imm, by simp only [inst, Inst.storeImmBits, hm, hw]; rfl, hvalid,
      w, m, hbits, hat, stored_storeImm w m imm⟩
  -- Instructions of one size with a memory operand.
  | lea reg a =>
    obtain ⟨m, hm, hvalid, hat⟩ := Address.mem_eq_ok h.2
    exact ⟨.lea reg m, by simp only [inst, hm]; rfl, ⟨h.1, hvalid⟩, m, hat, rfl⟩
  | movssXmmMem x a =>
    obtain ⟨m, hm, hvalid, hat⟩ := Address.mem_eq_ok h.2
    exact ⟨.movssLoad x m, by simp only [inst, hm]; rfl, ⟨h.1, hvalid⟩, m, hat, rfl⟩
  | movssMemXmm a x =>
    obtain ⟨m, hm, hvalid, hat⟩ := Address.mem_eq_ok h.2
    exact ⟨.movssStore m x, by simp only [inst, hm]; rfl, ⟨h.1, hvalid⟩, m, hat, rfl⟩
  | ucomissMem x a =>
    obtain ⟨m, hm, hvalid, hat⟩ := Address.mem_eq_ok h.2
    exact ⟨.ucomissMem x m, by simp only [inst, hm]; rfl, ⟨h.1, hvalid⟩, m, hat, rfl⟩
  | sseXmmMem op x a =>
    obtain ⟨hop, hreg, ha⟩ := h
    obtain ⟨m, hm, hvalid, hat⟩ := Address.mem_eq_ok ha
    exact ⟨.sseMem op x m, by simp only [inst, hm]; rfl, ⟨hop, hreg, hvalid⟩, m, hat, rfl⟩
  -- Arithmetic.
  | aluRegReg op bits dst src =>
    obtain ⟨hop, hbits, hregs⟩ := h
    obtain ⟨s, hs, hbits⟩ := size_eq_ok hbits op.name
    exact ⟨.aluRegReg op s dst src, by rw [inst, Inst.aluRegRegBits, hs]; rfl, ⟨hop, hregs⟩,
      s, hbits, rfl⟩
  | aluRegImm op bits reg imm =>
    obtain ⟨hop, hbits, hreg⟩ := h
    obtain ⟨s, hs, hbits⟩ := size_eq_ok hbits op.name
    exact ⟨.aluRegImm op s reg imm, by rw [inst, Inst.aluRegImmBits, hs]; rfl, ⟨hop, hreg⟩,
      s, hbits, rfl⟩
  | aluRegMem op bits reg a =>
    obtain ⟨hop, hbits, hreg, ha⟩ := h
    obtain ⟨s, hs, hbits⟩ := size_eq_ok hbits op.name
    obtain ⟨m, hm, hvalid, hat⟩ := Address.mem_eq_ok ha
    exact ⟨.aluRegMem op s reg m, by simp only [inst, Inst.aluRegMemBits, hm, hs]; rfl,
      ⟨hop, hreg, hvalid⟩, s, m, hbits, hat, rfl⟩
  | aluMemReg op bits a reg =>
    obtain ⟨hop, hbits, hreg, ha⟩ := h
    obtain ⟨s, hs, hbits⟩ := size_eq_ok hbits op.name
    obtain ⟨m, hm, hvalid, hat⟩ := Address.mem_eq_ok ha
    exact ⟨.aluMemReg op s m reg, by simp only [inst, Inst.aluMemRegBits, hm, hs]; rfl,
      ⟨hop, hreg, hvalid⟩, s, m, hbits, hat, rfl⟩
  | aluMemImm op bits a imm =>
    obtain ⟨hop, hbits, ha⟩ := h
    obtain ⟨s, hs, hbits⟩ := size_eq_ok hbits op.name
    obtain ⟨m, hm, hvalid, hat⟩ := Address.mem_eq_ok ha
    exact ⟨.aluMemImm op s m imm, by simp only [inst, Inst.aluMemImmBits, hm, hs]; rfl,
      ⟨hop, hvalid⟩, s, m, hbits, hat, rfl⟩
  | imulRegReg bits dst src =>
    obtain ⟨s, hs, hbits⟩ := size_eq_ok h.1 "imul"
    exact ⟨.imul s dst src, by rw [inst, Inst.imulBits, hs]; rfl, h.2, s, hbits, rfl⟩
  | idiv bits reg =>
    obtain ⟨s, hs, hbits⟩ := size_eq_ok h.1 "idiv"
    exact ⟨.idiv s reg, by rw [inst, Inst.idivBits, hs]; rfl, h.2, s, hbits, rfl⟩
  | shiftRegCl op bits reg =>
    obtain ⟨hop, hbits, hreg⟩ := h
    obtain ⟨s, hs, hbits⟩ := size_eq_ok hbits op.name
    exact ⟨.shiftCl op s reg, by rw [inst, Inst.shiftClBits, hs]; rfl, ⟨op.digit_lt hop, hreg⟩,
      s, hbits, rfl⟩
  | shiftRegImm op bits reg count =>
    obtain ⟨hop, hbits, hreg⟩ := h
    obtain ⟨s, hs, hbits⟩ := size_eq_ok hbits op.name
    exact ⟨.shiftImm op s reg count, by rw [inst, Inst.shiftImmBits, hs]; rfl,
      ⟨op.digit_lt hop, hreg⟩, s, hbits, rfl⟩
  -- Conversions.
  | cvtss2si bits dst src =>
    obtain ⟨s, hs, hbits⟩ := size_eq_ok h.1 "cvtss2si"
    exact ⟨.cvtss2si s dst src, by rw [inst, Inst.cvtss2siBits, hs]; rfl, h.2, s, hbits, rfl⟩
  | cvtsi2ss bits dst src =>
    obtain ⟨s, hs, hbits⟩ := size_eq_ok h.1 "cvtsi2ss"
    exact ⟨.cvtsi2ss s dst src, by rw [inst, Inst.cvtsi2ssBits, hs]; rfl, h.2, s, hbits, rfl⟩
  | cvtsi2ssMem bits dst a =>
    obtain ⟨hbits, hreg, ha⟩ := h
    obtain ⟨s, hs, hbits⟩ := size_eq_ok hbits "cvtsi2ss"
    obtain ⟨m, hm, hvalid, hat⟩ := Address.mem_eq_ok ha
    exact ⟨.cvtsi2ssMem s dst m, by simp only [inst, Inst.cvtsi2ssMemBits, hm, hs]; rfl,
      ⟨hreg, hvalid⟩, s, m, hbits, hat, rfl⟩

/-- A call that has an instruction puts its bytes into the sink, or counts them. -/
theorem Assembler.perform_eq_ok {c : Call} {i : Inst} (h : c.inst = .ok i) (a : Assembler) :
    a.perform c = .ok (a.put i.encode) := by
  rw [perform, h]
  rfl

/-- A call in the domain of its method produces between one and 15 bytes. They are read as what the
call asks for, whatever follows them, and just these bytes are read. The call gives their number,
and so does the same call of an assembler that only measures. -/
theorem assembled_reads_back {c : Call} (h : c.InDomain) :
    ∃ bytes i, c.Means i ∧ (∀ rest, decode (bytes ++ rest) = some (i, rest)) ∧
      0 < bytes.length ∧ bytes.length ≤ 15 ∧
      (∀ held n, Assembler.perform ⟨some held, n⟩ c =
        .ok (⟨some (held ++ bytes), n + bytes.length⟩, bytes.length)) ∧
      ∀ n, Assembler.perform ⟨none, n⟩ c = .ok (⟨none, n + bytes.length⟩, bytes.length) := by
  obtain ⟨i, hi, hvalid, hmeans⟩ := Call.inst_eq_ok h
  obtain ⟨hpos, hle⟩ := length_encode i
  exact ⟨i.encode, i.stored, hmeans, decode_encode hvalid, hpos, hle,
    fun held n => Assembler.perform_eq_ok hi ⟨some held, n⟩,
    fun n => Assembler.perform_eq_ok hi ⟨none, n⟩⟩

/-- A byte register that needs a prefix, stored through a base that needs a SIB byte, with the least
displacement of one byte. -/
theorem assembled_reads_back_storeByte :
    ∃ bytes i, i = Inst.store .byte (.indexed ⟨12⟩ ⟨13⟩ .eight (-128)) .rsi ∧
      decode bytes = some (i, []) ∧
      Assembler.measure.perform (.movMemReg 8 (.indexed ⟨12⟩ ⟨13⟩ 8 (-128)) .rsi) =
        .ok (⟨none, bytes.length⟩, bytes.length) := by
  have hdomain : (Call.movMemReg 8 (.indexed ⟨12⟩ ⟨13⟩ 8 (-128)) .rsi).InDomain :=
    ⟨by decide, (by decide : (6 : UInt8) < 16), by decide, by decide, by decide, by decide⟩
  obtain ⟨bytes, i, ⟨w, m, hbits, ⟨s, hfactor, rfl⟩, rfl⟩, hdecode, -, -, -, hmeasure⟩ :=
    assembled_reads_back hdomain
  have hw : w = .byte := by cases w <;> first | rfl | cases hbits
  have hs : s = .eight := by cases s <;> first | rfl | cases hfactor
  subst hw hs
  refine ⟨bytes, _, rfl, ?_, ?_⟩
  · simpa using hdecode []
  · simpa [Assembler.measure] using hmeasure 0

end BlockVM.X86
