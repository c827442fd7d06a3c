import BlockVM.Proofs.Memory.Words
import BlockVM.Proofs.X86.RoundTrip
import BlockVM.X86.Machine

/-!
# Straight-line runs

A memory that holds the machine code of an instruction at `rip` makes the processor execute just
that instruction (`step_of_holds`). An instruction is straight if it neither jumps nor looks at
`rip`; a row of such instructions has the effect `execAll`, and a run performs it one instruction
after the other (`runs_execAll`).

`Runs` counts the steps of a run, and `Steps` are the steps themselves. Every instruction has at
least one byte, so a run through machine code without backward jumps takes at most as many steps as
the code has bytes.
-/

namespace BlockVM.X86

variable {μ : Type}

namespace State

/-- The state with another instruction pointer. -/
def goto (s : State μ) (rip : UInt64) : State μ := { s with cpu := { s.cpu with rip := rip } }

@[simp] theorem goto_rip (s : State μ) (a : UInt64) : (s.goto a).cpu.rip = a := rfl

@[simp] theorem goto_mem (s : State μ) (a : UInt64) : (s.goto a).mem = s.mem := rfl

@[simp] theorem goto_reg (s : State μ) (a : UInt64) (r : Reg) :
    (s.goto a).cpu.reg r = s.cpu.reg r := rfl

@[simp] theorem goto_goto (s : State μ) (a a' : UInt64) : (s.goto a).goto a' = s.goto a' := rfl

@[simp] theorem reg_setReg_self (s : State μ) (r : Reg) (v : UInt64) :
    (s.setReg r v).cpu.reg r = v := by
  simp [setReg, Cpu.reg, Cpu.setReg]

/-- Setting a register leaves those of other slots alone. -/
theorem reg_setReg_of_ne (s : State μ) {r q : Reg} (v : UInt64)
    (h : Cpu.slot r.num ≠ Cpu.slot q.num) : (s.setReg r v).cpu.reg q = s.cpu.reg q := by
  simp only [setReg, Cpu.reg, Cpu.setReg, Fin.getElem_fin]
  exact Vector.getElem_set_ne _ _ fun heq => h (Fin.ext heq)

theorem setReg_reg (s : State μ) (r : Reg) : s.setReg r (s.cpu.reg r) = s := by
  simp [setReg, Cpu.reg, Cpu.setReg]

@[simp] theorem setFlags_reg (s : State μ) (f : Option Flags) (r : Reg) :
    (s.setFlags f).cpu.reg r = s.cpu.reg r := rfl

end State

variable [ByteMemory μ]

/-- Every form of a constant load gives the constant. -/
theorem exec_movRegImm (s : State μ) (r : Reg) (v : UInt64) :
    exec (.movRegImm r v) s = some (s.setReg r v) := by
  unfold Inst.movRegImm
  -- The shortest of three forms is chosen, by whether the value is the extension of its low half.
  split
  next h =>
    have hback : v.toUInt32.toUInt64 = v := by
      apply UInt64.toNat_inj.mp
      rw [UInt64.le_iff_toNat_le, show (0xffffffff : UInt64).toNat = 2 ^ 32 - 1 from rfl] at h
      rw [UInt32.toNat_toUInt64, UInt64.toNat_toUInt32]
      omega
    show some (s.setReg r v.toUInt32.toUInt64) = _
    rw [hback]
  · split
    next h =>
      have hback : v.toInt64.toInt32.toInt64.toUInt64 = v := by
        have hint : v.toInt64.toInt32.toInt64 = v.toInt64 := by
          apply Int64.toInt_inj.mp
          rw [Int32.toInt_toInt64, Int64.toInt_toInt32, Int.bmod_eq_of_le (by omega) (by omega)]
        rw [hint, UInt64.toUInt64_toInt64]
      show some (s.setReg r v.toInt64.toInt32.toInt64.toUInt64) = _
      rw [hback]
    · rfl

/-! ## Machine code in memory -/

/-- The bytes stand in memory from an address on. -/
def Holds (m : μ) : UInt64 → List UInt8 → Prop
  | _, [] => True
  | a, b :: bs => ByteMemory.loadByte m a = some b ∧ Holds m (a + 1) bs

theorem Holds.append {m : μ} {a : UInt64} {bs cs : List UInt8} (h : Holds m a (bs ++ cs)) :
    Holds m a bs ∧ Holds m (a + UInt64.ofNat bs.length) cs := by
  induction bs generalizing a with
  | nil => exact ⟨trivial, by simpa using h⟩
  | cons b bs ih =>
    obtain ⟨hb, h⟩ := h
    obtain ⟨h₁, h₂⟩ := ih h
    refine ⟨⟨hb, h₁⟩, ?_⟩
    rw [UInt64.add_assoc] at h₂
    rw [List.length_cons, Nat.add_comm, UInt64.ofNat_add]
    exact h₂

/-- What is fetched begins with the bytes that are held, whatever follows. -/
theorem fetchBytes_of_holds {m : μ} {a : UInt64} {bs : List UInt8} {n : Nat} (h : Holds m a bs)
    (hn : bs.length ≤ n) : ∃ rest, fetchBytes m n a = bs ++ rest := by
  induction bs generalizing a n with
  | nil => exact ⟨_, rfl⟩
  | cons b bs ih =>
    obtain ⟨hb, h⟩ := h
    cases n with
    | zero => cases hn
    | succ n =>
      obtain ⟨rest, hrest⟩ := ih h (Nat.le_of_succ_le_succ hn)
      refine ⟨rest, ?_⟩
      rw [fetchBytes, hb, hrest]
      rfl

/-- Only the low four bits of a condition count. -/
theorem holds_low (c : Cond) (f : Flags) : Cond.holds ⟨c.code &&& 0xf⟩ f = c.holds f := by
  have all : ∀ k : Fin 256,
      ((UInt8.ofNat k &&& (0xf : UInt8)) >>> (1 : UInt8)) &&& 7 =
      (UInt8.ofNat k >>> (1 : UInt8)) &&& 7 ∧
      (UInt8.ofNat k &&& (0xf : UInt8)) &&& 1 = UInt8.ofNat k &&& 1 := by
    decide +kernel
  obtain ⟨h₁, h₂⟩ := all ⟨c.code.toNat, c.code.toNat_lt⟩
  simp only [UInt8.ofNat_toNat] at h₁ h₂
  simp only [Cond.holds, h₁, h₂]

/-- A store of a constant takes the low bytes of it. -/
theorem storeWord_congr (m : μ) {n : Nat} (a : UInt64) {v w : UInt64}
    (h : v.toNat % 256 ^ n = w.toNat % 256 ^ n) : storeWord m n a v = storeWord m n a w := by
  rw [storeWord, storeWord, LittleEndian.bytes_congr h]

/-- Sign extension does not show in the bits that were there. -/
theorem setWidth_signExtend_of_le {n w v : Nat} (x : BitVec w) (h : n ≤ w) (h' : n ≤ v) :
    (x.signExtend v).setWidth n = x.setWidth n := by
  ext k hk
  rw [BitVec.getElem_setWidth, BitVec.getElem_setWidth, BitVec.getLsbD_signExtend]
  simp [show k < v by omega, show k < w by omega]

/-- Only the bits of a constant or a condition that are stored have an effect. -/
theorem exec_stored (i : Inst) (s : State μ) : exec i.stored s = exec i s := by
  cases i with
  | storeImm w m imm =>
    cases w with
    | byte =>
      -- What the store writes of the constant are the bits that the shorter field keeps.
      have h : imm.toUInt32.toUInt8.toInt8.toInt32.toInt64.toUInt64.toUInt8
          = imm.toInt64.toUInt64.toUInt8 := by
        apply UInt8.toBitVec_inj.mp
        simp [setWidth_signExtend_of_le]
      have h : imm.toUInt32.toUInt8.toInt8.toInt32.toInt64.toUInt64.toNat % 256 ^ 1
          = imm.toInt64.toUInt64.toNat % 256 ^ 1 := by
        simpa using congrArg UInt8.toNat h
      simp only [Inst.stored, exec, State.store, Width.bytes, storeWord_congr _ _ h]
    | word =>
      have h : imm.toUInt32.toUInt16.toInt16.toInt32.toInt64.toUInt64.toUInt16
          = imm.toInt64.toUInt64.toUInt16 := by
        apply UInt16.toBitVec_inj.mp
        simp [setWidth_signExtend_of_le]
      have h : imm.toUInt32.toUInt16.toInt16.toInt32.toInt64.toUInt64.toNat % 256 ^ 2
          = imm.toInt64.toUInt64.toNat % 256 ^ 2 := by
        simpa using congrArg UInt16.toNat h
      simp only [Inst.stored, exec, State.store, Width.bytes, storeWord_congr _ _ h]
    | dword | qword => rfl
  | setcc c reg => simp only [Inst.stored, exec, holds_low]
  | jccShort c rel => simp only [Inst.stored, exec, holds_low]
  | _ => rfl

/-- A step where an instruction lies executes it, behind it. -/
theorem step_of_holds {i : Inst} {s : State μ} (hi : i.Valid) (h : Holds s.mem s.cpu.rip i.encode) :
    step s = exec i (s.goto (s.cpu.rip + UInt64.ofNat i.encode.length)) := by
  obtain ⟨rest, hrest⟩ := fetchBytes_of_holds h (length_encode i).2
  unfold step
  rw [hrest]
  simp only [decode_encode hi, bind, Option.bind]
  show exec i.stored (s.goto (s.cpu.rip + UInt64.ofNat ((i.encode ++ rest).length - rest.length))) =
    _
  rw [exec_stored, List.length_append, Nat.add_sub_cancel]

/-! ## Straight instructions -/

def Mem.isAbsolute : Mem → Bool
  | relative _ => false
  | _ => true

/-- The instruction neither jumps nor looks at `rip`. -/
def Inst.isStraight : Inst → Bool
  | load _ _ m | store _ m _ | storeImm _ m _ | lea _ m | aluRegMem _ _ _ m | aluMemReg _ _ m _
  | aluMemImm _ _ m _ | movssLoad _ m | movssStore m _ | sseMem _ _ m | ucomissMem _ m
  | cvtsi2ssMem _ _ m => m.isAbsolute
  | jccShort .. | ret => false
  | _ => true

omit [ByteMemory μ] in
/-- An absolute operand does not depend on the instruction pointer. -/
theorem address_goto {m : Mem} (h : m.isAbsolute = true) (s : State μ) (a : UInt64) :
    (s.goto a).cpu.address m = s.cpu.address m := by
  cases m with
  | relative => cases h
  | based | indexed => rfl

theorem load_goto {m : Mem} (h : m.isAbsolute = true) (s : State μ) (a : UInt64) (n : Nat) :
    (s.goto a).load n m = s.load n m := by
  rw [State.load, State.load, address_goto h]
  rfl

theorem store_goto {m : Mem} (h : m.isAbsolute = true) (s : State μ) (a : UInt64) (n : Nat)
    (v : UInt64) : (s.goto a).store n m v = (s.store n m v).map (·.goto a) := by
  rw [State.store, State.store, address_goto h]
  show (storeWord s.mem n _ v).bind _ = ((storeWord s.mem n _ v).bind _).map _
  cases storeWord s.mem n (s.cpu.address m) v <;> rfl

theorem copyUp_goto (w n : Nat) (s : State μ) (a : UInt64) :
    copyUp w n (s.goto a) = (copyUp w n s).map (·.goto a) := by
  induction n generalizing s with
  | zero => rfl
  | succ n ih =>
    simp only [copyUp, State.goto_reg, State.goto_mem, bind, Option.bind]
    cases loadWord s.mem w (s.cpu.reg .rsi) with
    | none => rfl
    | some v =>
      dsimp only
      cases storeWord s.mem w (s.cpu.reg .rdi) v with
      | none => rfl
      | some mem =>
        exact ih (((({ s with mem := mem } : State μ).setReg .rsi
          (s.cpu.reg .rsi + UInt64.ofNat w)).setReg .rdi (s.cpu.reg .rdi + UInt64.ofNat w)).setReg
          .rcx _)

omit [ByteMemory μ] in
/-- The effect of arithmetic on a register once its result is known. -/
theorem setResult_goto (s : State μ) (a : UInt64) (op : AluOp) (z : Size) (reg : Reg)
    (x : Option (UInt64 × Flags)) :
    (x.bind fun r => some ((if op = .cmp then s.goto a else (s.goto a).setRegAt z reg r.1).setFlags
        (some r.2))) =
      (x.bind fun r => some ((if op = .cmp then s else s.setRegAt z reg r.1).setFlags
        (some r.2))).map (·.goto a) := by
  cases x with
  | none => rfl
  | some r =>
    simp only [Option.bind_some, Option.map_some]
    split
    · rfl
    · cases z <;> rfl

/-- The effect of arithmetic on memory once its result is known. -/
theorem storeResult_goto {m : Mem} (h : m.isAbsolute = true) (s : State μ) (a : UInt64)
    (op : AluOp) (z : Size) (x : Option (UInt64 × Flags)) :
    (x.bind fun r => if op = .cmp then some ((s.goto a).setFlags (some r.2)) else
        ((s.goto a).store z.bytes m r.1).bind fun s => some (s.setFlags (some r.2))) =
      (x.bind fun r => if op = .cmp then some (s.setFlags (some r.2)) else
        (s.store z.bytes m r.1).bind fun s => some (s.setFlags (some r.2))).map (·.goto a) := by
  cases x with
  | none => rfl
  | some r =>
    simp only [Option.bind_some]
    split
    · rfl
    · rw [store_goto h]
      cases s.store z.bytes m r.1 <;> rfl

/-- A straight instruction does the same wherever it stands. -/
theorem exec_goto {i : Inst} (h : i.isStraight = true) (s : State μ) (a : UInt64) :
    exec i (s.goto a) = (exec i s).map (·.goto a) := by
  cases i with
  | load w reg m =>
    simp only [exec, load_goto h]
    cases s.load w.bytes m <;> rfl
  | store w m reg => exact store_goto h ..
  | storeImm w m imm => exact store_goto h ..
  | lea reg m =>
    simp only [exec, address_goto h]
    rfl
  | aluRegReg op z dst src =>
    exact setResult_goto s a op z dst (alu op z s.cpu.flags (s.cpu.regAt z dst) (s.cpu.regAt z src))
  | aluRegImm op z reg imm =>
    exact setResult_goto s a op z reg (alu op z s.cpu.flags (s.cpu.regAt z reg) (immediate z imm))
  | aluRegMem op z reg m =>
    simp only [exec, load_goto h]
    cases s.load z.bytes m with
    | none => rfl
    | some v => exact setResult_goto s a op z reg (alu op z s.cpu.flags (s.cpu.regAt z reg) v)
  | aluMemReg op z m reg =>
    simp only [exec, load_goto h]
    cases s.load z.bytes m with
    | none => rfl
    | some v => exact storeResult_goto h s a op z (alu op z s.cpu.flags v (s.cpu.regAt z reg))
  | aluMemImm op z m imm =>
    simp only [exec, load_goto h]
    cases s.load z.bytes m with
    | none => rfl
    | some v => exact storeResult_goto h s a op z (alu op z s.cpu.flags v (immediate z imm))
  | imul z | cvtsi2ss z | cvtss2si z => cases z <;> rfl
  | idiv z reg =>
    show (divide z (s.cpu.regAt z .rdx) (s.cpu.regAt z .rax) (s.cpu.regAt z reg)).bind _ =
      ((divide z (s.cpu.regAt z .rdx) (s.cpu.regAt z .rax) (s.cpu.regAt z reg)).bind _).map _
    cases divide z (s.cpu.regAt z .rdx) (s.cpu.regAt z .rax) (s.cpu.regAt z reg) with
    | none => rfl
    | some r => cases z <;> rfl
  | shiftCl op z reg =>
    simp only [exec, State.goto_reg]
    show (shift op z (s.cpu.regAt z reg) _).bind _ =
      ((shift op z (s.cpu.regAt z reg) _).bind _).map _
    cases shift op z (s.cpu.regAt z reg) ((s.cpu.reg .rcx).toUInt8 &&& z.countMask) with
    | none => rfl
    | some r => cases z <;> rfl
  | shiftImm op z reg count =>
    show (shift op z (s.cpu.regAt z reg) _).bind _ =
      ((shift op z (s.cpu.regAt z reg) _).bind _).map _
    cases shift op z (s.cpu.regAt z reg) (count &&& z.countMask) with
    | none => rfl
    | some r => cases z <;> rfl
  | movssLoad x m =>
    simp only [exec, load_goto h]
    cases s.load 4 m <;> rfl
  | movssStore m x => exact store_goto h ..
  | sseReg op dst src =>
    show (op.apply (s.cpu.lane dst) (s.cpu.lane src)).bind _ =
      ((op.apply (s.cpu.lane dst) (s.cpu.lane src)).bind _).map _
    cases op.apply (s.cpu.lane dst) (s.cpu.lane src) <;> rfl
  | sseMem op x m =>
    simp only [exec, load_goto h]
    cases s.load 4 m with
    | none => rfl
    | some v =>
      show (op.apply (s.cpu.lane x) v.toUInt32).bind _ =
        ((op.apply (s.cpu.lane x) v.toUInt32).bind _).map _
      cases op.apply (s.cpu.lane x) v.toUInt32 <;> rfl
  | ucomissMem x m =>
    simp only [exec, load_goto h]
    cases s.load 4 m <;> rfl
  | cvtsi2ssMem z x m =>
    simp only [exec, load_goto h]
    cases s.load z.bytes m <;> rfl
  | setcc c reg =>
    show s.cpu.flags.bind _ = (s.cpu.flags.bind _).map _
    cases s.cpu.flags <;> rfl
  | push reg =>
    simp only [exec, State.push, State.goto_mem, State.goto_reg]
    cases storeWord s.mem 8 (s.cpu.reg .rsp - 8) (s.cpu.reg reg) <;> rfl
  | pop reg =>
    simp only [exec, State.pop, State.goto_mem, State.goto_reg]
    cases loadWord s.mem 8 (s.cpu.reg .rsp) <;> rfl
  | repMovs w => exact copyUp_goto ..
  -- The instructions that read the address are not straight.
  | jccShort | ret => cases h
  | movRegImm64 | movRegImm32 | movRegImmSigned | movzxByte | cqo | cdq => rfl

/-! ## What stores keep -/

section
variable {P : μ → Prop} (keep : ∀ m a b m', ByteMemory.storeByte m a b = some m' → P m → P m')
include keep

/-- A property of memory that stores keep is kept by a run of them. -/
theorem storeBytes_keeps {m m' : μ} {a : UInt64} {bs : List UInt8}
    (h : storeBytes m a bs = some m') (hm : P m) : P m' := by
  induction bs generalizing m a with
  | nil =>
    cases h
    exact hm
  | cons b bs ih =>
    obtain ⟨m₁, h₁, h⟩ := Option.bind_eq_some_iff.mp h
    exact ih h (keep _ _ _ _ h₁ hm)

theorem store_keeps {s s' : State μ} {n : Nat} {m : Mem} {v : UInt64}
    (h : s.store n m v = some s') (hm : P s.mem) : P s'.mem := by
  obtain ⟨mem, hmem, h⟩ := Option.bind_eq_some_iff.mp h
  cases h
  exact storeBytes_keeps keep hmem hm

theorem copyUp_keeps {s s' : State μ} {w n : Nat} (h : copyUp w n s = some s') (hm : P s.mem) :
    P s'.mem := by
  induction n generalizing s with
  | zero =>
    cases h
    exact hm
  | succ n ih =>
    obtain ⟨v, -, h⟩ := Option.bind_eq_some_iff.mp h
    obtain ⟨mem, hmem, h⟩ := Option.bind_eq_some_iff.mp h
    exact ih h (storeBytes_keeps keep hmem hm)

/-- What every store keeps, every instruction keeps. -/
theorem exec_keeps {i : Inst} {s s' : State μ} (h : exec i s = some s') (hm : P s.mem) :
    P s'.mem := by
  cases i with
  -- Only these can write to memory, and they write by stores.
  | store w m reg => exact store_keeps keep h hm
  | storeImm w m imm => exact store_keeps keep h hm
  | movssStore m x => exact store_keeps keep h hm
  | repMovs w => exact copyUp_keeps keep h hm
  | push reg =>
    obtain ⟨mem, hmem, h⟩ := Option.bind_eq_some_iff.mp h
    cases h
    exact storeBytes_keeps keep hmem hm
  | aluMemReg op z m reg | aluMemImm op z m imm =>
    obtain ⟨v, -, h⟩ := Option.bind_eq_some_iff.mp h
    obtain ⟨r, -, h⟩ := Option.bind_eq_some_iff.mp h
    dsimp only at h
    split at h
    · cases h
      exact hm
    · obtain ⟨s₁, h₁, h⟩ := Option.bind_eq_some_iff.mp h
      cases h
      have := store_keeps keep h₁ hm
      exact this
  -- All others end with the memory they began with.
  | aluRegReg op z dst src | aluRegImm op z reg imm =>
    obtain ⟨r, -, h⟩ := Option.bind_eq_some_iff.mp h
    cases h
    split
    · exact hm
    · exact hm
  | aluRegMem op z reg m =>
    obtain ⟨v, -, h⟩ := Option.bind_eq_some_iff.mp h
    obtain ⟨r, -, h⟩ := Option.bind_eq_some_iff.mp h
    cases h
    split
    · exact hm
    · exact hm
  | load | idiv | shiftCl | shiftImm | movssLoad | sseReg | ucomissMem | cvtsi2ssMem | setcc =>
    obtain ⟨v, -, h⟩ := Option.bind_eq_some_iff.mp h
    cases h
    exact hm
  | sseMem =>
    obtain ⟨v, -, h⟩ := Option.bind_eq_some_iff.mp h
    obtain ⟨r, -, h⟩ := Option.bind_eq_some_iff.mp h
    cases h
    exact hm
  | pop | ret =>
    obtain ⟨v, hpop, h⟩ := Option.bind_eq_some_iff.mp h
    obtain ⟨w, -, hpop⟩ := Option.bind_eq_some_iff.mp hpop
    cases hpop
    cases h
    exact hm
  | jccShort c rel =>
    obtain ⟨f, -, h⟩ := Option.bind_eq_some_iff.mp h
    split at h <;> cases h <;> exact hm
  | cvtss2si z =>
    cases z <;> cases h
    exact hm
  | movRegImm64 | movRegImm32 | movRegImmSigned | movzxByte | lea | imul | cqo | cdq | cvtsi2ss =>
    cases h
    exact hm

end

/-! ## Runs -/

/-- The run goes on from the second state after `n` steps from the first. -/
def Runs (stop : UInt64) (n : Nat) (s s' : State μ) : Prop :=
  ∀ fuel, run stop (n + fuel) s = run stop fuel s'

namespace Runs

variable {stop : UInt64} {s s' s'' : State μ} {n k : Nat}

theorem refl (s : State μ) : Runs stop 0 s s := by
  intro fuel
  rw [Nat.zero_add]

theorem trans (h : Runs stop n s s') (h' : Runs stop k s' s'') : Runs stop (n + k) s s'' := by
  intro fuel
  rw [Nat.add_assoc, h, h']

/-- A step that does not start at the stop is a run. -/
theorem step (hrip : s.cpu.rip ≠ stop) (h : X86.step s = some s') : Runs stop 1 s s' := by
  intro fuel
  rw [Nat.add_comm, run, if_neg hrip, h]

/-- A run that has come to its end is over, whatever fuel is left. -/
theorem run_eq (h : Runs stop n s s') (hrip : s'.cpu.rip = stop) {fuel : Nat} (hn : n ≤ fuel) :
    run stop fuel s = some s' := by
  obtain ⟨k, rfl⟩ := Nat.exists_eq_add_of_le hn
  rw [h]
  cases k <;> simp [run, hrip]

end Runs

/-- The processor takes `n` steps, and control is not at `stop` before the last of them. -/
inductive Steps (stop : UInt64) : Nat → State μ → State μ → Prop
  | refl (s : State μ) : Steps stop 0 s s
  | next {n : Nat} {s s₁ s' : State μ} (hrip : s.cpu.rip ≠ stop) (first : step s = some s₁)
      (rest : Steps stop n s₁ s') : Steps stop (n + 1) s s'

theorem Steps.runs {stop : UInt64} {n : Nat} {s s' : State μ} (h : Steps stop n s s') :
    Runs stop n s s' := by
  induction h with
  | refl s => exact .refl s
  | next hrip first rest ih =>
    rw [Nat.add_comm]
    exact (Runs.step hrip first).trans ih

/-! ## Rows of instructions -/

theorem encodeAll_append (is js : List Inst) :
    encodeAll (is ++ js) = encodeAll is ++ encodeAll js := by
  simp [encodeAll]

theorem encodeAll_singleton (i : Inst) : encodeAll [i] = i.encode := by
  simp [encodeAll]

theorem length_le_encodeAll (is : List Inst) : is.length ≤ (encodeAll is).length := by
  induction is with
  | nil => simp
  | cons i is ih =>
    have := (length_encode i).1
    simp only [encodeAll, List.flatMap_cons, List.length_append, List.length_cons] at ih ⊢
    omega

/-- The effect of instructions one after the other. -/
def execAll : List Inst → State μ → Option (State μ)
  | [], s => some s
  | i :: is, s => (exec i s).bind (execAll is)

theorem execAll_cons {i : Inst} {s s' : State μ} (h : exec i s = some s') (is : List Inst) :
    execAll (i :: is) s = execAll is s' := by
  rw [execAll, h, Option.bind_some]

/-- What a load does, with the value that memory has. -/
theorem exec_load {s : State μ} {w : Width} {m : Mem} {v : UInt64} (r : Reg)
    (h : loadWord s.mem w.bytes (s.cpu.address m) = some v) :
    exec (.load w r m) s = some (s.setReg r v) := by
  rw [exec, State.load, h]
  rfl

/-- What a store does, with the memory that it leaves. -/
theorem exec_store {s : State μ} {w : Width} {m : Mem} {r : Reg} {mem : μ}
    (h : storeWord s.mem w.bytes (s.cpu.address m) (s.cpu.reg r) = some mem) :
    exec (.store w m r) s = some { s with mem := mem } := by
  rw [exec, State.store, h]
  rfl

theorem execAll_append (is js : List Inst) (s : State μ) :
    execAll (is ++ js) s = (execAll is s).bind (execAll js) := by
  induction is generalizing s with
  | nil => rfl
  | cons i is ih =>
    rw [List.cons_append, execAll, execAll]
    cases exec i s with
    | none => rfl
    | some s => exact ih s

theorem execAll_goto {is : List Inst} (h : ∀ i ∈ is, i.isStraight = true) (s : State μ)
    (a : UInt64) : execAll is (s.goto a) = (execAll is s).map (·.goto a) := by
  induction is generalizing s with
  | nil => rfl
  | cons i is ih =>
    rw [execAll, execAll, exec_goto (h i (List.mem_cons_self ..))]
    cases exec i s with
    | none => rfl
    | some s => exact ih (fun j hj => h j (List.mem_cons_of_mem _ hj)) s

/-- Memory that keeps the machine code of instructions from `base` on, whatever is stored, and
control that does not end inside it. -/
structure Loaded (P : μ → Prop) (base stop : UInt64) (is : List Inst) : Prop where
  keep : ∀ m a b m', ByteMemory.storeByte m a b = some m' → P m → P m'
  holds : ∀ m, P m → Holds m base (encodeAll is)
  valid : ∀ i ∈ is, i.Valid
  away : ∀ k < (encodeAll is).length, base + UInt64.ofNat k ≠ stop

/-- The address behind instructions that start at `base`. -/
def behind (base : UInt64) (is : List Inst) : UInt64 := base + UInt64.ofNat (encodeAll is).length

theorem behind_append (base : UInt64) (is js : List Inst) :
    behind base (is ++ js) = behind base is + UInt64.ofNat (encodeAll js).length := by
  rw [behind, behind, encodeAll_append, List.length_append, UInt64.ofNat_add, UInt64.add_assoc]

namespace Loaded

variable {P : μ → Prop} {base stop : UInt64} {pre is post : List Inst} {i : Inst} {s s' : State μ}

/-- One instruction of the machine code. -/
theorem step_exec (l : Loaded P base stop (pre ++ i :: post)) (hm : P s.mem)
    (hrip : s.cpu.rip = behind base pre)
    (h : exec i (s.goto (behind base (pre ++ [i]))) = some s') :
    s.cpu.rip ≠ stop ∧ X86.step s = some s' ∧ P s'.mem := by
  have hcode := l.holds _ hm
  rw [encodeAll_append] at hcode
  have hi := hcode.append.2
  rw [← List.singleton_append, encodeAll_append, encodeAll_singleton] at hi
  have hne : s.cpu.rip ≠ stop := by
    rw [hrip]
    apply l.away
    have := (length_encode i).1
    rw [encodeAll_append, ← List.singleton_append, encodeAll_append, encodeAll_singleton,
      List.length_append, List.length_append]
    omega
  refine ⟨hne, ?_, exec_keeps l.keep h hm⟩
  rw [step_of_holds (l.valid i (by simp)) (by rw [hrip]; exact hi.append.1), hrip]
  rw [behind_append, encodeAll_singleton] at h
  exact h

/-- One instruction of loaded code is one step of the run, from its address to the one behind it. -/
theorem runs_exec (l : Loaded P base stop (pre ++ i :: post)) (hm : P s.mem)
    (hrip : s.cpu.rip = behind base pre)
    (h : exec i (s.goto (behind base (pre ++ [i]))) = some s') :
    Runs stop 1 s s' ∧ P s'.mem := by
  obtain ⟨hne, hstep, hm'⟩ := l.step_exec hm hrip h
  exact ⟨.step hne hstep, hm'⟩

/-- A straight part of the machine code. -/
theorem runs_execAll (l : Loaded P base stop (pre ++ is ++ post))
    (straight : ∀ i ∈ is, i.isStraight = true) (hm : P s.mem)
    (hrip : s.cpu.rip = behind base pre) (h : execAll is s = some s') :
    Runs stop is.length s (s'.goto (behind base (pre ++ is))) ∧ P s'.mem := by
  induction is generalizing pre s s' with
  | nil =>
    obtain rfl := Option.some.inj h
    rw [List.append_nil, ← hrip]
    exact ⟨.refl s, hm⟩
  | cons i is ih =>
    obtain ⟨s₁, h₁, h⟩ := Option.bind_eq_some_iff.mp h
    -- The first instruction does not read the instruction pointer, so it can run at any address.
    have hhead : exec i (s.goto (behind base (pre ++ [i])))
        = some (s₁.goto (behind base (pre ++ [i]))) := by
      rw [exec_goto (straight i (List.mem_cons_self ..)), h₁]
      rfl
    rw [List.append_assoc, List.cons_append] at l
    obtain ⟨hrun, hm₁⟩ := l.runs_exec hm hrip hhead
    have htail : ∀ j ∈ is, j.isStraight = true := fun j hj => straight j (List.mem_cons_of_mem _ hj)
    have hrest : execAll is (s₁.goto (behind base (pre ++ [i])))
        = some (s'.goto (behind base (pre ++ [i]))) := by
      rw [execAll_goto htail, h]
      rfl
    have l' : Loaded P base stop (pre ++ [i] ++ is ++ post) := by simpa using l
    obtain ⟨hruns, hm'⟩ := ih l' htail hm₁ rfl hrest
    rw [List.append_assoc, List.singleton_append, State.goto_goto] at hruns
    rw [List.length_cons, Nat.add_comm]
    exact ⟨hrun.trans hruns, hm'⟩

end Loaded

end BlockVM.X86
