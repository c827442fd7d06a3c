import BlockVM.Proofs.Machine.InStep

/-!
# The machine code of integer actions

Each lemma takes one family of code from a state in step with a machine to a state in step with the
machine after the action: moves, the operations that work on memory directly, products, divisions,
shifts and comparisons. `exec_arith` and `exec_action` collect them.
-/

namespace BlockVM.Native

open Isa (Inst)
open Layout (insts)
open X86 (Reg Mem Size Computes execAll)

namespace InStep

variable {x : Site} {m m' : Machine} {s : X86.State View} {i : Inst} {dst src : Operand}
  {a b v : UInt64}

/-! ## Moves -/

/-- A value that is stored as a constant is sign-extended from 32 bits without a change in the bits
that are kept. -/
theorem low_of_storesAsConstant {w : Access} (h : Lower.storesAsConstant w v = true) :
    v.toUInt32.toInt32.toInt64.toUInt64.toNat % 256 ^ w.bytes = v.toNat % 256 ^ w.bytes := by
  have hlow := congrArg UInt32.toNat (toUInt32_signExtended v.toUInt32)
  rw [UInt64.toNat_toUInt32, UInt64.toNat_toUInt32] at hlow
  cases w with
  | byte =>
    show _ % 256 = _ % 256
    omega
  | dword => exact hlow
  | qword =>
    -- Only here is the test of the lowering needed: the constant is extended with its sign.
    simp only [Lower.storesAsConstant, Bool.and_eq_true, decide_eq_true_eq,
      Int64.le_iff_toInt_le] at h
    have hmin : (-0x80000000 : Int64).toInt = -2 ^ 31 := rfl
    have hmax : (0x7fffffff : Int64).toInt = 2 ^ 31 - 1 := rfl
    have hsame : v.toUInt32.toInt32 = v.toInt64.toInt32 := by
      apply Int32.toBitVec_inj.mp
      simp [BitVec.signExtend_eq_setWidth_of_le]
    have hint : v.toUInt32.toInt32.toInt64 = v.toInt64 := by
      apply Int64.toInt_inj.mp
      rw [hsame, Int32.toInt_toInt64, Int64.toInt_toInt32,
        Int.bmod_eq_of_le (by omega) (by omega)]
    rw [hint, UInt64.toUInt64_toInt64]

theorem exec_storeImm (h : InStep x m s) (hosts : x.Hosts m) (hwrite : m.write i dst v = .ok m')
    (hconst : Lower.storesAsConstant dst.width v = true) :
    ∃ s', execAll (insts ((Lower.place dst .r8).1 ++
      [.inst (.storeImm (Lower.moveWidth dst.width) (Lower.place dst .r8).2 v.toUInt32.toInt32)])) s
        = some s' ∧ InStep x m' s' := by
  obtain ⟨y, hpre, haddr⟩ := h.exec_place .r8 rfl (lives_of_write hwrite)
  obtain ⟨mem, hstore, h'⟩ := (h.setReg (r := .r8) rfl y).store_home hosts hwrite
    (low_of_storesAsConstant hconst)
  refine ⟨_, ?_, h'⟩
  rw [Layout.insts_append, X86.execAll_append, hpre]
  show ((X86.storeWord _ (Lower.moveWidth dst.width).bytes _ _).bind _).bind _ = _
  rw [haddr, bytes_moveWidth, hstore]
  rfl

/-- A move goes through the accumulator, unless its source is stored as a constant. -/
theorem exec_move (h : InStep x m s) (hosts : x.Hosts m) (hread : m.read i src = .ok v)
    (hwrite : m.write i dst v = .ok m') :
    ∃ s', execAll (insts (Lower.move dst src)) s = some s' ∧ InStep x m' s' := by
  have through : ∃ s', execAll (insts (Lower.load .rax src ++ Lower.store dst .rax)) s = some s' ∧
      InStep x m' s' := by
    obtain ⟨y, hload⟩ := h.exec_load hosts hread .rax
    have h₁ := (h.setReg (r := .r9) rfl y).setReg (r := .rax) rfl v
    obtain ⟨s', hstore, h'⟩ := h₁.exec_store hosts hwrite (r := .rax) (by decide)
      (by rw [X86.State.reg_setReg_self])
    refine ⟨s', ?_, h'⟩
    rw [Layout.insts_append, X86.execAll_append, hload]
    exact hstore
  cases src with
  | imm u =>
    cases hread
    unfold Lower.move
    dsimp only
    split
    next hconst => exact h.exec_storeImm hosts hwrite hconst
    · exact through
  | reg | freg | global | pointer | fimm => exact through

/-! ## Operations -/

/-- The size of an operation is the width of its destination. -/
theorem bytes_aluSize {w : Access} (h : w ≠ .byte) : (Lower.aluSize w).bytes = w.bytes := by
  cases w with
  | byte => exact absurd rfl h
  | dword | qword => rfl

theorem length_loadBytes {mem : View} {n : Nat} {p : UInt64} {bs : List UInt8}
    (h : X86.loadBytes mem n p = some bs) : bs.length = n := by
  induction n generalizing p bs with
  | zero =>
    cases h
    rfl
  | succ n ih =>
    obtain ⟨byte, -, h⟩ := Option.bind_eq_some_iff.mp h
    obtain ⟨rest, hrest, h⟩ := Option.bind_eq_some_iff.mp h
    cases h
    rw [List.length_cons, ih hrest]

theorem loadWord_lt {mem : View} {n : Nat} {p : UInt64} (hn : n ≤ 8)
    (h : X86.loadWord mem n p = some v) : v.toNat < 256 ^ n := by
  obtain ⟨bs, hbs, rfl⟩ := Option.map_eq_some_iff.mp h
  have hlt := LittleEndian.value_lt bs
  rw [length_loadBytes hbs] at hlt
  have hpow : 256 ^ n ≤ 256 ^ 8 := Nat.pow_le_pow_right (by decide) hn
  rw [LittleEndian.toUInt64, UInt64.toNat_ofNat_of_lt' (Nat.lt_of_lt_of_le hlt hpow)]
  exact hlt

/-- What is loaded at a size fits it. -/
theorem truncate_load {mem : View} {z : Size} {p : UInt64}
    (h : X86.loadWord mem z.bytes p = some v) : z.truncate v = v := by
  cases z with
  | dword =>
    have hlt : v.toNat < 2 ^ 32 := loadWord_lt (by decide) h
    apply UInt64.toNat_inj.mp
    rw [Size.truncate_dword, UInt32.toNat_toUInt64, UInt64.toNat_toUInt32]
    omega
  | qword => rfl

theorem regAt_eq (c : X86.Cpu) (z : Size) (r : Reg) : c.regAt z r = z.truncate (c.reg r) := by
  cases z <;> rfl

theorem setRegAt_eq (s : X86.State View) (z : Size) (r : Reg) (v : UInt64) :
    s.setRegAt z r v = s.setReg r (z.truncate v) := by
  cases z <;> rfl

/-- An operation that works on memory directly. -/
theorem exec_alu {op : X86.AluOp} {f : UInt64 → UInt64 → UInt64} (hf : Computes op f)
    (h : InStep x m s) (hosts : x.Hosts m) (hw : dst.width ≠ .byte) (hdst : m.read i dst = .ok a)
    (hsrc : m.read i src = .ok b) (hwrite : m.write i dst (f a b) = .ok m') :
    ∃ s', execAll (insts (Lower.alu op dst src)) s = some s' ∧ InStep x m' s' := by
  have hlives := lives_of_write hwrite
  obtain ⟨y, hload⟩ := h.exec_load hosts hsrc .rcx
  have h₁ := (h.setReg (r := .r9) rfl y).setReg (r := .rcx) rfl b
  obtain ⟨y', hpre, haddr⟩ := h₁.exec_place .r8 rfl hlives
  have h₂ := h₁.setReg (r := .r8) rfl y'
  have hmem := h₂.load_home hosts hlives hdst
  rw [← bytes_aluSize hw] at hmem
  generalize hs₂ : (((s.setReg .r9 y).setReg .rcx b).setReg .r8 y') = s₂ at *
  have hrcx : s₂.cpu.reg .rcx = b := by
    rw [← hs₂, X86.State.reg_setReg_of_ne _ _ (by decide), X86.State.reg_setReg_self]
  -- The operation is exact on the low bits, and only these are stored.
  obtain ⟨r, fl, hr, hlow⟩ := hf.low (Lower.aluSize dst.width) s₂.cpu.flags a b
  rw [truncate_load hmem] at hr
  obtain ⟨mem, hstore, h'⟩ := h₂.store_home hosts hwrite (u := r) (by
    have := Size.mod_eq_of_truncate hlow
    rwa [bytes_aluSize hw] at this)
  refine ⟨_, ?_, h'.setFlags (some fl)⟩
  show execAll (insts (Lower.load .rcx src ++ (Lower.place dst .r8).1 ++
    [.inst (.aluMemReg op (Lower.aluSize dst.width) (Lower.place dst .r8).2 .rcx)])) s = _
  rw [Layout.insts_append, Layout.insts_append, List.append_assoc, X86.execAll_append, hload,
    Option.bind_some, X86.execAll_append, hpre, Option.bind_some]
  rw [← bytes_aluSize hw] at hstore
  simp only [Layout.insts_cons, Layout.insts_nil, execAll, X86.exec, X86.State.load, haddr, hmem,
    regAt_eq, hrcx, hr, hf.result, Option.bind_eq_bind, Option.bind_some, X86.State.store, hstore,
    ↓reduceIte]
  rfl

/-- Both operands of an operation in registers. -/
theorem exec_loadBoth (h : InStep x m s) (hosts : x.Hosts m) (hdst : m.read i dst = .ok a)
    (hsrc : m.read i src = .ok b) :
    ∃ s', execAll (insts (Lower.load .rax dst ++ Lower.load .rcx src)) s = some s' ∧
      InStep x m s' ∧ s'.cpu.reg .rax = a ∧ s'.cpu.reg .rcx = b := by
  obtain ⟨y, hload⟩ := h.exec_load hosts hdst .rax
  have h₁ := (h.setReg (r := .r9) rfl y).setReg (r := .rax) rfl a
  obtain ⟨y', hload'⟩ := h₁.exec_load hosts hsrc .rcx
  refine ⟨_, ?_, (h₁.setReg (r := .r9) rfl y').setReg (r := .rcx) rfl b, ?_, ?_⟩
  · rw [Layout.insts_append, X86.execAll_append, hload]
    exact hload'
  · rw [X86.State.reg_setReg_of_ne _ _ (by decide), X86.State.reg_setReg_of_ne _ _ (by decide),
      X86.State.reg_setReg_self]
  · rw [X86.State.reg_setReg_self]

/-- A register with the low bits of the result, stored at the width of the destination. -/
theorem exec_store_result (h : InStep x m s) (hosts : x.Hosts m) (hw : dst.width ≠ .byte)
    (hwrite : m.write i dst v = .ok m') {r : Reg}
    (hr : X86.Cpu.slot Reg.r8.num ≠ X86.Cpu.slot r.num)
    (hlow : (Lower.aluSize dst.width).truncate (s.cpu.reg r)
      = (Lower.aluSize dst.width).truncate v) :
    ∃ s', execAll (insts (Lower.store dst r)) s = some s' ∧ InStep x m' s' := by
  apply h.exec_store hosts hwrite hr
  rw [← bytes_aluSize hw]
  exact Size.mod_eq_of_truncate hlow

/-- A product is cut off at the size of its registers, which the store would do as well. -/
theorem exec_multiply (h : InStep x m s) (hosts : x.Hosts m) (hw : dst.width ≠ .byte)
    (hdst : m.read i dst = .ok a) (hsrc : m.read i src = .ok b)
    (hwrite : m.write i dst (a * b) = .ok m') :
    ∃ s', execAll (insts (Lower.multiply dst src)) s = some s' ∧ InStep x m' s' := by
  obtain ⟨s₁, hload, h₁, hrax, hrcx⟩ := h.exec_loadBoth hosts hdst hsrc
  let z := Lower.aluSize dst.width
  have h₂ := (h₁.setReg (r := .rax) rfl (z.truncate (z.truncate a * z.truncate b))).setFlags none
  obtain ⟨s', hstore, h'⟩ := h₂.exec_store_result hosts hw hwrite (r := .rax) (by decide) (by
    rw [X86.State.setFlags_reg, X86.State.reg_setReg_self, Size.truncate_truncate,
      Size.truncate_mul])
  refine ⟨s', ?_, h'⟩
  unfold Lower.multiply
  rw [List.append_assoc, Layout.insts_append, X86.execAll_append]
  show (execAll (insts (Lower.load .rax dst ++ Lower.load .rcx src)) s).bind _ = _
  rw [hload, Option.bind_some]
  simp only [Layout.insts_cons, List.cons_append, List.nil_append, execAll, X86.exec]
  show execAll _ ((s₁.setRegAt z .rax (s₁.cpu.regAt z .rax * s₁.cpu.regAt z .rcx)).setFlags none) =
    _
  rw [setRegAt_eq, regAt_eq, regAt_eq, hrax, hrcx]
  exact hstore

/-! ## Divisions -/

/-- A division that the machine makes is one that the processor makes. -/
theorem divide_of_ok {remainder : Bool} {w : Access} (hw : w ≠ .byte)
    (h : divide i remainder w a b = .ok v) :
    ∃ q r, X86.divide (Lower.aluSize w) (X86.signHalf (Lower.aluSize w) a)
        ((Lower.aluSize w).truncate a) ((Lower.aluSize w).truncate b) = some (q, r) ∧
      v = if remainder then r else q := by
  cases w with
  | byte => exact absurd rfl hw
  | dword =>
    simp only [divide, divide32] at h
    split at h
    · cases h
    next hok =>
      -- What the evaluator rejects is what the processor traps on.
      obtain ⟨hzero, hmin⟩ := not_or.mp hok
      cases h
      refine ⟨_, _, X86.divide_dword hzero hmin, ?_⟩
      cases remainder <;> rfl
  | qword =>
    simp only [divide, divide64] at h
    split at h
    · cases h
    next hok =>
      obtain ⟨hzero, hmin⟩ := not_or.mp hok
      cases h
      refine ⟨_, _, X86.divide_qword hzero hmin, ?_⟩
      cases remainder <;> rfl

def widen : Size → X86.Inst
  | .qword => .cqo
  | .dword => .cdq

/-- Widening fills the upper half of the dividend with its sign. -/
theorem exec_widen {z : Size} (h : s.cpu.reg .rax = a) :
    ∃ y, X86.exec (widen z) s = some (s.setReg .rdx y) ∧ z.truncate y = X86.signHalf z a := by
  cases z with
  | dword =>
    refine ⟨_, rfl, ?_⟩
    rw [regAt_eq, h, X86.signHalf]
    split <;> rfl
  | qword =>
    refine ⟨_, rfl, ?_⟩
    rw [h]
    rfl

/-- The division leaves quotient and remainder in their registers. -/
theorem exec_idiv {z : Size} {q r : UInt64} (h : InStep x m s) (hrax : s.cpu.reg .rax = a)
    (hrcx : s.cpu.reg .rcx = b)
    (hdiv : X86.divide z (X86.signHalf z a) (z.truncate a) (z.truncate b) = some (q, r)) :
    ∃ s', execAll [widen z, .idiv z .rcx] s = some s' ∧ InStep x m s' ∧
      s'.cpu.reg .rax = z.truncate q ∧ s'.cpu.reg .rdx = z.truncate r := by
  obtain ⟨y, hwiden, hy⟩ := exec_widen (z := z) hrax
  have hrax' : (s.setReg .rdx y).cpu.reg .rax = a :=
    (s.reg_setReg_of_ne _ (by decide)).trans hrax
  have hrcx' : (s.setReg .rdx y).cpu.reg .rcx = b :=
    (s.reg_setReg_of_ne _ (by decide)).trans hrcx
  have h' := (((h.setReg (r := .rdx) rfl y).setReg (r := .rax) rfl (z.truncate q)).setReg
    (r := .rdx) rfl (z.truncate r)).setFlags none
  refine ⟨_, ?_, h', ?_, ?_⟩
  · rw [execAll, hwiden, Option.bind_some, execAll, X86.exec]
    simp only [regAt_eq, hrax', hrcx', X86.State.reg_setReg_self, hy, hdiv, Option.bind_eq_bind,
      Option.bind_some, setRegAt_eq]
    rfl
  · rw [X86.State.setFlags_reg, X86.State.reg_setReg_of_ne _ _ (by decide),
      X86.State.reg_setReg_self]
  · rw [X86.State.setFlags_reg, X86.State.reg_setReg_self]

/-- Where the machine's division has a result, the processor's has the same. -/
theorem exec_divide (remainder : Bool) (h : InStep x m s) (hosts : x.Hosts m)
    (hw : dst.width ≠ .byte) (hdst : m.read i dst = .ok a) (hsrc : m.read i src = .ok b)
    (hdiv : divide i remainder dst.width a b = .ok v) (hwrite : m.write i dst v = .ok m') :
    ∃ s', execAll (insts (Lower.divide (if remainder then .rdx else .rax) dst src)) s = some s' ∧
      InStep x m' s' := by
  obtain ⟨s₁, hload, h₁, hrax, hrcx⟩ := h.exec_loadBoth hosts hdst hsrc
  obtain ⟨q, r, hqr, rfl⟩ := divide_of_ok hw hdiv
  obtain ⟨s₂, hidiv, h₂, hq, hr⟩ := h₁.exec_idiv hrax hrcx hqr
  obtain ⟨s', hstore, h'⟩ := h₂.exec_store_result hosts hw hwrite
    (r := if remainder then .rdx else .rax) (by cases remainder <;> decide) (by
      cases remainder
      · simp only [Bool.false_eq_true, ↓reduceIte, hq, Size.truncate_truncate]
      · simp only [↓reduceIte, hr, Size.truncate_truncate])
  refine ⟨s', ?_, h'⟩
  have hcode : Lower.divide (if remainder then .rdx else .rax) dst src =
      (Lower.load .rax dst ++ Lower.load .rcx src) ++
        ([.inst (widen (Lower.aluSize dst.width)), .inst (.idiv (Lower.aluSize dst.width) .rcx)] ++
          Lower.store dst (if remainder then .rdx else .rax)) := by
    unfold Lower.divide widen
    rw [List.append_assoc]
    rfl
  rw [hcode, Layout.insts_append, X86.execAll_append, hload, Option.bind_some, Layout.insts_append,
    X86.execAll_append]
  show (execAll [widen (Lower.aluSize dst.width), .idiv (Lower.aluSize dst.width) .rcx] s₁).bind _ =
    _
  rw [hidiv]
  exact hstore

/-! ## Shifts -/

/-- The shift computes a function of whole words, of which it keeps the low bits. -/
def Shifts (op : X86.ShiftOp) (f : Size → UInt64 → UInt64 → UInt64) : Prop :=
  ∀ z a b, ∃ r, X86.shift op z (z.truncate a) (b.toUInt8 &&& z.countMask) = some r ∧
    z.truncate r = z.truncate (f z a b)

/-- A left shift on the whole register and one on its lower part agree in the bits that are kept. -/
theorem shifts_shl : Shifts .shl fun z a b => a <<< z.count b := by
  intro z a b
  refine ⟨_, rfl, ?_⟩
  rw [X86.toUInt64_and_countMask, Size.truncate_truncate, X86.truncate_shiftLeft]

/-- A right shift does not: its value is cut off first. -/
theorem shifts_shr : Shifts .shr fun z a b => z.truncate a >>> z.count b := by
  intro z a b
  refine ⟨_, rfl, ?_⟩
  rw [X86.toUInt64_and_countMask]

theorem exec_shiftImm {op : X86.ShiftOp} {z : Size} {r : UInt64} (h : InStep x m s)
    (hrax : s.cpu.reg .rax = a)
    (hr : X86.shift op z (z.truncate a) (b.toUInt8 &&& z.countMask) = some r) :
    ∃ s', X86.exec (.shiftImm op z .rax (b.toUInt8 &&& z.countMask)) s = some s' ∧
      InStep x m s' ∧ s'.cpu.reg .rax = z.truncate r := by
  have hmask : b.toUInt8 &&& z.countMask &&& z.countMask = b.toUInt8 &&& z.countMask := by
    rw [UInt8.and_assoc, UInt8.and_self]
  refine ⟨_, ?_, (h.setReg (r := .rax) rfl (z.truncate r)).setFlags
    (if b.toUInt8 &&& z.countMask = 0 then s.cpu.flags else none), ?_⟩
  · rw [X86.exec]
    simp only [hmask, regAt_eq, hrax, hr, Option.bind_eq_bind, Option.bind_some, setRegAt_eq]
    rfl
  · rw [X86.State.setFlags_reg, X86.State.reg_setReg_self]

theorem exec_shiftCl {op : X86.ShiftOp} {z : Size} {r : UInt64} (h : InStep x m s)
    (hrax : s.cpu.reg .rax = a) (hrcx : s.cpu.reg .rcx = b)
    (hr : X86.shift op z (z.truncate a) (b.toUInt8 &&& z.countMask) = some r) :
    ∃ s', X86.exec (.shiftCl op z .rax) s = some s' ∧ InStep x m s' ∧
      s'.cpu.reg .rax = z.truncate r := by
  refine ⟨_, ?_, (h.setReg (r := .rax) rfl (z.truncate r)).setFlags
    (if b.toUInt8 &&& z.countMask = 0 then s.cpu.flags else none), ?_⟩
  · rw [X86.exec]
    simp only [hrcx, regAt_eq, hrax, hr, Option.bind_eq_bind, Option.bind_some, setRegAt_eq]
    rfl
  · rw [X86.State.setFlags_reg, X86.State.reg_setReg_self]

/-- The code between the load of the operand and the store of the result. -/
def shiftBy (op : X86.ShiftOp) (z : Size) : Operand → List Item
  | .imm v => [.inst (.shiftImm op z .rax (v.toUInt8 &&& z.countMask))]
  | count => Lower.load .rcx count ++ [.inst (.shiftCl op z .rax)]

theorem shift_eq (op : X86.ShiftOp) (dst count : Operand) :
    Lower.shift op dst count =
      Lower.load .rax dst ++ shiftBy op (Lower.aluSize dst.width) count ++
      Lower.store dst .rax := by
  cases count <;> rfl

theorem exec_shifted {op : X86.ShiftOp} {f : Size → UInt64 → UInt64 → UInt64} (hf : Shifts op f)
    (h : InStep x m s) (hosts : x.Hosts m) (z : Size) (hdst : m.read i dst = .ok a)
    (hsrc : m.read i src = .ok b) :
    ∃ s', execAll (insts (Lower.load .rax dst ++ shiftBy op z src)) s = some s' ∧
      InStep x m s' ∧ z.truncate (s'.cpu.reg .rax) = z.truncate (f z a b) := by
  obtain ⟨r, hr, hlow⟩ := hf z a b
  -- Every count but a constant goes through `cl`.
  have byRegister : ∃ s', execAll (insts (Lower.load .rax dst ++ (Lower.load .rcx src ++
      [.inst (.shiftCl op z .rax)]))) s = some s' ∧
      InStep x m s' ∧ z.truncate (s'.cpu.reg .rax) = z.truncate (f z a b) := by
    obtain ⟨s₁, hload, h₁, hrax, hrcx⟩ := h.exec_loadBoth hosts hdst hsrc
    obtain ⟨s₂, hshift, h₂, hres⟩ := h₁.exec_shiftCl hrax hrcx hr
    refine ⟨s₂, ?_, h₂, by rw [hres, Size.truncate_truncate, hlow]⟩
    rw [← List.append_assoc, Layout.insts_append, X86.execAll_append, hload]
    show (X86.exec (.shiftCl op z .rax) s₁).bind some = _
    rw [hshift]
    rfl
  cases src with
  | imm u =>
    cases hsrc
    obtain ⟨y, hload⟩ := h.exec_load hosts hdst .rax
    have h₁ := (h.setReg (r := .r9) rfl y).setReg (r := .rax) rfl a
    obtain ⟨s₂, hshift, h₂, hres⟩ := h₁.exec_shiftImm (X86.State.reg_setReg_self ..) hr
    refine ⟨s₂, ?_, h₂, by rw [hres, Size.truncate_truncate, hlow]⟩
    rw [Layout.insts_append, X86.execAll_append, hload]
    show (X86.exec (.shiftImm op z .rax (b.toUInt8 &&& z.countMask)) _).bind some = _
    rw [hshift]
    rfl
  | reg | freg | global | pointer | fimm => exact byRegister

theorem exec_shift {op : X86.ShiftOp} {f : Size → UInt64 → UInt64 → UInt64} (hf : Shifts op f)
    (h : InStep x m s) (hosts : x.Hosts m) (hw : dst.width ≠ .byte) (hdst : m.read i dst = .ok a)
    (hsrc : m.read i src = .ok b)
    (hwrite : m.write i dst (f (Lower.aluSize dst.width) a b) = .ok m') :
    ∃ s', execAll (insts (Lower.shift op dst src)) s = some s' ∧ InStep x m' s' := by
  obtain ⟨s₁, hshift, h₁, hlow⟩ := h.exec_shifted hf hosts (Lower.aluSize dst.width) hdst hsrc
  obtain ⟨s', hstore, h'⟩ := h₁.exec_store_result hosts hw hwrite (r := .rax) (by decide) hlow
  refine ⟨s', ?_, h'⟩
  rw [shift_eq, Layout.insts_append, X86.execAll_append, hshift]
  exact hstore

/-! ## Comparisons -/

/-- The condition of a relation after a comparison. -/
theorem holds_signedCond (rel : Relation) (a b : UInt64) :
    (Lower.signedCond rel).holds
        (X86.subBorrow .dword (Size.truncate .dword a) (Size.truncate .dword b) false).2
      = rel.holds a.toUInt32.toInt32 b.toUInt32.toInt32 := by
  -- All conditions are read off two facts about the flags of a subtraction.
  have hless := X86.less_dword a b
  have hequal := X86.equal_dword a b
  generalize (X86.subBorrow .dword (Size.truncate .dword a) (Size.truncate .dword b) false).2 = f
    at hless hequal ⊢
  cases rel with
  | equal => exact hequal
  | notEqual =>
    show (!f.zf) = _
    rw [hequal]
    rfl
  | less => exact hless
  | greaterEqual =>
    show (!(f.sf != f.of)) = _
    rw [hless, ← decide_not]
    exact decide_eq_decide.mpr Int32.not_lt
  | lessEqual =>
    show (f.zf || f.sf != f.of) = _
    rw [hequal, hless, Relation.holds, Bool.eq_iff_iff]
    simp only [Bool.or_eq_true, beq_iff_eq, decide_eq_true_eq, Int32.le_iff_toInt_le,
      Int32.lt_iff_toInt_lt, ← Int32.toInt_inj]
    omega
  | greater =>
    show (!(f.zf || f.sf != f.of)) = _
    rw [hequal, hless, Relation.holds, Bool.eq_iff_iff]
    simp only [Bool.not_eq_true', Bool.or_eq_false_iff, beq_eq_false_iff_ne, ne_eq,
      decide_eq_false_iff_not, decide_eq_true_eq, Int32.lt_iff_toInt_lt, ← Int32.toInt_inj]
    omega

/-- The code that sets the flags of a comparison with `rax`. -/
def compareWith : Operand → List Item
  | .reg r => [.inst (.aluRegMem .cmp .dword .rax (Lower.regSlot r))]
  | src => Lower.load .rcx src ++ [.inst (.aluRegReg .cmp .dword .rax .rcx)]

theorem compare_eq (rel : Relation) (dst src : Operand) :
    Lower.compare rel dst src = Lower.load .rax dst ++ compareWith src ++
      Lower.storeCondition (Lower.signedCond rel) dst := by
  cases src <;> rfl

/-- The two halves of a comparison before its condition is stored. -/
theorem exec_compareWith (h : InStep x m s) (hosts : x.Hosts m) (hdst : m.read i dst = .ok a)
    (hsrc : m.read i src = .ok b) :
    ∃ s', execAll (insts (Lower.load .rax dst ++ compareWith src)) s = some s' ∧ InStep x m s' ∧
      s'.cpu.flags =
        some (X86.subBorrow .dword (Size.truncate .dword a) (Size.truncate .dword b) false).2 := by
  -- Every source but a register is compared through `rcx`.
  have byRegister : ∃ s', execAll (insts (Lower.load .rax dst ++ (Lower.load .rcx src ++
      [.inst (.aluRegReg .cmp .dword .rax .rcx)]))) s = some s' ∧ InStep x m s' ∧ s'.cpu.flags =
        some (X86.subBorrow .dword (Size.truncate .dword a) (Size.truncate .dword b) false).2 := by
    obtain ⟨s₁, hload, h₁, hrax, hrcx⟩ := h.exec_loadBoth hosts hdst hsrc
    refine ⟨_, ?_, h₁.setFlags
      (some (X86.subBorrow .dword (Size.truncate .dword a) (Size.truncate .dword b) false).2), rfl⟩
    rw [← List.append_assoc, Layout.insts_append, X86.execAll_append, hload, Option.bind_some]
    simp only [Layout.insts_cons, Layout.insts_nil, execAll, X86.exec, regAt_eq, hrax, hrcx,
      X86.alu_cmp, Option.bind_eq_bind, Option.bind_some, ↓reduceIte]
    rfl
  cases src with
  | reg r =>
    cases hsrc
    obtain ⟨y, hload⟩ := h.exec_load hosts hdst .rax
    have h₁ := (h.setReg (r := .r9) rfl y).setReg (r := .rax) rfl a
    have hmem := h₁.load_int r (n := Size.bytes .dword) (by decide)
    rw [Size.ofNat_mod_bytes] at hmem
    refine ⟨_, ?_, h₁.setFlags (some (X86.subBorrow .dword (Size.truncate .dword a)
      (Size.truncate .dword (m.core.regs.int r)) false).2), rfl⟩
    rw [Layout.insts_append, X86.execAll_append, hload, Option.bind_some]
    simp only [compareWith, Layout.insts_cons, Layout.insts_nil, execAll, X86.exec, X86.State.load,
      address_regSlot h₁.file, hmem, regAt_eq, X86.State.reg_setReg_self, X86.alu_cmp,
      Option.bind_eq_bind, Option.bind_some, ↓reduceIte]
    rfl
  | imm | freg | global | pointer | fimm => exact byRegister

/-- The low byte of a register, once it was replaced. -/
theorem lowByte_truth (v : UInt64) (c : Bool) :
    (v &&& 0xffffffffffffff00 ||| c.toUInt8.toUInt64) &&& 0xff = truth c := by
  have hsplit : (v &&& 0xffffffffffffff00 ||| c.toUInt8.toUInt64) &&& 0xff =
      v &&& 0xffffffffffffff00 &&& 0xff ||| c.toUInt8.toUInt64 &&& 0xff :=
    UInt64.toBitVec_inj.mp BitVec.and_or_distrib_right
  rw [hsplit, UInt64.and_assoc, show (0xffffffffffffff00 : UInt64) &&& 0xff = 0 from rfl,
    UInt64.and_zero, UInt64.zero_or]
  cases c <;> rfl

theorem exec_storeCondition {c : X86.Cond} {f : X86.Flags} (h : InStep x m s) (hosts : x.Hosts m)
    (hflags : s.cpu.flags = some f) (hwrite : m.write i dst (truth (c.holds f)) = .ok m') :
    ∃ s', execAll (insts (Lower.storeCondition c dst)) s = some s' ∧ InStep x m' s' := by
  let low := s.cpu.reg .rax &&& 0xffffffffffffff00 ||| (c.holds f).toUInt8.toUInt64
  have h₁ := (h.setReg (r := .rax) rfl low).setReg (r := .rax) rfl (truth (c.holds f))
  obtain ⟨s', hstore, h'⟩ := h₁.exec_store hosts hwrite (r := .rax) (by decide)
    (by rw [X86.State.reg_setReg_self])
  refine ⟨s', ?_, h'⟩
  have hset : X86.exec (.setcc c .rax) s = some (s.setReg .rax low) := by
    simp only [X86.exec, hflags, Option.bind_eq_bind, Option.bind_some]
    rfl
  have hzero : X86.exec (.movzxByte .rax .rax) (s.setReg .rax low) =
      some ((s.setReg .rax low).setReg .rax (truth (c.holds f))) := by
    simp only [X86.exec, X86.State.reg_setReg_self, low, lowByte_truth]
  show (X86.exec (.setcc c .rax) s).bind (fun s => (X86.exec (.movzxByte .rax .rax) s).bind
    (execAll (insts (Lower.store dst .rax)))) = _
  rw [hset, Option.bind_some, hzero]
  exact hstore

/-- The condition of the comparison is the relation of the operands as signed 32-bit numbers. -/
theorem exec_compare {rel : Relation} (h : InStep x m s) (hosts : x.Hosts m)
    (hdst : m.read i dst = .ok a) (hsrc : m.read i src = .ok b)
    (hwrite : m.write i dst (truth (rel.holds a.toUInt32.toInt32 b.toUInt32.toInt32)) = .ok m') :
    ∃ s', execAll (insts (Lower.compare rel dst src)) s = some s' ∧ InStep x m' s' := by
  obtain ⟨s₁, hcmp, h₁, hflags⟩ := h.exec_compareWith hosts hdst hsrc
  rw [← holds_signedCond] at hwrite
  obtain ⟨s', hstore, h'⟩ := h₁.exec_storeCondition hosts hflags hwrite
  refine ⟨s', ?_, h'⟩
  rw [compare_eq, Layout.insts_append, X86.execAll_append, hcmp]
  exact hstore

/-! ## All of them -/

theorem shiftCount_eq {w : Access} (hw : w ≠ .byte) (b : UInt64) :
    shiftCount w b = (Lower.aluSize w).count b := by
  cases w with
  | byte => exact absurd rfl hw
  | dword | qword => rfl

/-- The machine code of an operation does what the machine does. -/
theorem exec_arith {op : ArithOp} (h : InStep x m s) (hosts : x.Hosts m) (hw : dst.width ≠ .byte)
    (hdst : m.read i dst = .ok a) (hsrc : m.read i src = .ok b)
    (hres : BlockVM.arith i op dst.width a b = .ok v) (hwrite : m.write i dst v = .ok m') :
    ∃ s', execAll (insts (Lower.arith op dst src)) s = some s' ∧ InStep x m' s' := by
  cases op with
  | add =>
    cases hres
    exact exec_alu X86.computes_add h hosts hw hdst hsrc hwrite
  | sub =>
    cases hres
    exact exec_alu X86.computes_sub h hosts hw hdst hsrc hwrite
  | and =>
    cases hres
    exact exec_alu X86.computes_and h hosts hw hdst hsrc hwrite
  | or =>
    cases hres
    exact exec_alu X86.computes_or h hosts hw hdst hsrc hwrite
  | xor =>
    cases hres
    exact exec_alu X86.computes_xor h hosts hw hdst hsrc hwrite
  | mul =>
    cases hres
    exact h.exec_multiply hosts hw hdst hsrc hwrite
  | div => exact exec_divide false h hosts hw hdst hsrc hres hwrite
  | mod => exact exec_divide true h hosts hw hdst hsrc hres hwrite
  | shl =>
    cases hres
    rw [shiftCount_eq hw] at hwrite
    exact exec_shift shifts_shl h hosts hw hdst hsrc hwrite
  | shr =>
    -- A shift to the right does not see what lies above its width.
    have hv : v = (Lower.aluSize dst.width).truncate a >>> (Lower.aluSize dst.width).count b := by
      rw [← shiftCount_eq hw]
      cases hwidth : dst.width with
      | byte => exact absurd hwidth hw
      | dword =>
        rw [hwidth] at hres
        cases hres
        rw [show Lower.aluSize .dword = .dword from rfl, Size.truncate_dword]
      | qword =>
        rw [hwidth] at hres
        cases hres
        rfl
    subst hv
    exact exec_shift shifts_shr h hosts hw hdst hsrc hwrite

end InStep

end BlockVM.Native
