import BlockVM.Proofs.Machine.Atomic
import BlockVM.Proofs.Machine.InStep

/-!
# The machine code of stack actions

A stack action checks the offset of its range and then transfers the registers. The transfer of one
register is a load and a store; that of a range is a string move, which borrows `rdi` and therefore
saves it below the scratch frame. `copyUp_store` and `copyUp_load` say that a string move does what
the machine's own loops over the range do; `exec_transfer` collects all transfers.
-/

namespace BlockVM.Native

open Isa (Inst)
open Layout (insts)
open Machine (slotSize storeRange loadRange)
open X86 (Reg Mem Size copyUp execAll)

/-! ## Ranges of registers -/

def slotAddress (x : Site) (float : Bool) (k : Nat) : UInt64 :=
  x.place.file + UInt64.ofNat (if float then 2048 + 4 * k else 8 * k)

def slotBytes (float : Bool) : Nat := (slotSize float).toNatClampNeg

theorem bytes_slotWidth (r : RegRange) : (Lower.slotWidth r).bytes = slotBytes r.float := by
  unfold Lower.slotWidth
  cases r.float <;> rfl

/-- The slots of a register file follow one another. -/
theorem slotAddress_succ (x : Site) (float : Bool) (k : Nat) :
    slotAddress x float k + UInt64.ofNat (slotBytes float) = slotAddress x float (k + 1) := by
  unfold slotAddress
  rw [UInt64.add_assoc, ← UInt64.ofNat_add]
  cases float with
  | false =>
    show _ + UInt64.ofNat (8 * k + 8) = _
    rfl
  | true =>
    show _ + UInt64.ofNat (2048 + 4 * k + 4) = _
    rfl

theorem stackAddress_succ (base : UInt64) (off : Int64) (float : Bool) :
    base + off.toUInt64 + UInt64.ofNat (slotBytes float) =
    base + (off + slotSize float).toUInt64 := by
  rw [Int64.toUInt64_add, UInt64.add_assoc]
  cases float <;> rfl

namespace Mirrors

variable {x : Site} {m : Machine} {v : View}

/-- A slot of either file, by the number of the register. -/
theorem load_slot (h : Mirrors x m v) (float : Bool) {k : Nat} (hk : k < 256) :
    X86.loadWord v (slotBytes float) (slotAddress x float k) =
      some (m.core.regs.bits float (UInt8.ofNat k)) := by
  have hnum : (UInt8.ofNat k).toNat = k := UInt8.toNat_ofNat_of_lt' hk
  cases float with
  | false =>
    have := h.load_int_qword (UInt8.ofNat k)
    rwa [hnum] at this
  | true =>
    have := h.load_float (UInt8.ofNat k)
    rwa [hnum] at this

theorem store_slot (h : Mirrors x m v) (float : Bool) {k : Nat} (hk : k < 256) (u : UInt64) :
    X86.storeWord v (slotBytes float) (slotAddress x float k) u =
      some { v with regs := m.core.regs.setBits float (UInt8.ofNat k) u } := by
  have hnum : (UInt8.ofNat k).toNat = k := UInt8.toNat_ofNat_of_lt' hk
  cases float with
  | false =>
    have := h.store_int (UInt8.ofNat k) u
    rwa [hnum] at this
  | true =>
    have := h.store_float (UInt8.ofNat k) u
    rwa [hnum] at this

/-- A word on the stack that the machine reads. -/
theorem load_stack (h : Mirrors x m v) (hosts : x.Hosts m) {off : Int64} {float : Bool} {u : UInt64}
    (hread : m.core.stack.read m.memory off (slotSize float) = .ok u) :
    X86.loadWord v (slotBytes float) (m.core.stack.base + off.toUInt64) = some u := by
  have hstack := hosts.backed _ hosts.stack
  obtain ⟨hin, rfl⟩ := Arena.read_eq_ok hstack.size_lt hread
  have hload := View.loadWord_within (h.apart hosts) (h.arenas ▸ hosts.stack) hstack hin
  rwa [h.memory] at hload

/-- A word on the stack that the machine writes. -/
theorem store_stack (h : Mirrors x m v) (hosts : x.Hosts m) {off : Int64} {float : Bool}
    {u : UInt64} {memory : Memory}
    (hwrite : m.core.stack.write m.memory off (slotSize float) u = .ok memory) :
    X86.storeWord v (slotBytes float) (m.core.stack.base + off.toUInt64) u =
      some { v with memory := memory } := by
  have hstack := hosts.backed _ hosts.stack
  obtain ⟨hin, rfl⟩ := Arena.write_eq_ok hstack.size_lt hwrite
  have hstore := View.storeWord_within (h.apart hosts) (h.arenas ▸ hosts.stack) hstack hin u
  rwa [h.memory] at hstore

end Mirrors

/-! ## String moves -/

/-- The register is none of those that a string move changes. -/
def isKept (q : Reg) : Bool :=
  X86.Cpu.slot Reg.rsi.num != X86.Cpu.slot q.num &&
    X86.Cpu.slot Reg.rdi.num != X86.Cpu.slot q.num &&
    X86.Cpu.slot Reg.rcx.num != X86.Cpu.slot q.num

def moveOne (s : X86.State View) (mem : View) (n : Nat) : X86.State View :=
  let s' :=
    (({ s with mem := mem } : X86.State View).setReg .rsi (s.cpu.reg .rsi + UInt64.ofNat n)).setReg
    .rdi (s.cpu.reg .rdi + UInt64.ofNat n)
  s'.setReg .rcx (s'.cpu.reg .rcx - 1)

theorem copyUp_succ {s : X86.State View} {mem : View} {n k : Nat} {u : UInt64}
    (hload : X86.loadWord s.mem n (s.cpu.reg .rsi) = some u)
    (hstore : X86.storeWord s.mem n (s.cpu.reg .rdi) u = some mem) :
    copyUp n (k + 1) s = copyUp n k (moveOne s mem n) := by
  rw [copyUp, hload, Option.bind_eq_bind, Option.bind_some, hstore]
  rfl

theorem moveOne_rsi (s : X86.State View) (mem : View) (n : Nat) :
    (moveOne s mem n).cpu.reg .rsi = s.cpu.reg .rsi + UInt64.ofNat n := by
  rw [moveOne, X86.State.reg_setReg_of_ne _ _ (by decide),
    X86.State.reg_setReg_of_ne _ _ (by decide), X86.State.reg_setReg_self]

theorem moveOne_rdi (s : X86.State View) (mem : View) (n : Nat) :
    (moveOne s mem n).cpu.reg .rdi = s.cpu.reg .rdi + UInt64.ofNat n := by
  rw [moveOne, X86.State.reg_setReg_of_ne _ _ (by decide), X86.State.reg_setReg_self]

/-- A round leaves the registers alone that it does not move. -/
theorem moveOne_kept (s : X86.State View) (mem : View) (n : Nat) {q : Reg} (h : isKept q = true) :
    (moveOne s mem n).cpu.reg q = s.cpu.reg q := by
  simp only [isKept, Bool.and_eq_true, bne_iff_ne] at h
  obtain ⟨⟨h₁, h₂⟩, h₃⟩ := h
  rw [moveOne, X86.State.reg_setReg_of_ne _ _ h₃, X86.State.reg_setReg_of_ne _ _ h₂,
    X86.State.reg_setReg_of_ne _ _ h₁]

section
variable {x : Site} {m : Machine} {s : X86.State View} {float : Bool} {off : Int64} {n k : Nat}

/-- A string move from the register file to the stack is what the machine's loop does. -/
theorem copyUp_store {memory : Memory} (h : Mirrors x m s.mem) (hosts : x.Hosts m)
    (hk : k + n ≤ 256) (hrsi : s.cpu.reg .rsi = slotAddress x float k)
    (hrdi : s.cpu.reg .rdi = m.core.stack.base + off.toUInt64)
    (hstore : storeRange m.core.stack m.core.regs float n (UInt8.ofNat k) off m.memory
      = (memory, none)) :
    ∃ s', copyUp (slotBytes float) n s = some s' ∧ s'.mem = { s.mem with memory := memory } ∧
      ∀ q, isKept q = true → s'.cpu.reg q = s.cpu.reg q := by
  -- One element of the move is one round of the machine's loop, and both sides go up by a slot.
  induction n generalizing m s off k with
  | zero =>
    cases hstore
    exact ⟨s, rfl, by rw [← h.memory], fun _ _ => rfl⟩
  | succ n ih =>
    unfold storeRange at hstore
    split at hstore
    · cases hstore
    next memory₁ hwrite =>
      have hload := h.load_slot float (k := k) (by omega)
      rw [← hrsi] at hload
      have hword := h.store_stack hosts hwrite
      rw [← hrdi] at hword
      let mem₁ : View := { s.mem with memory := memory₁ }
      obtain ⟨s', hcopy, hmem, hkept⟩ := ih (m := m.setMemory memory₁)
        (s := moveOne s mem₁ (slotBytes float)) (k := k + 1)
        (h.setMemory memory₁) (hosts.setMemory memory₁) (by omega)
        (by rw [moveOne_rsi, hrsi, slotAddress_succ])
        (by rw [moveOne_rdi, hrdi, stackAddress_succ]; rfl)
        (by rw [UInt8.ofNat_add]; exact hstore)
      refine ⟨s', ?_, hmem, fun q hq => (hkept q hq).trans (moveOne_kept s mem₁ _ hq)⟩
      rw [copyUp_succ hload hword]
      exact hcopy

/-- A string move from the stack to the register file is what the machine's loop does. -/
theorem copyUp_load {regs : Registers} (h : Mirrors x m s.mem) (hosts : x.Hosts m)
    (hk : k + n ≤ 256) (hrsi : s.cpu.reg .rsi = m.core.stack.base + off.toUInt64)
    (hrdi : s.cpu.reg .rdi = slotAddress x float k)
    (hload : loadRange m.core.stack m.memory float n (UInt8.ofNat k) off m.core.regs
      = (regs, none)) :
    ∃ s', copyUp (slotBytes float) n s = some s' ∧ s'.mem = { s.mem with regs := regs } ∧
      ∀ q, isKept q = true → s'.cpu.reg q = s.cpu.reg q := by
  induction n generalizing m s off k with
  | zero =>
    cases hload
    exact ⟨s, rfl, by rw [← h.regs], fun _ _ => rfl⟩
  | succ n ih =>
    unfold loadRange at hload
    split at hload
    · cases hload
    next u hread =>
      have hword := h.load_stack hosts hread
      rw [← hrsi] at hword
      have hstore := h.store_slot float (k := k) (by omega) u
      rw [← hrdi] at hstore
      let regs₁ := m.core.regs.setBits float (UInt8.ofNat k) u
      let mem₁ : View := { s.mem with regs := regs₁ }
      -- The rest is copied from the next slot on, by the machine in which this one is restored.
      obtain ⟨s', hcopy, hmem, hkept⟩ := ih (m := m.setRegs regs₁)
        (s := moveOne s mem₁ (slotBytes float)) (k := k + 1)
        (h.setRegs regs₁) (hosts.setRegs regs₁) (by omega)
        (by rw [moveOne_rsi, hrsi, stackAddress_succ]; rfl)
        (by rw [moveOne_rdi, hrdi, slotAddress_succ])
        (by rw [UInt8.ofNat_add]; exact hload)
      refine ⟨s', ?_, hmem, fun q hq => (hkept q hq).trans (moveOne_kept s mem₁ _ hq)⟩
      rw [copyUp_succ hword hstore]
      exact hcopy

end

/-! ## The stack pointer -/

namespace InStep

variable {x : Site} {m m' : Machine} {s : X86.State View} {r : RegRange} {off : Int64}

theorem exec_loadPointer (h : InStep x m s) :
    execAll (insts [Lower.loadPointer]) s = some (s.setReg .rax m.core.regs.sp.toUInt64) := by
  simp only [Lower.loadPointer, Layout.insts_cons, Layout.insts_nil, execAll, X86.exec,
    X86.State.load, address_spSlot h.file, X86.Width.bytes, h.load_sp, Option.bind_eq_bind,
    Option.bind_some]
  rfl

theorem immediate_qword {n : Nat} (hn : n < 4096) :
    X86.immediate .qword (Int32.ofNat n) = UInt64.ofNat n := toUInt64_offset (by omega)

/-- A pop computes the offset below its range first. -/
theorem exec_lowerPointer (s : X86.State View) {n : Nat} (hn : n < 4096) :
    ∃ f, execAll (insts [Lower.lowerPointer n]) s =
      some ((s.setReg .rax (s.cpu.reg .rax - UInt64.ofNat n)).setFlags f) := by
  obtain ⟨f, hsub⟩ := X86.computes_sub.qword s.cpu.flags (s.cpu.reg .rax) (UInt64.ofNat n)
  refine ⟨some f, ?_⟩
  have hreg : s.cpu.regAt .qword Lower.acc = s.cpu.reg .rax := rfl
  simp only [Lower.lowerPointer, Layout.insts_cons, Layout.insts_nil, execAll, X86.exec,
    immediate_qword hn, hreg, hsub, Option.bind_eq_bind, Option.bind_some]
  rfl

/-- A push moves the stack pointer when all is stored. -/
theorem exec_growPointer (h : InStep x m s) {n : Nat} (hn : n < 4096) :
    ∃ s', execAll (insts [Lower.growPointer n]) s = some s' ∧
      InStep x (m.setSp (m.core.regs.sp + Int64.ofNat n)) s' := by
  obtain ⟨f, hadd⟩ :=
    X86.computes_add.qword s.cpu.flags m.core.regs.sp.toUInt64 (UInt64.ofNat n)
  have hstore := h.store_sp (m.core.regs.sp.toUInt64 + UInt64.ofNat n)
  rw [UInt64.toInt64_add, Int64.toInt64_toUInt64, UInt64.toInt64_ofNat'] at hstore
  refine ⟨_, ?_, (h.setRegs { m.core.regs with sp := m.core.regs.sp + Int64.ofNat n }).setFlags
    (some f)⟩
  simp only [Lower.growPointer, Layout.insts_cons, Layout.insts_nil, execAll, X86.exec,
    X86.State.load, X86.State.store, address_spSlot h.file, immediate_qword hn, Size.bytes,
    h.load_sp, hadd, hstore, Option.bind_eq_bind, Option.bind_some]
  rfl

theorem exec_storePointer (h : InStep x m s) (hrax : s.cpu.reg .rax = off.toUInt64) :
    ∃ s', execAll (insts [Lower.storePointer]) s = some s' ∧ InStep x (m.setSp off) s' ∧
      ∀ q, s'.cpu.reg q = s.cpu.reg q := by
  have hstore := h.store_sp off.toUInt64
  rw [Int64.toInt64_toUInt64] at hstore
  have hreg : s.cpu.reg Lower.acc = off.toUInt64 := hrax
  refine ⟨_, ?_, h.setRegs { m.core.regs with sp := off }, fun _ => rfl⟩
  simp only [Lower.storePointer, Layout.insts_cons, Layout.insts_nil, execAll, X86.exec,
    X86.State.store, address_spSlot h.file, X86.Width.bytes, hreg, hstore, Option.bind_eq_bind,
    Option.bind_some]
  rfl

end InStep

/-! ## One register -/

section
variable {x : Site} {s : X86.State View}

theorem address_rangeSlot (h : s.cpu.reg .rdi = x.place.file) (r : RegRange) :
    s.cpu.address (Lower.rangeSlot r) = slotAddress x r.float r.first.toNat := by
  unfold Lower.rangeSlot slotAddress
  cases r.float with
  | false => exact address_regSlot h r.first
  | true => exact address_fregSlot h r.first

/-- The slot on the stack is reached through the accumulator. -/
theorem address_indexed {base : Reg} {a off : UInt64} (hbase : s.cpu.reg base = a)
    (hrax : s.cpu.reg .rax = off) : s.cpu.address (.indexed base Lower.acc .one 0) = a + off := by
  show s.cpu.reg base + s.cpu.reg .rax * 1 + 0 = _
  rw [hbase, hrax, UInt64.mul_one, UInt64.add_zero]

end

namespace InStep

variable {x : Site} {m : Machine} {s : X86.State View} {t : Target} {r : RegRange} {off : Int64}

/-- One register is stored to the stack, then the pointer moves. -/
theorem exec_pushOne (h : InStep x m s) (hosts : x.Hosts m) (ht : t.stackBase = m.core.stack.base)
    (hrax : s.cpu.reg .rax = off.toUInt64) (hbytes : r.bytes < 4096) {memory : Memory}
    (hwrite : m.core.stack.write m.memory off (slotSize r.float) (m.core.regs.bits r.float r.first)
      = .ok memory) :
    ∃ s', execAll (insts ((Action.push r).transferCode t)) s = some s' ∧
      InStep x ((m.setMemory memory).setSp (m.core.regs.sp + Int64.ofNat r.bytes)) s' := by
  -- The base of the stack goes to a register first, then the value, and then both are used.
  have h₁ := h.setReg (r := .r8) rfl m.core.stack.base
  have hload := h₁.load_slot r.float r.first.toNat_lt
  rw [UInt8.ofNat_toNat, ← address_rangeSlot h₁.file, ← bytes_slotWidth] at hload
  have h₂ := h₁.setReg (r := .rcx) rfl (m.core.regs.bits r.float r.first)
  have hstore := h₂.store_stack hosts hwrite
  generalize hs₂ : (s.setReg .r8 m.core.stack.base).setReg .rcx (m.core.regs.bits r.float r.first)
    = s₂ at h₂ hstore
  have hrcx : s₂.cpu.reg .rcx = m.core.regs.bits r.float r.first := by
    rw [← hs₂, X86.State.reg_setReg_self]
  have hr8 : s₂.cpu.reg .r8 = m.core.stack.base := by
    rw [← hs₂, X86.State.reg_setReg_of_ne _ _ (by decide), X86.State.reg_setReg_self]
  have hrax₂ : s₂.cpu.reg .rax = off.toUInt64 := by
    rw [← hs₂, X86.State.reg_setReg_of_ne _ _ (by decide),
      X86.State.reg_setReg_of_ne _ _ (by decide), hrax]
  rw [← hrcx, ← address_indexed hr8 hrax₂, ← bytes_slotWidth] at hstore
  obtain ⟨s', hgrow, h'⟩ := (h₂.setMemory memory).exec_growPointer hbytes
  refine ⟨s', ?_, h'⟩
  show execAll
    (.movRegImm64 .r8 t.stackBase :: .load (Lower.slotWidth r) .rcx (Lower.rangeSlot r) ::
    .store (Lower.slotWidth r) (.indexed .r8 Lower.acc .one 0) .rcx ::
      insts [Lower.growPointer r.bytes]) s = _
  rw [ht, X86.execAll_cons rfl, X86.execAll_cons (X86.exec_load .rcx hload), hs₂,
    X86.execAll_cons (X86.exec_store hstore)]
  exact hgrow

theorem exec_popOne (h : InStep x m s) (hosts : x.Hosts m) (ht : t.stackBase = m.core.stack.base)
    (hrax : s.cpu.reg .rax = off.toUInt64) {u : UInt64}
    (hread : m.core.stack.read m.memory off (slotSize r.float) = .ok u) :
    ∃ s', execAll (insts ((Action.pop r).transferCode t)) s = some s' ∧
      InStep x ((m.setRegs (m.core.regs.setBits r.float r.first u)).setSp off) s' := by
  have h₁ := h.setReg (r := .r9) rfl m.core.stack.base
  have hload := h₁.load_stack hosts hread
  have hr9 : (s.setReg .r9 m.core.stack.base).cpu.reg .r9 = m.core.stack.base :=
    X86.State.reg_setReg_self ..
  have hrax₁ : (s.setReg .r9 m.core.stack.base).cpu.reg .rax = off.toUInt64 := by
    rw [X86.State.reg_setReg_of_ne _ _ (by decide), hrax]
  rw [← address_indexed hr9 hrax₁, ← bytes_slotWidth] at hload
  have h₂ := h₁.setReg (r := .rcx) rfl u
  have hstore := h₂.store_slot r.float r.first.toNat_lt u
  generalize hs₂ : (s.setReg .r9 m.core.stack.base).setReg .rcx u = s₂ at h₂ hstore
  have hrcx : s₂.cpu.reg .rcx = u := by rw [← hs₂, X86.State.reg_setReg_self]
  have hrax₂ : s₂.cpu.reg .rax = off.toUInt64 := by
    rw [← hs₂, X86.State.reg_setReg_of_ne _ _ (by decide), hrax₁]
  rw [UInt8.ofNat_toNat, ← address_rangeSlot h₂.file, ← bytes_slotWidth] at hstore
  -- Once the register file is changed, the pointer is stored into the new one.
  have h₃ := h₂.setRegs (m.core.regs.setBits r.float r.first u)
  obtain ⟨s', hpointer, h', -⟩ := h₃.exec_storePointer hrax₂
  refine ⟨s', ?_, h'⟩
  rw [← hrcx] at hstore hpointer
  show execAll (.movRegImm64 .r9 t.stackBase ::
    .load (Lower.slotWidth r) .rcx (.indexed .r9 Lower.acc .one 0) ::
      .store (Lower.slotWidth r) (Lower.rangeSlot r) .rcx :: insts [Lower.storePointer]) s = _
  rw [ht, X86.execAll_cons rfl, X86.execAll_cons (X86.exec_load .rcx hload), hs₂,
    X86.execAll_cons (X86.exec_store hstore)]
  exact hpointer

end InStep

/-! ## Ranges -/

/-- The processor while `rdi` is borrowed: its value is saved below the scratch frame. -/
structure Borrowed (x : Site) (m : Machine) (s : X86.State View) : Prop
    extends Mirrors x m s.mem where
  returns : s.mem.scratch.word x.top 8 = x.place.returnAddress
  saved : s.mem.scratch.word (x.top - 40) 8 = x.place.file
  global : s.cpu.reg .r11 = m.proc.global.base
  frame : s.cpu.reg .rsp = x.top - 40

/-- A word on the processor's stack. -/
theorem isScratch_of_room {x : Site} {m : Machine} {v : View} (h : Mirrors x m v)
    (hosts : x.Hosts m) {k : Nat} (hk : k < 48) : v.IsScratch (x.top - 40 + UInt64.ofNat k) := by
  have hroom := hosts.room k hk
  have hfile := hosts.apart.stack_file _ hroom
  have hcode := hosts.apart.stack_code _ hroom
  rw [← h.place] at hroom hfile hcode
  rw [← h.code] at hcode
  exact ⟨hfile, hcode, hroom⟩

section
variable {x : Site} {m : Machine} {s : X86.State View}

/-- The address of the register file is kept on the stack of the processor while its register is
borrowed. -/
theorem InStep.exec_pushFile (h : InStep x m s) (hosts : x.Hosts m) :
    ∃ s', X86.exec (.push .rdi) s = some s' ∧ Borrowed x m s' ∧
      ∀ q, X86.Cpu.slot Reg.rsp.num ≠ X86.Cpu.slot q.num → s'.cpu.reg q = s.cpu.reg q := by
  have hrsp : s.cpu.reg .rsp - 8 = x.top - 40 := by
    rw [h.frame]
    grind
  have hstore : X86.storeWord s.mem 8 (x.top - 40) x.place.file = some
      { s.mem with scratch := s.mem.scratch.setWord (x.top - 40) 8 x.place.file } := by
    rw [X86.storeWord, View.storeBytes_scratch]
    · rfl
    · intro k hk
      rw [LittleEndian.length_bytes] at hk
      exact isScratch_of_room h.toMirrors hosts (by omega)
  -- The saved word ends 32 bytes below the return address.
  have hreturns : (s.mem.scratch.setWord (x.top - 40) 8 x.place.file).word x.top 8
      = x.place.returnAddress := by
    rw [Memory.word_setWord_of_ne, h.returns]
    intro i hi j hj
    have hne := Memory.add_ofNat_ne (a := x.top - 40) (j := i) (k := 40 + j) (by omega) (by omega)
      (by omega)
    rwa [UInt64.ofNat_add, ← UInt64.add_assoc, show UInt64.ofNat 40 = 40 from rfl,
      UInt64.sub_add_cancel] at hne
  have hsaved := Memory.word_setWord_qword s.mem.scratch (x.top - 40) x.place.file
  have hmirrors := h.toMirrors.setScratch (s.mem.scratch.setWord (x.top - 40) 8 x.place.file)
  generalize s.mem.scratch.setWord (x.top - 40) 8 x.place.file = scratch at *
  let s₁ : X86.State View := { s with mem := { s.mem with scratch := scratch } }
  refine ⟨s₁.setReg .rsp (x.top - 40), ?_, ?_, fun q hq => s₁.reg_setReg_of_ne _ hq⟩
  · simp only [X86.exec, X86.State.push, hrsp, h.file, hstore, Option.bind_eq_bind,
      Option.bind_some]
    rfl
  · exact {
      toMirrors := hmirrors
      returns := hreturns
      saved := hsaved
      global := (s₁.reg_setReg_of_ne _ (by decide)).trans h.global
      frame := s₁.reg_setReg_self _ _ }

theorem Borrowed.exec_popFile (h : Borrowed x m s) (hosts : x.Hosts m) :
    ∃ s', X86.exec (.pop .rdi) s = some s' ∧ InStep x m s' := by
  have hrsp : x.top - 40 + 8 = x.top - 32 := by grind
  have hload : X86.loadWord s.mem 8 (x.top - 40) = some x.place.file := by
    rw [X86.loadWord, View.loadBytes_scratch]
    · exact congrArg some h.saved
    · exact fun k hk => isScratch_of_room h.toMirrors hosts (by omega)
  refine ⟨(s.setReg .rsp (x.top - 32)).setReg .rdi x.place.file, ?_, ?_⟩
  · simp only [X86.exec, X86.State.pop, h.frame, hload, hrsp, Option.bind_eq_bind, Option.bind_some]
    rfl
  · exact {
      toMirrors := h.toMirrors
      returns := h.returns
      file := X86.State.reg_setReg_self ..
      global := by
        rw [X86.State.reg_setReg_of_ne _ _ (by decide), X86.State.reg_setReg_of_ne _ _ (by decide),
          h.global]
      frame := by rw [X86.State.reg_setReg_of_ne _ _ (by decide), X86.State.reg_setReg_self] }

/-- Borrowed registers may be set; the return address lies where it was. -/
theorem Borrowed.setReg (h : Borrowed x m s) {r : Reg}
    (hr : X86.Cpu.slot r.num ≠ X86.Cpu.slot Reg.r11.num ∧
      X86.Cpu.slot r.num ≠ X86.Cpu.slot Reg.rsp.num) (v : UInt64) : Borrowed x m (s.setReg r v) :=
  { h with
    global := (s.reg_setReg_of_ne v hr.1).trans h.global
    frame := (s.reg_setReg_of_ne v hr.2).trans h.frame }

/-- A string move keeps what is saved. -/
theorem Borrowed.moved {m' : Machine} {s' : X86.State View} (h : Borrowed x m s)
    (hm : Mirrors x m' s'.mem) (hglobal : m'.proc.global = m.proc.global)
    (hscratch : s'.mem.scratch = s.mem.scratch)
    (hkept : ∀ q, isKept q = true → s'.cpu.reg q = s.cpu.reg q) : Borrowed x m' s' where
  toMirrors := hm
  returns := by rw [hscratch, h.returns]
  saved := by rw [hscratch, h.saved]
  global := by rw [hkept _ rfl, h.global, hglobal]
  frame := by rw [hkept _ rfl, h.frame]

variable {r : RegRange} {off : Int64}

/-- Registers that can address the two sides of a string move: `a` the range, `b` the stack, with
the address on the stack computed through `tmp`. -/
structure IsMove (a tmp b : Reg) : Prop where
  range : X86.Cpu.slot a.num ≠ X86.Cpu.slot Reg.r11.num ∧
    X86.Cpu.slot a.num ≠ X86.Cpu.slot Reg.rsp.num
  through : X86.Cpu.slot tmp.num ≠ X86.Cpu.slot Reg.r11.num ∧
    X86.Cpu.slot tmp.num ≠ X86.Cpu.slot Reg.rsp.num
  stack : X86.Cpu.slot b.num ≠ X86.Cpu.slot Reg.r11.num ∧
    X86.Cpu.slot b.num ≠ X86.Cpu.slot Reg.rsp.num
  offset : X86.Cpu.slot a.num ≠ X86.Cpu.slot Reg.rax.num ∧
    X86.Cpu.slot tmp.num ≠ X86.Cpu.slot Reg.rax.num
  count : X86.Cpu.slot Reg.rcx.num ≠ X86.Cpu.slot a.num ∧
    X86.Cpu.slot Reg.rcx.num ≠ X86.Cpu.slot b.num
  distinct : X86.Cpu.slot tmp.num ≠ X86.Cpu.slot a.num ∧ X86.Cpu.slot b.num ≠ X86.Cpu.slot a.num

theorem isMove_store : IsMove .rsi .r8 .rdi := by constructor <;> decide

theorem isMove_load : IsMove .rdi .r9 .rsi := by constructor <;> decide

/-- The code in front of a string move. -/
theorem InStep.exec_setup (h : InStep x m s) (hosts : x.Hosts m)
    (hrax : s.cpu.reg .rax = off.toUInt64) (hcount : r.count ≤ 256) {a tmp b : Reg}
    (hmove : IsMove a tmp b) (base : UInt64) :
    ∃ s', execAll [.push .rdi, .lea a (Lower.rangeSlot r), .movRegImm64 tmp base,
        .lea b (.indexed tmp Lower.acc .one 0), .movRegImm32 .rcx (UInt32.ofNat r.count)] s =
        some s' ∧ Borrowed x m s' ∧ s'.cpu.reg a = slotAddress x r.float r.first.toNat ∧
      s'.cpu.reg b = base + off.toUInt64 ∧ (s'.cpu.reg .rcx).toNat = r.count := by
  obtain ⟨s₁, hpush, h₁, hsame⟩ := h.exec_pushFile hosts
  have hslot := address_rangeSlot ((hsame .rdi (by decide)).trans h.file) r
  have hrax₁ := (hsame .rax (by decide)).trans hrax
  have hrcx : (UInt32.ofNat r.count).toUInt64.toNat = r.count := by
    rw [UInt32.toNat_toUInt64]
    exact UInt32.toNat_ofNat_of_lt' (by show r.count < 2 ^ 32; omega)
  -- The file pointer is saved first, since the copy may use its register.
  let s₃ := (s₁.setReg a (slotAddress x r.float r.first.toNat)).setReg tmp base
  have hstack : s₃.cpu.address (.indexed tmp Lower.acc .one 0) = base + off.toUInt64 := by
    refine address_indexed (X86.State.reg_setReg_self ..) ?_
    rw [X86.State.reg_setReg_of_ne _ _ hmove.offset.2,
      X86.State.reg_setReg_of_ne _ _ hmove.offset.1, hrax₁]
  have h₃ : Borrowed x m s₃ := (h₁.setReg hmove.range _).setReg hmove.through base
  refine ⟨(s₃.setReg b (base + off.toUInt64)).setReg .rcx (UInt32.ofNat r.count).toUInt64, ?_,
    (h₃.setReg hmove.stack _).setReg ⟨by decide, by decide⟩ _, ?_, ?_, ?_⟩
  · rw [X86.execAll_cons hpush, X86.execAll_cons (by rw [X86.exec, hslot]), X86.execAll_cons rfl,
      X86.execAll_cons (by rw [X86.exec, hstack])]
    rfl
  · rw [X86.State.reg_setReg_of_ne _ _ hmove.count.1,
      X86.State.reg_setReg_of_ne _ _ hmove.distinct.2,
      X86.State.reg_setReg_of_ne _ _ hmove.distinct.1, X86.State.reg_setReg_self]
  · rw [X86.State.reg_setReg_of_ne _ _ hmove.count.2, X86.State.reg_setReg_self]
  · rw [X86.State.reg_setReg_self, hrcx]

variable {t : Target}

/-- A range is stored by the string instruction as it is stored register by register. -/
theorem InStep.exec_pushRange (h : InStep x m s) (hosts : x.Hosts m)
    (ht : t.stackBase = m.core.stack.base) (hrax : s.cpu.reg .rax = off.toUInt64)
    (hr : r.first.toNat + r.count ≤ 256) {memory : Memory}
    (hstore : storeRange m.core.stack m.core.regs r.float r.count r.first off m.memory
      = (memory, none)) :
    ∃ s', execAll (insts ((Action.pushRange r).transferCode t)) s = some s' ∧
      InStep x ((m.setMemory memory).setSp (m.core.regs.sp + Int64.ofNat r.bytes)) s' := by
  have hcount : r.count ≤ 256 := by omega
  obtain ⟨s₁, hsetup, h₁, hrsi, hrdi, hrcx⟩ :=
    h.exec_setup hosts hrax hcount isMove_store m.core.stack.base
  rw [← UInt8.ofNat_toNat (x := r.first)] at hstore
  obtain ⟨s₂, hcopy, hmem, hkept⟩ := copyUp_store h₁.toMirrors hosts hr hrsi hrdi hstore
  have h₂ : Borrowed x (m.setMemory memory) s₂ := by
    refine h₁.moved ?_ rfl (by rw [hmem]) hkept
    rw [hmem]
    exact h₁.toMirrors.setMemory memory
  obtain ⟨s₃, hpop, h₃⟩ := h₂.exec_popFile (hosts.setMemory memory)
  obtain ⟨s', hgrow, h'⟩ := h₃.exec_growPointer (n := r.bytes)
    (by have := (Machine.bytes_range hr).1; omega)
  refine ⟨s', ?_, h'⟩
  -- The registers hold what the copy needs: its source, its target and its count.
  have hmove : X86.exec (.repMovs (Lower.slotWidth r)) s₁ = some s₂ := by
    rw [X86.exec, bytes_slotWidth, hrcx, hcopy]
  show execAll ([.push .rdi, .lea .rsi (Lower.rangeSlot r), .movRegImm64 .r8 t.stackBase,
    .lea .rdi (.indexed .r8 Lower.acc .one 0), .movRegImm32 .rcx (UInt32.ofNat r.count)] ++
      .repMovs (Lower.slotWidth r) :: .pop .rdi :: insts [Lower.growPointer r.bytes]) s = _
  rw [ht, X86.execAll_append, hsetup, Option.bind_some, X86.execAll_cons hmove,
    X86.execAll_cons hpop]
  exact hgrow

/-- Where the stack pointer is set does not matter to a loop that loads registers. -/
theorem loadRange_setSp (stack : Arena) (memory : Memory) (float : Bool) (n : Nat) (k : UInt8)
    (off sp : Int64) (regs : Registers) :
    loadRange stack memory float n k off { regs with sp := sp } =
      ({ (loadRange stack memory float n k off regs).1 with sp := sp },
        (loadRange stack memory float n k off regs).2) := by
  induction n generalizing k off regs with
  | zero => rfl
  | succ n ih =>
    unfold loadRange
    cases stack.read memory off (slotSize float) with
    | error e => rfl
    | ok u =>
      have hset : ({ regs with sp := sp } : Registers).setBits float k u
          = { regs.setBits float k u with sp := sp } := by
        cases float <;> rfl
      dsimp only
      rw [hset, ih]

theorem InStep.exec_popRange (h : InStep x m s) (hosts : x.Hosts m)
    (ht : t.stackBase = m.core.stack.base) (hrax : s.cpu.reg .rax = off.toUInt64)
    (hr : r.first.toNat + r.count ≤ 256) {regs : Registers}
    (hload : loadRange m.core.stack m.memory r.float r.count r.first off m.core.regs
      = (regs, none)) :
    ∃ s', execAll (insts ((Action.popRange r).transferCode t)) s = some s' ∧
      InStep x (m.setRegs { regs with sp := off }) s' := by
  obtain ⟨s₀, hpointer, h₀, hsame⟩ := h.exec_storePointer hrax
  have hosts₀ : x.Hosts (m.setSp off) := hosts.setRegs _
  have hcount : r.count ≤ 256 := by omega
  obtain ⟨s₁, hsetup, h₁, hrdi, hrsi, hrcx⟩ :=
    h₀.exec_setup hosts₀ ((hsame .rax).trans hrax) hcount isMove_load m.core.stack.base
  -- The code sets the stack pointer before it moves the range, the machine after.
  have hload₀ := loadRange_setSp m.core.stack m.memory r.float r.count r.first off off m.core.regs
  rw [hload, ← UInt8.ofNat_toNat (x := r.first)] at hload₀
  obtain ⟨s₂, hcopy, hmem, hkept⟩ := copyUp_load h₁.toMirrors hosts₀ hr hrsi hrdi hload₀
  have h₂ : Borrowed x (m.setRegs { regs with sp := off }) s₂ := by
    refine h₁.moved ?_ rfl (by rw [hmem]) hkept
    rw [hmem]
    exact h₁.toMirrors.setRegs { regs with sp := off }
  obtain ⟨s', hpop, h'⟩ := h₂.exec_popFile (hosts.setRegs _)
  refine ⟨s', ?_, h'⟩
  have hmove : X86.exec (.repMovs (Lower.slotWidth r)) s₁ = some s₂ := by
    rw [X86.exec, bytes_slotWidth, hrcx, hcopy]
  have hcode : insts ((Action.popRange r).transferCode t) = insts [Lower.storePointer] ++
      ([.push .rdi, .lea .rdi (Lower.rangeSlot r), .movRegImm64 .r9 t.stackBase,
        .lea .rsi (.indexed .r9 Lower.acc .one 0), .movRegImm32 .rcx (UInt32.ofNat r.count)] ++
          [.repMovs (Lower.slotWidth r), .pop .rdi]) := rfl
  rw [hcode, ht, X86.execAll_append, hpointer, Option.bind_some, X86.execAll_append, hsetup,
    Option.bind_some, X86.execAll_cons hmove, X86.execAll_cons hpop]
  rfl

end

/-! ## The check -/

/-- The stack pointer lies on the stack. -/
structure OnStack (m : Machine) : Prop where
  nonneg : 0 ≤ m.core.regs.sp.toInt
  le_size : m.core.regs.sp.toInt ≤ m.core.stack.size

/-- The offset of the range that a stack action moves. -/
def offsetOf (m : Machine) (a : Action) : Int64 :=
  match a.popped with
  | some r => m.core.regs.sp - Int64.ofNat r.bytes
  | none => m.core.regs.sp

/-- The check that machine code makes of an offset. -/
def passes (limit : Int64) (off : UInt64) : Bool := 0 ≤ limit && off ≤ limit.toUInt64

/-- The pages of an arena leave room for one more below the upper end of all offsets. -/
theorem View.Backed.size_le {a : Arena} (h : View.Backed a) : a.size + 4096 ≤ 2 ^ 63 := by
  have hpages := h.pages
  have hlength : (mappingLength (Int64.ofNat a.size)).toInt + 4096 ≤ 2 ^ 63 := by
    unfold mappingLength
    split
    · decide
    · have hbounds := toInt_bounds (pageSize * ((pageSize + Int64.ofNat a.size - 1) / pageSize))
      rw [toInt_wholePages] at hbounds ⊢
      omega
  unfold Arena.mapped Int64.toNatClampNeg at hpages
  omega

section
variable {m m' : Machine} {i : Inst} {a : Action} {r : RegRange} {t : Target}

/-- The offset of a stack instruction, compared as an unsigned number with the limit. -/
theorem toInt_offsetOf (ha : a.Lawful) (hmoved : a.moved = some r) (on : OnStack m)
    (hsize : m.core.stack.size + 4096 ≤ 2 ^ 63) :
    r.bytes ≤ 2048 ∧ -2048 ≤ (offsetOf m a).toInt ∧ (offsetOf m a).toInt ≤ m.core.stack.size := by
  have hlo := on.nonneg
  have hhi := on.le_size
  cases a with
  | push r₁ | pushRange r₁ =>
    cases hmoved
    have hbytes := (Machine.bytes_range (ha.pushed r rfl).2).1
    exact ⟨hbytes, by show -2048 ≤ m.core.regs.sp.toInt; omega, hhi⟩
  | pop r₁ | popRange r₁ =>
    cases hmoved
    have hbytes := (Machine.bytes_range (ha.popped r rfl).2).1
    have hn := Machine.toInt_ofNat_short hbytes
    have hsub : (m.core.regs.sp - Int64.ofNat r.bytes).toInt = m.core.regs.sp.toInt - r.bytes := by
      rw [toInt_sub_of_bounds (by omega) (by omega), hn]
    refine ⟨hbytes, ?_, ?_⟩
    · show -2048 ≤ (m.core.regs.sp - Int64.ofNat r.bytes).toInt
      omega
    · show (m.core.regs.sp - Int64.ofNat r.bytes).toInt ≤ _
      omega
  | _ => cases hmoved

/-- The check of machine code is the machine's own. -/
theorem passes_iff (ha : a.Lawful) (hmoved : a.moved = some r) (on : OnStack m)
    (hsize : m.core.stack.size + 4096 ≤ 2 ^ 63)
    (ht : t.stackSize = Int64.ofNat m.core.stack.size) :
    passes (Lower.stackLimit t r) (offsetOf m a).toUInt64 =
      m.core.stack.inBounds (offsetOf m a) (Int64.ofNat r.bytes) := by
  obtain ⟨hbytes, hlo, hhi⟩ := toInt_offsetOf ha hmoved on hsize
  have hn := Machine.toInt_ofNat_short hbytes
  have hlimit : (Lower.stackLimit t r).toInt = m.core.stack.size - r.bytes := by
    have hs : (Int64.ofNat m.core.stack.size).toInt = m.core.stack.size :=
      Int64.toInt_ofNat_of_lt (by omega)
    rw [Lower.stackLimit, ht, toInt_sub_of_bounds (by omega) (by omega), hs, hn]
  -- The code compares without sign, so an offset below the stack is above every limit.
  have hoff := X86.toInt_toInt64 (offsetOf m a).toUInt64
  have hmax := X86.toInt_toInt64 (Lower.stackLimit t r).toUInt64
  rw [Int64.toInt64_toUInt64] at hoff hmax
  have hlt := (offsetOf m a).toUInt64.toNat_lt
  have hlt' := (Lower.stackLimit t r).toUInt64.toNat_lt
  rw [Bool.eq_iff_iff, Arena.inBounds_iff (by omega) (by omega), passes, Bool.and_eq_true,
    decide_eq_true_eq, decide_eq_true_eq, toInt_nonneg_iff, UInt64.le_iff_toNat_le]
  constructor
  · rintro ⟨hnonneg, hle⟩
    refine ⟨?_, by omega, ?_⟩ <;> split at hoff <;> split at hmax <;> omega
  · rintro ⟨hstart, -, hstop⟩
    refine ⟨by omega, ?_⟩
    split at hoff <;> split at hmax <;> omega

end

/-! ## All of them -/

section
variable {x : Site} {m m' : Machine} {s : X86.State View} {i : Inst} {a : Action} {r : RegRange}
  {t : Target}

/-- The computation of the offset leaves it in the accumulator. -/
theorem InStep.exec_offsetCode (h : InStep x m s) (hmoved : a.moved = some r)
    (hbytes : r.bytes < 4096) :
    ∃ s', execAll (insts a.offsetCode) s = some s' ∧ InStep x m s' ∧
      s'.cpu.reg .rax = (offsetOf m a).toUInt64 := by
  let s₁ := s.setReg .rax m.core.regs.sp.toUInt64
  have hload := h.exec_loadPointer
  have h₁ : InStep x m s₁ := h.setReg (r := .rax) rfl _
  have hrax : s₁.cpu.reg .rax = m.core.regs.sp.toUInt64 := X86.State.reg_setReg_self ..
  obtain ⟨f, hlower⟩ := InStep.exec_lowerPointer s₁ hbytes
  rw [hrax] at hlower
  cases a with
  | push _ | pushRange _ => exact ⟨s₁, hload, h₁, hrax⟩
  | pop _ | popRange _ =>
    cases hmoved
    refine ⟨_, ?_, (h₁.setReg (r := .rax) rfl
      (m.core.regs.sp.toUInt64 - UInt64.ofNat r.bytes)).setFlags f, ?_⟩
    · show execAll (insts [Lower.loadPointer] ++ insts [Lower.lowerPointer r.bytes]) s = _
      rw [X86.execAll_append, hload]
      exact hlower
    · rw [X86.State.setFlags_reg, X86.State.reg_setReg_self]
      exact (Int64.toUInt64_sub ..).symm
  | _ => cases hmoved

/-- The machine code behind the check of a stack action does what the machine does. -/
theorem InStep.exec_transfer (h : InStep x m s) (hosts : x.Hosts m)
    (ht : t.stackBase = m.core.stack.base) (ha : a.Lawful) (hmoved : a.moved = some r)
    (hrax : s.cpu.reg .rax = (offsetOf m a).toUInt64) (hdone : m.perform i a = (m', none)) :
    ∃ s', execAll (insts (a.transferCode t)) s = some s' ∧ InStep x m' s' := by
  -- One register goes through a scratch register, a range by a string move between file and stack.
  cases a with
  | push r₁ =>
    cases hmoved
    have hbytes := (Machine.bytes_range (ha.pushed r rfl).2).1
    simp only [Machine.perform, Machine.push, ha.single r (.inl rfl)] at hdone
    split at hdone
    · unfold storeRange storeRange at hdone
      split at hdone
      · cases hdone
      next hwrite =>
        split at hwrite
        · cases hwrite
        next memory' hword =>
          cases hwrite
          cases hdone
          exact h.exec_pushOne hosts ht hrax (by omega) hword
    · cases hdone
  | pop r₁ =>
    cases hmoved
    simp only [Machine.perform, Machine.pop, ha.single r (.inr rfl)] at hdone
    split at hdone
    · unfold loadRange loadRange at hdone
      split at hdone
      · cases hdone
      next hread =>
        split at hread
        · cases hread
        next u hword =>
          cases hread
          cases hdone
          exact h.exec_popOne hosts ht hrax hword
    · cases hdone
  | pushRange r₁ =>
    cases hmoved
    simp only [Machine.perform, Machine.push] at hdone
    split at hdone
    · split at hdone
      · cases hdone
      next hstore =>
        cases hdone
        exact h.exec_pushRange hosts ht hrax (ha.pushed r rfl).2 hstore
    · cases hdone
  | popRange r₁ =>
    cases hmoved
    simp only [Machine.perform, Machine.pop] at hdone
    split at hdone
    · split at hdone
      · cases hdone
      next hload =>
        cases hdone
        exact h.exec_popRange hosts ht hrax (ha.popped r rfl).2 hload
    · cases hdone
  | _ => cases hmoved

end

end BlockVM.Native
