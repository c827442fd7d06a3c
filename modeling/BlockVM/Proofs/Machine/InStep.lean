import BlockVM.Proofs.Block.Lowered
import BlockVM.Proofs.Machine.Faults
import BlockVM.Proofs.Machine.View
import BlockVM.Proofs.X86.Arithmetic

/-!
# The processor in step with a machine

Between the actions of a block the processor is in step with the machine: the register file and the
arenas in its memory are those of the machine, `rdi` holds the address of the file, `r11` that of
the global data, and `rsp` the scratch frame below the return address.

An operand lives at an address (`home`). `exec_place` says that the code in front of an access makes
this address reachable, `load_home` and `store_home` that the access is what the machine reads and
writes. From these follow the loads and stores that all integer code is made of (`exec_load`,
`exec_store`).
-/

namespace BlockVM

open Isa (Inst)
open Machine (within_of_target)
open X86 (Reg Mem execAll)

open Layout (insts)

namespace Native

/-- Where a block runs: the layout of its memory, its machine code and the address of its return
address. -/
structure Site where
  place : Placement
  code : Array UInt8
  top : UInt64

/-- What machine code needs of a machine and of the place where it runs: the parts of its memory do
not overlap, the arenas are mapped, and control returns to a place outside the machine code. -/
structure Site.Hosts (x : Site) (m : Machine) : Prop where
  apart : x.place.Apart x.code.size m.proc.space.arenas
  backed : ∀ a ∈ m.proc.space.arenas, View.Backed a
  global : m.proc.global ∈ m.proc.space.arenas
  stack : m.core.stack ∈ m.proc.space.arenas
  away : (x.place.codeRegion x.code.size).has x.place.returnAddress = false
  /-- The return address, the scratch frame and one word below it. -/
  room : ∀ k < 48, x.place.stackRegion.has (x.top - 40 + UInt64.ofNat k) = true

theorem Site.Hosts.setRegs {x : Site} {m : Machine} (h : x.Hosts m) (regs : Registers) :
    x.Hosts (m.setRegs regs) :=
  { h with }

theorem Site.Hosts.setMemory {x : Site} {m : Machine} (h : x.Hosts m) (memory : Memory) :
    x.Hosts (m.setMemory memory) :=
  { h with }

/-- The memory of a block shows the registers and the arenas of a machine. -/
structure Mirrors (x : Site) (m : Machine) (v : View) : Prop where
  place : v.place = x.place
  code : v.code = x.code
  regs : v.regs = m.core.regs
  memory : v.memory = m.memory
  arenas : v.arenas = m.proc.space.arenas

/-- The processor between two actions of a block. -/
structure InStep (x : Site) (m : Machine) (s : X86.State View) : Prop
    extends Mirrors x m s.mem where
  returns : s.mem.scratch.word x.top 8 = x.place.returnAddress
  file : s.cpu.reg .rdi = x.place.file
  global : s.cpu.reg .r11 = m.proc.global.base
  frame : s.cpu.reg .rsp = x.top - 32

/-! ## The register file -/

namespace Mirrors

variable {x : Site} {m : Machine} {v : View}

/-- Code, file and stack of a site are apart from all arenas. -/
theorem apart (h : Mirrors x m v) (hosts : x.Hosts m) : v.place.Apart v.code.size v.arenas := by
  rw [h.place, h.code, h.arenas]
  exact hosts.apart

theorem setRegs (h : Mirrors x m v) (regs : Registers) :
    Mirrors x (m.setRegs regs) { v with regs := regs } :=
  { h with regs := rfl }

theorem setMemory (h : Mirrors x m v) (memory : Memory) :
    Mirrors x (m.setMemory memory) { v with memory := memory } :=
  { h with memory := rfl }

theorem setScratch (h : Mirrors x m v) (scratch : Memory) :
    Mirrors x m { v with scratch := scratch } :=
  { h with }

/-- Machine code reads the registers as bytes of the file. -/
theorem loadBytes_file (h : Mirrors x m v) {off n : Nat} (hn : off + n ≤ 3080) :
    X86.loadBytes v n (x.place.file + UInt64.ofNat off) = some (m.core.regs.fileBytes off n) := by
  rw [← h.place, View.loadBytes_file _ hn, h.regs]

/-- The low bytes of an integer register. -/
theorem load_int (h : Mirrors x m v) (r : UInt8) {n : Nat} (hn : n ≤ 8) :
    X86.loadWord v n (x.place.file + UInt64.ofNat (8 * r.toNat)) =
      some (UInt64.ofNat ((m.core.regs.int r).toNat % 256 ^ n)) := by
  have := r.toNat_lt
  rw [X86.loadWord, h.loadBytes_file (by omega), Option.map_some, Registers.fileBytes_int _ _ hn,
    LittleEndian.toUInt64_bytes]

/-- Reading a slot of the integer file is reading the register. -/
theorem load_int_qword (h : Mirrors x m v) (r : UInt8) :
    X86.loadWord v 8 (x.place.file + UInt64.ofNat (8 * r.toNat)) = some (m.core.regs.int r) := by
  rw [h.load_int r (Nat.le_refl 8), LittleEndian.ofNat_mod_qword]

theorem load_float (h : Mirrors x m v) (r : UInt8) :
    X86.loadWord v 4 (x.place.file + UInt64.ofNat (2048 + 4 * r.toNat)) =
      some (m.core.regs.float r).toUInt64 := by
  have := r.toNat_lt
  have := (m.core.regs.float r).toNat_lt
  rw [X86.loadWord, h.loadBytes_file (by omega), Option.map_some, Registers.fileBytes_float,
    LittleEndian.toUInt64_bytes, Nat.mod_eq_of_lt (by rw [UInt32.toNat_toUInt64]; omega),
    UInt64.ofNat_toNat]

theorem load_sp (h : Mirrors x m v) :
    X86.loadWord v 8 (x.place.file + UInt64.ofNat 3072) = some m.core.regs.sp.toUInt64 := by
  rw [X86.loadWord, h.loadBytes_file (by omega), Option.map_some, Registers.fileBytes_sp,
    LittleEndian.toUInt64_bytes, LittleEndian.ofNat_mod_qword]

/-- Storing bytes to the file replaces them in the registers. -/
theorem storeBytes_file (h : Mirrors x m v) {off : Nat} {bs : List UInt8}
    (hn : off + bs.length ≤ 3080) :
    X86.storeBytes v (x.place.file + UInt64.ofNat off) bs =
      some { v with regs := m.core.regs.setFileBytes off bs } := by
  rw [← h.place, View.storeBytes_file _ hn, h.regs]

theorem store_int (h : Mirrors x m v) (r : UInt8) (u : UInt64) :
    X86.storeWord v 8 (x.place.file + UInt64.ofNat (8 * r.toNat)) u =
      some { v with regs := m.core.regs.setInt r u } := by
  have := r.toNat_lt
  rw [X86.storeWord, h.storeBytes_file (by rw [LittleEndian.length_bytes]; omega),
    Registers.setFileBytes_int]

theorem store_float (h : Mirrors x m v) (r : UInt8) (u : UInt64) :
    X86.storeWord v 4 (x.place.file + UInt64.ofNat (2048 + 4 * r.toNat)) u =
      some { v with regs := m.core.regs.setFloat r u.toUInt32 } := by
  have := r.toNat_lt
  rw [X86.storeWord, h.storeBytes_file (by rw [LittleEndian.length_bytes]; omega),
    Registers.setFileBytes_float]

theorem store_sp (h : Mirrors x m v) (u : UInt64) :
    X86.storeWord v 8 (x.place.file + UInt64.ofNat 3072) u =
      some { v with regs := { m.core.regs with sp := u.toInt64 } } := by
  have hlength := LittleEndian.length_bytes 8 u.toNat
  rw [X86.storeWord, h.storeBytes_file (by omega), Registers.setFileBytes_sp]

end Mirrors

/-- The register is none of those that stay the same throughout a block. -/
def isFree (r : Reg) : Bool :=
  X86.Cpu.slot r.num != X86.Cpu.slot Reg.rdi.num &&
    X86.Cpu.slot r.num != X86.Cpu.slot Reg.r11.num &&
    X86.Cpu.slot r.num != X86.Cpu.slot Reg.rsp.num

namespace InStep

variable {x : Site} {m m' : Machine} {s : X86.State View}

/-- A free register may be set to anything: none of the machine's state is in it. -/
theorem setReg (h : InStep x m s) {r : Reg} (hr : isFree r = true) (v : UInt64) :
    InStep x m (s.setReg r v) := by
  simp only [isFree, Bool.and_eq_true, bne_iff_ne] at hr
  obtain ⟨⟨h₁, h₂⟩, h₃⟩ := hr
  exact { h with
    file := (s.reg_setReg_of_ne v h₁).trans h.file
    global := (s.reg_setReg_of_ne v h₂).trans h.global
    frame := (s.reg_setReg_of_ne v h₃).trans h.frame }

theorem setFlags (h : InStep x m s) (f : Option X86.Flags) : InStep x m (s.setFlags f) :=
  { h with }

theorem goto (h : InStep x m s) (a : UInt64) : InStep x m (s.goto a) := { h with }

theorem setRegs (h : InStep x m s) (regs : Registers) :
    InStep x (m.setRegs regs) { s with mem := { s.mem with regs := regs } } :=
  { h with toMirrors := h.toMirrors.setRegs regs }

theorem setMemory (h : InStep x m s) (memory : Memory) :
    InStep x (m.setMemory memory) { s with mem := { s.mem with memory := memory } } :=
  { h with toMirrors := h.toMirrors.setMemory memory }

end InStep

/-! ## Addresses of registers -/

/-- Displacements below 2³¹ do not change their sign. -/
theorem toUInt64_offset {n : Nat} (h : n < 2 ^ 31) :
    (Int32.ofNat n).toInt64.toUInt64 = UInt64.ofNat n := by
  have h32 : (Int32.ofNat n).toInt = n := Int32.toInt_ofNat_of_lt (by omega)
  apply UInt64.toNat_inj.mp
  have h64 : (Int32.ofNat n).toInt64.toInt = n := by rw [Int32.toInt_toInt64, h32]
  have := toNat_toUInt64_of_nonneg (x := (Int32.ofNat n).toInt64) (by omega)
  rw [UInt64.toNat_ofNat_of_lt' (by show n < 2 ^ 64; omega)]
  omega

section
variable {s : X86.State View} {file : UInt64} (h : s.cpu.reg .rdi = file)
include h

theorem address_regSlot (r : UInt8) :
    s.cpu.address (Lower.regSlot r) = file + UInt64.ofNat (8 * r.toNat) := by
  have := r.toNat_lt
  show s.cpu.reg .rdi + (8 * Int32.ofNat r.toNat).toInt64.toUInt64 = _
  rw [h, show (8 : Int32) * Int32.ofNat r.toNat = Int32.ofNat (8 * r.toNat) by
    rw [Int32.ofNat_mul]; rfl, toUInt64_offset (by omega)]

theorem address_fregSlot (r : UInt8) :
    s.cpu.address (Lower.fregSlot r) = file + UInt64.ofNat (2048 + 4 * r.toNat) := by
  have := r.toNat_lt
  show s.cpu.reg .rdi + (2048 + 4 * Int32.ofNat r.toNat).toInt64.toUInt64 = _
  rw [h, show (2048 : Int32) + 4 * Int32.ofNat r.toNat = Int32.ofNat (2048 + 4 * r.toNat) by
    rw [Int32.ofNat_add, Int32.ofNat_mul]; rfl, toUInt64_offset (by omega)]

theorem address_spSlot : s.cpu.address Lower.spSlot = file + UInt64.ofNat 3072 := by
  show s.cpu.reg .rdi + _ = _
  rw [h]
  rfl

end

/-! ## Operands -/

def lives : Operand → Bool
  | .reg _ | .freg _ | .global .. | .pointer .. => true
  | .imm _ | .fimm _ => false

def home (x : Site) (m : Machine) : Operand → UInt64
  | .reg r => x.place.file + UInt64.ofNat (8 * r.toNat)
  | .freg r => x.place.file + UInt64.ofNat (2048 + 4 * r.toNat)
  | .global off _ _ => m.proc.global.base + off.toInt64.toUInt64
  | .pointer r _ _ => m.core.regs.int r
  | .imm _ | .fimm _ => 0

namespace InStep

variable {x : Site} {m m' : Machine} {s : X86.State View} {i : Inst} {o : Operand} {v u : UInt64}

theorem exec_load_regSlot (h : InStep x m s) (reg : Reg) (r : UInt8) :
    X86.exec (.load .qword reg (Lower.regSlot r)) s = some (s.setReg reg (m.core.regs.int r)) := by
  show (X86.loadWord s.mem 8 (s.cpu.address (Lower.regSlot r))).bind _ = _
  rw [address_regSlot h.file, h.load_int_qword]
  rfl

/-- The code in front of an access makes the operand reachable. -/
theorem exec_place (h : InStep x m s) (tmp : Reg) (htmp : isFree tmp = true)
    (ho : lives o = true) :
    ∃ y, execAll (insts (Lower.place o tmp).1) s = some (s.setReg tmp y) ∧
      (s.setReg tmp y).cpu.address (Lower.place o tmp).2 = home x m o := by
  -- A place that needs no code leaves the temporary register as it is.
  have same : execAll [] s = some (s.setReg tmp (s.cpu.reg tmp)) := by
    rw [s.setReg_reg]
    rfl
  have h' := h.setReg htmp (s.cpu.reg tmp)
  cases o with
  | reg r => exact ⟨_, same, address_regSlot h'.file r⟩
  | freg r => exact ⟨_, same, address_fregSlot h'.file r⟩
  | global off w float =>
    refine ⟨_, same, ?_⟩
    show (s.setReg tmp _).cpu.reg .r11 + _ = _
    rw [h'.global]
    rfl
  | pointer r w float =>
    refine ⟨m.core.regs.int r, ?_, ?_⟩
    · show (X86.exec (.load .qword tmp (Lower.regSlot r)) s).bind some = _
      rw [h.exec_load_regSlot]
      rfl
    · show (s.setReg tmp _).cpu.reg tmp + 0 = _
      rw [s.reg_setReg_self, UInt64.add_zero]
      rfl
  | imm | fimm => cases ho

/-- What the machine reads stands at the operand's address. -/
theorem load_home (h : InStep x m s) (hosts : x.Hosts m) (ho : lives o = true)
    (hread : m.read i o = .ok v) :
    X86.loadWord s.mem o.width.bytes (home x m o) = some v := by
  have apart := h.apart hosts
  cases o with
  | reg r =>
    cases hread
    exact h.load_int_qword r
  | global off w float =>
    have hg := hosts.backed _ hosts.global
    obtain ⟨hin, rfl⟩ := Arena.read_eq_ok hg.size_lt (mapError_eq_ok.mp hread)
    have hload := View.loadWord_within apart (h.arenas ▸ hosts.global) hg hin
    rw [toNatClampNeg_bytes, h.memory] at hload
    rw [toNatClampNeg_bytes]
    exact hload
  | pointer r w float =>
    obtain ⟨⟨a, off⟩, htarget, hread⟩ := bind_eq_ok.mp hread
    obtain ⟨ha, -, haddr⟩ := within_of_target (fun a ha => (hosts.backed a ha).toMapped) htarget
    obtain ⟨hin, rfl⟩ := Arena.read_eq_ok (hosts.backed a ha).size_lt hread
    have hload := View.loadWord_within apart (h.arenas ▸ ha) (hosts.backed a ha) hin
    rw [toNatClampNeg_bytes, h.memory, haddr] at hload
    rw [toNatClampNeg_bytes, haddr]
    exact hload
  | freg | fimm => cases hread
  | imm => cases ho

/-- What the machine writes is stored at the operand's address. -/
theorem store_home (h : InStep x m s) (hosts : x.Hosts m) (hwrite : m.write i o v = .ok m')
    (hlow : u.toNat % 256 ^ o.width.bytes = v.toNat % 256 ^ o.width.bytes) :
    ∃ mem, X86.storeWord s.mem o.width.bytes (home x m o) u = some mem ∧
      InStep x m' { s with mem := mem } := by
  have apart := h.apart hosts
  rw [X86.storeWord_congr _ _ hlow]
  cases o with
  | reg r =>
    cases hwrite
    exact ⟨_, h.store_int r v, h.setRegs _⟩
  | global off w float =>
    obtain ⟨memory, hmem, hwrite⟩ := bind_eq_ok.mp hwrite
    cases hwrite
    have hg := hosts.backed _ hosts.global
    obtain ⟨hin, rfl⟩ := Arena.write_eq_ok hg.size_lt (mapError_eq_ok.mp hmem)
    have hstore := View.storeWord_within apart (h.arenas ▸ hosts.global) hg hin v
    rw [toNatClampNeg_bytes, h.memory] at hstore
    rw [toNatClampNeg_bytes]
    exact ⟨_, hstore, h.setMemory _⟩
  | pointer r w float =>
    obtain ⟨⟨a, off⟩, htarget, hwrite⟩ := bind_eq_ok.mp hwrite
    obtain ⟨memory, hmem, hwrite⟩ := bind_eq_ok.mp hwrite
    cases hwrite
    obtain ⟨ha, -, haddr⟩ := within_of_target (fun a ha => (hosts.backed a ha).toMapped) htarget
    obtain ⟨hin, rfl⟩ := Arena.write_eq_ok (hosts.backed a ha).size_lt hmem
    have hstore := View.storeWord_within apart (h.arenas ▸ ha) (hosts.backed a ha) hin v
    rw [toNatClampNeg_bytes, h.memory, haddr] at hstore
    rw [toNatClampNeg_bytes, haddr]
    exact ⟨_, hstore, h.setMemory _⟩
  | freg | imm | fimm => cases hwrite

/-! ## Loads and stores -/

theorem bytes_moveWidth (w : Access) : (Lower.moveWidth w).bytes = w.bytes := by
  cases w <;> rfl

/-- A load gives what the machine reads. -/
theorem exec_load (h : InStep x m s) (hosts : x.Hosts m) (hread : m.read i o = .ok v) (r : Reg) :
    ∃ y, execAll (insts (Lower.load r o)) s = some ((s.setReg .r9 y).setReg r v) := by
  -- An immediate has no place: it is moved into the register directly.
  by_cases ho : lives o = true
  · obtain ⟨y, hpre, haddr⟩ := h.exec_place .r9 rfl ho
    have hload := (h.setReg (r := .r9) rfl y).load_home hosts ho hread
    have hcode : Lower.load r o = (Lower.place o .r9).1 ++
        [.inst (.load (Lower.moveWidth o.width) r (Lower.place o .r9).2)] := by
      cases o <;> first | rfl | cases ho
    refine ⟨y, ?_⟩
    rw [hcode, Layout.insts_append, X86.execAll_append, hpre]
    show ((X86.loadWord _ (Lower.moveWidth o.width).bytes _).bind _).bind _ = _
    rw [haddr, bytes_moveWidth, hload]
    rfl
  · cases o with
    | imm u =>
      cases hread
      refine ⟨s.cpu.reg .r9, ?_⟩
      show (X86.exec (.movRegImm r v) s).bind some = _
      rw [X86.exec_movRegImm, s.setReg_reg]
      rfl
    | fimm => cases hread
    | reg | freg | global | pointer => exact absurd rfl ho

theorem lives_of_write (hwrite : m.write i o v = .ok m') : lives o = true := by
  cases o with
  | reg | global | pointer => rfl
  | freg | imm | fimm => cases hwrite

/-- A store does what the machine's write does, if the register has the right low bits. -/
theorem exec_store (h : InStep x m s) (hosts : x.Hosts m) (hwrite : m.write i o v = .ok m')
    {r : Reg} (hr : X86.Cpu.slot Reg.r8.num ≠ X86.Cpu.slot r.num)
    (hlow : (s.cpu.reg r).toNat % 256 ^ o.width.bytes = v.toNat % 256 ^ o.width.bytes) :
    ∃ s', execAll (insts (Lower.store o r)) s = some s' ∧ InStep x m' s' := by
  obtain ⟨y, hpre, haddr⟩ := h.exec_place .r8 rfl (lives_of_write hwrite)
  obtain ⟨mem, hstore, h'⟩ := (h.setReg (r := .r8) rfl y).store_home hosts hwrite
    (u := s.cpu.reg r) hlow
  refine ⟨_, ?_, h'⟩
  show execAll (insts ((Lower.place o .r8).1 ++
    [.inst (.store (Lower.moveWidth o.width) (Lower.place o .r8).2 r)])) s = _
  rw [Layout.insts_append, X86.execAll_append, hpre]
  show ((X86.storeWord _ (Lower.moveWidth o.width).bytes _ _).bind _).bind _ = _
  rw [haddr, bytes_moveWidth, s.reg_setReg_of_ne _ hr, hstore]
  rfl

end InStep

end Native

end BlockVM
