import BlockVM.Proofs.Machine.Blocks
import BlockVM.Proofs.Machine.Frame
import BlockVM.Proofs.Machine.StackPointer
import Mathlib.Data.List.Forall2

/-!
# Pushes and pops are inverse

A `Parcel` names the registers that one stack instruction moves. A list of pushes stores the bytes
of its parcels one after the other above the stack pointer (`stepAll_pushes`), since a push changes
no register besides it. The mirrored pops, in reverse order, find each parcel where it was stored,
whatever the registers hold by then (`stepAll_pops`). The parcels may overlap: every one of them was
stored with the same values, so the order in which they are restored does not matter.
-/

namespace BlockVM

open Isa (Inst Family)

/-! ## Parcels -/

/-- The registers that a stack instruction moves: one or, if it is ranged, those from the first to
the last. Integer registers that no pop may write are left out. -/
structure Parcel where
  float : Bool
  ranged : Bool
  first : UInt8
  last : UInt8
  ordered : first ≤ last
  single : ranged = false → last = first
  free : float = false → last < globalReg

namespace Parcel

def pushFamily (x : Parcel) : Family :=
  match x.float, x.ranged with
  | false, false => .push
  | false, true => .pushes
  | true, false => .fpush
  | true, true => .fpushes

def popFamily (x : Parcel) : Family :=
  match x.float, x.ranged with
  | false, false => .pop
  | false, true => .pops
  | true, false => .fpop
  | true, true => .fpops

def operand (x : Parcel) (r : UInt8) : Isa.Operand := ⟨if x.float then .freg else .reg, r.toUInt64⟩

def args (x : Parcel) : List Isa.Operand :=
  if x.ranged then [x.operand x.first, x.operand x.last] else [x.operand x.first]

/-- A register of the parcel's file. -/
def register (x : Parcel) (r : UInt8) : Operand := if x.float then .freg r else .reg r

def operands (x : Parcel) : List Operand :=
  if x.ranged then [x.register x.first, x.register x.last] else [x.register x.first]

def range (x : Parcel) : RegRange := ⟨x.float, x.first, x.last.toNat + 1 - x.first.toNat⟩

/-- The instruction of the family names the registers of the parcel. -/
structure Names (f : Family) (x : Parcel) (i : Inst) : Prop where
  known : i.info ∈ Isa.table
  family : i.family = f
  args : i.args = x.args

def Pushes (x : Parcel) (i : Inst) : Prop := x.Names x.pushFamily i

def Pops (x : Parcel) (i : Inst) : Prop := x.Names x.popFamily i

def total (xs : List Parcel) : Nat := (xs.map fun x => x.range.bytes).sum

@[simp] theorem total_nil : total [] = 0 := rfl

@[simp] theorem total_cons (x : Parcel) (xs : List Parcel) :
    total (x :: xs) = x.range.bytes + total xs :=
  List.sum_cons

theorem total_append (xs ys : List Parcel) : total (xs ++ ys) = total xs + total ys := by
  rw [total, List.map_append, List.sum_append]
  rfl

theorem range_le (x : Parcel) : x.range.first.toNat + x.range.count ≤ 256 := by
  have hlast := x.last.toNat_lt
  have hordered := UInt8.le_iff_toNat_le.mp x.ordered
  show x.first.toNat + (x.last.toNat + 1 - x.first.toNat) ≤ 256
  omega

theorem count_single (x : Parcel) (h : x.ranged = false) : x.range.count = 1 := by
  show x.last.toNat + 1 - x.first.toNat = 1
  rw [x.single h]
  omega

variable {x : Parcel} {f : Family} {i : Inst}

theorem index_operand (x : Parcel) (r : UInt8) : (x.operand r).index = r := UInt8.toUInt8_toUInt64 r

theorem index_register (x : Parcel) (r : UInt8) : (x.register r).index = r := by
  unfold register
  cases x.float <;> rfl

theorem operandOf_operand (x : Parcel) (i : Inst) (slot : Nat) (r : UInt8) (g : Int64) :
    operandOf i slot (x.operand r) g = .ok (x.register r) := by
  unfold operandOf register
  rw [index_operand]
  cases hf : x.float <;> simp only [operand, hf] <;> rfl

/-- The operands of an instruction that names a parcel. -/
theorem Names.operandsOf (h : x.Names f i) (g : Int64) : operandsOf i g = .ok x.operands := by
  unfold BlockVM.operandsOf
  rw [h.args, Parcel.args, Parcel.operands]
  cases x.ranged <;>
    simp only [Bool.false_eq_true, if_false, if_true, operandsFrom, operandOf_operand, bind,
    Except.bind,
      pure, Except.pure]

theorem Names.arg_zero (h : x.Names f i) : (i.arg 0).index = x.first := by
  rw [Isa.Inst.arg, h.args, Parcel.args]
  cases x.ranged <;> exact x.index_operand x.first

theorem Names.arg_one (h : x.Names f i) (hr : x.ranged = true) : (i.arg 1).index = x.last := by
  rw [Isa.Inst.arg, h.args, Parcel.args, hr]
  exact x.index_operand x.last

/-- A parcel is pushed as a range exactly if it is given as one. -/
theorem isRange_pushFamily (x : Parcel) : isRange x.pushFamily = x.ranged := by
  unfold pushFamily
  cases x.float <;> cases x.ranged <;> rfl

theorem isRange_popFamily (x : Parcel) : isRange x.popFamily = x.ranged := by
  unfold popFamily
  cases x.float <;> cases x.ranged <;> rfl

/-- Pushes are always valid. -/
theorem Pushes.validate (h : x.Pushes i) : validate i = .ok () := by
  have hfirst := h.arg_zero
  have hfamily : i.family = x.pushFamily := h.family
  have hrange : isRange i.family = x.ranged := by rw [hfamily, isRange_pushFamily]
  unfold BlockVM.validate
  dsimp only
  cases hr : x.ranged with
  | true =>
    have hlast := h.arg_one hr
    have hpops : i.family ≠ .pops := by
      rw [hfamily, pushFamily, hr]
      cases x.float <;> decide
    rw [if_pos (hrange.trans hr), hfirst, hlast, if_neg (UInt8.not_lt.mpr x.ordered),
      if_neg (fun h => hpops h.1)]
  | false =>
    have hwrites : writesFirst i.family = false := by
      rw [hfamily, pushFamily, hr]
      cases x.float <;> rfl
    rw [if_neg (by rw [hrange, hr]; decide), if_neg (fun h => by rw [hwrites] at h; cases h.2.1)]

/-- Pops are valid because they leave the reserved registers alone. -/
theorem Pops.validate (h : x.Pops i) : BlockVM.validate i = .ok () := by
  have hfirst := h.arg_zero
  have hfamily : i.family = x.popFamily := h.family
  have hrange : isRange i.family = x.ranged := by rw [hfamily, isRange_popFamily]
  have hshape := Isa.shaped_of_mem_table h.known
  unfold BlockVM.validate
  dsimp only
  cases hr : x.ranged with
  | true =>
    have hlast := h.arg_one hr
    have hfree : ¬ (i.family = .pops ∧ globalReg ≤ x.last) := by
      rintro ⟨hpops, hreserved⟩
      refine absurd (x.free ?_) (UInt8.not_lt.mpr hreserved)
      rw [hfamily, popFamily, hr] at hpops
      cases hf : x.float with
      | false => rfl
      | true =>
        rw [hf] at hpops
        cases hpops
    rw [if_pos (hrange.trans hr), hfirst, hlast, if_neg (UInt8.not_lt.mpr x.ordered), if_neg hfree]
  | false =>
    have hfree : ¬ (i.info.kinds.head? = some .reg ∧ writesFirst i.family ∧ reserved x.first) := by
      rintro ⟨hkind, -, hreserved⟩
      -- A float pop names no register of the integer file, and the others end below the reserved
      -- ones.
      cases hf : x.float with
      | true =>
        have hfpop : i.info.family = .fpop := by
          show i.family = _
          rw [hfamily, popFamily, hr, hf]
        rw [hfpop] at hshape
        have hkinds : i.info.kinds = [.freg] := eq_of_beq hshape
        rw [hkinds] at hkind
        cases hkind
      | false =>
        have hbelow : x.first < globalReg := UInt8.lt_of_le_of_lt x.ordered (x.free hf)
        simp only [reserved, dataReg, globalReg, Bool.or_eq_true, beq_iff_eq] at hreserved hbelow
        rcases hreserved with h | h <;> rw [h] at hbelow <;> exact absurd hbelow (by decide)
    rw [if_neg (by rw [hrange, hr]; decide), hfirst, if_neg hfree]

theorem single_eq (h : x.ranged = false) :
    RegRange.single x.float (x.register x.first) = x.range := by
  have hcount : x.last.toNat + 1 - x.first.toNat = 1 := x.count_single h
  rw [RegRange.single, index_register, range, hcount]

theorem between_eq (x : Parcel) :
    RegRange.between x.float (x.register x.first) (x.register x.last) = x.range := by
  rw [RegRange.between, index_register, index_register, range]

theorem of?_pushFamily (x : Parcel) (width : Nat) :
    Action.of? x.pushFamily width x.operands
      = some (if x.ranged then .pushRange x.range else .push x.range) := by
  cases hr : x.ranged with
  | false =>
    rw [← x.single_eq hr]
    unfold operands pushFamily
    cases hf : x.float <;> rw [hr] <;> rfl
  | true =>
    rw [← x.between_eq]
    unfold operands pushFamily
    cases hf : x.float <;> rw [hr] <;> rfl

theorem of?_popFamily (x : Parcel) (width : Nat) :
    Action.of? x.popFamily width x.operands
      = some (if x.ranged then .popRange x.range else .pop x.range) := by
  cases hr : x.ranged with
  | false =>
    rw [← x.single_eq hr]
    unfold operands popFamily
    cases hf : x.float <;> rw [hr] <;> rfl
  | true =>
    rw [← x.between_eq]
    unfold operands popFamily
    cases hf : x.float <;> rw [hr] <;> rfl

/-- Stepping such an instruction is pushing the parcel. -/
theorem Pushes.step (h : x.Pushes i) (m : Machine) : m.step i = m.push i x.range := by
  have hfamily : i.family = x.pushFamily := h.family
  have hoperands := h.operandsOf (Int64.ofNat m.proc.global.size)
  unfold Machine.step Action.ofInst prepare
  simp only [h.validate, hoperands, bind, Except.bind, hfamily, of?_pushFamily, pure, Except.pure]
  cases x.ranged <;> rfl

theorem Pops.step (h : x.Pops i) (m : Machine) : m.step i = m.pop i x.range := by
  have hfamily : i.family = x.popFamily := h.family
  have hoperands := h.operandsOf (Int64.ofNat m.proc.global.size)
  unfold Machine.step Action.ofInst prepare
  simp only [h.validate, hoperands, bind, Except.bind, hfamily, of?_popFamily, pure, Except.pure]
  cases x.ranged <;> rfl

end Parcel

namespace Machine

/-! ## Images of registers -/

/-- The bytes of consecutive registers on the stack. -/
def image (regs : Registers) (float : Bool) : Nat → UInt8 → List UInt8
  | 0, _ => []
  | n + 1, r =>
    LittleEndian.bytes (slotBytes float) (regs.bits float r).toNat ++ image regs float n (r + 1)

@[simp] theorem length_image (regs : Registers) (float : Bool) (n : Nat) (r : UInt8) :
    (image regs float n r).length = n * slotBytes float := by
  induction n generalizing r with
  | zero => rw [Nat.zero_mul]; rfl
  | succ n ih =>
    rw [image, List.length_append, LittleEndian.length_bytes, ih, Nat.succ_mul, Nat.add_comm]

def imageAll (regs : Registers) (xs : List Parcel) : List UInt8 :=
  xs.flatMap fun x => image regs x.float x.range.count x.first

/-- The stack pointer is no part of an image. -/
theorem image_setSp (regs : Registers) (sp : Int64) (float : Bool) (n : Nat) (r : UInt8) :
    image { regs with sp := sp } float n r = image regs float n r := by
  induction n generalizing r with
  | zero => rfl
  | succ n ih =>
    rw [image, image, ih]
    rfl

/-- The image is one of registers, so the stack pointer does not matter. -/
theorem imageAll_setSp (regs : Registers) (sp : Int64) (xs : List Parcel) :
    imageAll { regs with sp := sp } xs = imageAll regs xs :=
  List.flatMap_congr fun x _ => image_setSp regs sp x.float x.range.count x.first

/-- The image has the bytes that the stack pointer moves by. -/
theorem length_imageAll (regs : Registers) (xs : List Parcel) :
    (imageAll regs xs).length = Parcel.total xs := by
  induction xs with
  | nil => rfl
  | cons x xs ih =>
    rw [imageAll, List.flatMap_cons, List.length_append, length_image, Parcel.total_cons, ← ih]
    rfl

variable {stack : Arena} {float : Bool} {off : Int64}

/-- The address of the next slot. -/
theorem address_next (base : UInt64) (off : Int64) (float : Bool) :
    base + off.toUInt64 + UInt64.ofNat (slotBytes float) =
    base + (off + slotSize float).toUInt64 := by
  rw [Int64.toUInt64_add, toUInt64_slotSize, UInt64.add_assoc]

/-- A range that fits on the stack is stored as its image. -/
theorem storeRange_eq (regs : Registers) (n : Nat) (r : UInt8) (memory : Memory)
    (hs : stack.size < 2 ^ 63) (hoff : 0 ≤ off.toInt)
    (hfit : off.toInt + n * (slotSize float).toInt ≤ stack.size) :
    storeRange stack regs float n r off memory
      = (memory.storeBytes (stack.base + off.toUInt64) (image regs float n r), none) := by
  induction n generalizing r off memory with
  | zero => rfl
  | succ n ih =>
    obtain ⟨hin, hnext, hrest⟩ := first_slot hs hoff hfit
    unfold storeRange
    rw [Arena.write_of_within hs hin (slotSize_pos float).2.2]
    dsimp only
    rw [ih _ _ hnext hrest, image, Memory.storeBytes_append, LittleEndian.length_bytes,
      address_next, toNatClampNeg_slotSize]
    rfl

/-- The registers after a range was loaded whose image is that of `saved`. -/
def restored (saved : Registers) (float : Bool) : Nat → UInt8 → Registers → Registers
  | 0, _, regs => regs
  | n + 1, r, regs => restored saved float n (r + 1) (regs.setBits float r (saved.bits float r))

theorem ofNat_bits (regs : Registers) (float : Bool) (r : UInt8) :
    UInt64.ofNat ((regs.bits float r).toNat % 256 ^ slotBytes float) = regs.bits float r := by
  cases float with
  | false => exact LittleEndian.ofNat_mod_qword _
  | true =>
    have hlt := (regs.float r).toNat_lt
    apply UInt64.toNat_inj.mp
    show (UInt64.ofNat ((regs.float r).toUInt64.toNat % 256 ^ 4)).toNat =
      (regs.float r).toUInt64.toNat
    rw [UInt64.toNat_ofNat', UInt32.toNat_toUInt64]
    omega

/-- A range whose image is on the stack is loaded from it. -/
theorem loadRange_eq {memory : Memory} {saved : Registers} (n : Nat) (r : UInt8) (regs : Registers)
    (hs : stack.size < 2 ^ 63) (hoff : 0 ≤ off.toInt)
    (hfit : off.toInt + n * (slotSize float).toInt ≤ stack.size)
    (himage : memory.loadBytes (stack.base + off.toUInt64) (n * slotBytes float)
      = image saved float n r) :
    loadRange stack memory float n r off regs = (restored saved float n r regs, none) := by
  induction n generalizing r off regs with
  | zero => rfl
  | succ n ih =>
    obtain ⟨hin, hnext, hrest⟩ := first_slot hs hoff hfit
    rw [Nat.succ_mul, Nat.add_comm, Memory.loadBytes_add, address_next, image] at himage
    obtain ⟨hhead, htail⟩ := List.append_inj himage
      (by rw [Memory.length_loadBytes, LittleEndian.length_bytes])
    have hword : memory.word (stack.base + off.toUInt64) (slotBytes float) =
        saved.bits float r := by
      rw [Memory.word, hhead, LittleEndian.toUInt64_bytes, ofNat_bits]
    unfold loadRange
    rw [Arena.read_of_within hs hin (slotSize_pos float).2.2, toNatClampNeg_slotSize, hword]
    exact ih (r + 1) _ hnext hrest htail

end Machine

namespace Registers

/-- Restoring a register leaves those of the other file alone, also the one of the same number. -/
theorem bits_setBits (saved regs : Registers) (float : Bool) (r : UInt8) (f : Bool) (s : UInt8) :
    (regs.setBits float r (saved.bits float r)).bits f s
      = if f = float ∧ s = r then saved.bits f s else regs.bits f s := by
  cases float <;> cases f
  · show (regs.setInt r (saved.int r)).int s = _
    rw [int_setInt]
    simp only [true_and, eq_comm (a := r)]
    split
    next h => rw [h]; rfl
    · rfl
  · rfl
  · rfl
  · show ((regs.setFloat r (saved.float r).toUInt64.toUInt32).float s).toUInt64 = _
    rw [float_setFloat, UInt32.toUInt32_toUInt64]
    simp only [true_and, eq_comm (a := r)]
    split
    next h => rw [h]; rfl
    · rfl

end Registers

namespace Machine

/-- The registers of a range are restored, and no others. -/
theorem bits_restored (saved regs : Registers) (float : Bool) (n : Nat) (r : UInt8) (f : Bool)
    (s : UInt8) :
    (restored saved float n r regs).bits f s
      = if f = float ∧ s ∈ registers r n then saved.bits f s else regs.bits f s := by
  induction n generalizing r regs with
  | zero =>
    rw [if_neg (fun h => nomatch h.2)]
    rfl
  | succ n ih =>
    rw [restored, ih, Registers.bits_setBits, registers_succ]
    by_cases hf : f = float
    · by_cases hs : s ∈ registers (r + 1) n
      · rw [if_pos ⟨hf, hs⟩, if_pos ⟨hf, List.mem_cons_of_mem _ hs⟩]
      · rw [if_neg (fun h => hs h.2)]
        simp only [hf, true_and, List.mem_cons, hs, or_false]
    · rw [if_neg (fun h => hf h.1), if_neg (fun h => hf h.1), if_neg (fun h => hf h.1)]

variable {m : Machine} {i : Inst} {is js : List Inst} {x : Parcel} {xs ys : List Parcel}

/-! ## Pushes -/

/-- The parcels fit between the stack pointer and the end of the stack. -/
def Fits (m : Machine) (xs : List Parcel) : Prop :=
  m.core.regs.sp.toInt + Parcel.total xs ≤ m.core.stack.size

def stacked (m : Machine) (xs : List Parcel) : Machine :=
  (m.setMemory (m.memory.storeBytes (m.core.stack.base + m.core.regs.sp.toUInt64)
    (imageAll m.core.regs xs))).setRegs
    { m.core.regs with sp := m.core.regs.sp + Int64.ofNat (Parcel.total xs) }

/-- The stack is one of a core, and the stack pointer is on it. -/
structure OnStack (m : Machine) : Prop where
  small : m.core.stack.size < 2 ^ 32
  nonneg : 0 ≤ m.core.regs.sp.toInt
  le_size : m.core.regs.sp.toInt ≤ m.core.stack.size

theorem imageAll_cons (regs : Registers) (x : Parcel) (xs : List Parcel) :
    imageAll regs (x :: xs) = image regs x.float x.range.count x.first ++ imageAll regs xs :=
  List.flatMap_cons ..

theorem imageAll_append (regs : Registers) (xs ys : List Parcel) :
    imageAll regs (xs ++ ys) = imageAll regs xs ++ imageAll regs ys :=
  List.flatMap_append

theorem toUInt64_ofNat (n : Nat) : (Int64.ofNat n).toUInt64 = UInt64.ofNat n := rfl

/-- Parcels on top of others. -/
theorem stacked_append (m : Machine) (xs ys : List Parcel) :
    m.stacked (xs ++ ys) = (m.stacked xs).stacked ys := by
  have haddress : m.core.stack.base + m.core.regs.sp.toUInt64 +
      UInt64.ofNat (imageAll m.core.regs xs).length
      = m.core.stack.base + (m.core.regs.sp + Int64.ofNat (Parcel.total xs)).toUInt64 := by
    rw [length_imageAll, Int64.toUInt64_add, toUInt64_ofNat, UInt64.add_assoc]
  have hsp : m.core.regs.sp + Int64.ofNat (Parcel.total (xs ++ ys))
      = m.core.regs.sp + Int64.ofNat (Parcel.total xs) + Int64.ofNat (Parcel.total ys) := by
    rw [Parcel.total_append, Int64.ofNat_add, Int64.add_assoc]
  have himage : imageAll (m.stacked xs).core.regs ys = imageAll m.core.regs ys := imageAll_setSp ..
  rw [stacked, stacked.eq_1 (m.stacked xs), himage, imageAll_append, Memory.storeBytes_append,
    haddress, hsp]
  rfl

theorem sp_stacked (h : m.OnStack) (hfits : m.Fits xs) :
    (m.stacked xs).core.regs.sp.toInt = m.core.regs.sp.toInt + Parcel.total xs := by
  have hsmall := h.small
  have hnonneg := h.nonneg
  unfold Fits at hfits
  have htotal : (Int64.ofNat (Parcel.total xs)).toInt = Parcel.total xs :=
    Int64.toInt_ofNat_of_lt (by omega)
  show (m.core.regs.sp + Int64.ofNat (Parcel.total xs)).toInt = _
  rw [toInt_add_of_bounds (by omega) (by omega), htotal]

theorem onStack_stacked (h : m.OnStack) (hfits : m.Fits xs) : (m.stacked xs).OnStack := by
  have hnonneg := h.nonneg
  have hsp := sp_stacked h hfits
  refine ⟨h.small, by omega, ?_⟩
  rw [hsp]
  exact hfits

/-- The check of a push is exact. -/
theorem inBounds_push (h : m.OnStack) (x : Parcel) :
    m.core.stack.inBounds m.core.regs.sp (Int64.ofNat x.range.bytes) = true ↔ m.Fits [x] := by
  have hsmall := h.small
  have hnonneg := h.nonneg
  have hle := h.le_size
  have hshort := (bytes_range x.range_le).1
  have hbytes := toInt_ofNat_short hshort
  rw [Arena.inBounds_iff (by omega) (by omega), Fits, Parcel.total_cons, Parcel.total_nil,
    Nat.add_zero]
  constructor
  · intro hin
    have hstop := hin.stop
    omega
  · exact fun hfits => ⟨hnonneg, by omega, by omega⟩

/-- A parcel that fits is pushed as a whole. -/
theorem push_of_fits (h : m.OnStack) (hfits : m.Fits [x]) (i : Inst) :
    m.push i x.range = (m.stacked [x], none) := by
  have hsmall := h.small
  have hsize : m.core.stack.size < 2 ^ 63 := by omega
  -- The room that the parcel needs is given in slots instead of bytes.
  have hroom : m.core.regs.sp.toInt + x.range.count * (slotSize x.float).toInt ≤
      m.core.stack.size := by
    have hslots : (x.range.bytes : Int) = x.range.count * (slotSize x.float).toInt :=
      bytes_eq_slots x.range
    rw [Fits, Parcel.total_cons, Parcel.total_nil, Nat.add_zero] at hfits
    omega
  have hstore := storeRange_eq m.core.regs x.range.count x.range.first m.memory hsize h.nonneg hroom
  have himage : imageAll m.core.regs [x] =
      image m.core.regs x.range.float x.range.count x.range.first := by
    rw [imageAll_cons]
    exact List.append_nil _
  unfold push stacked
  rw [himage]
  dsimp only
  rw [if_pos ((inBounds_push h x).mpr hfits)]
  have hfloat : x.range.float = x.float := rfl
  rw [hfloat, hstore]
  rfl

/-- A parcel that does not fit is refused, and nothing is pushed. -/
theorem push_of_not_fits (h : m.OnStack) (hfull : ¬ m.Fits [x]) (i : Inst) :
    m.push i x.range = (m, some (m.overflow i x.range)) :=
  if_neg (mt (inBounds_push h x).mp hfull)

/-- More parcels fit behind those that were pushed exactly if all fit together. -/
theorem fits_append (h : m.OnStack) (hfits : m.Fits xs) :
    (m.stacked xs).Fits ys ↔ m.Fits (xs ++ ys) := by
  have hsp := sp_stacked h hfits
  unfold Fits
  rw [hsp, Parcel.total_append]
  show _ ≤ (m.core.stack.size : Int) ↔ _
  omega

theorem Fits.of_append (xs ys : List Parcel) (h : m.Fits (xs ++ ys)) : m.Fits xs := by
  unfold Fits at h ⊢
  rw [Parcel.total_append] at h
  omega

/-- Pushes that fit all succeed. -/
theorem stepAll_pushes (h : m.OnStack) (his : List.Forall₂ Parcel.Pushes xs is)
    (hfits : m.Fits xs) : stepAll is m = (m.stacked xs, none) := by
  induction his generalizing m with
  | nil =>
    have hsp : m.core.regs.sp + Int64.ofNat 0 = m.core.regs.sp := Int64.add_zero _
    rw [stepAll, stacked, Parcel.total_nil, hsp]
    rfl
  | @cons x i xs is hpush _ ih =>
    have hone : m.Fits [x] := Fits.of_append [x] xs hfits
    rw [stepAll, hpush.step, push_of_fits h hone]
    dsimp only
    rw [ih (onStack_stacked h hone) ((fits_append h hone).mpr hfits), ← stacked_append]
    rfl

/-- Stepping through a sequence stops at its first failure. -/
theorem stepAll_append (is js : List Inst) (m : Machine) :
    stepAll (is ++ js) m =
      match stepAll is m with
      | (m', some e) => (m', some e)
      | (m', none) => stepAll js m' := by
  induction is generalizing m with
  | nil => rfl
  | cons i is ih =>
    rw [List.cons_append, stepAll, stepAll]
    generalize m.step i = r
    obtain ⟨m', e⟩ := r
    cases e with
    | some e => rfl
    | none => exact ih m'

/-- The first parcel that does not fit ends the pushes, with those before it on the stack. -/
theorem stepAll_overflow (h : m.OnStack) (hfits : m.Fits xs) (hfull : ¬ m.Fits (xs ++ [x]))
    (his : List.Forall₂ Parcel.Pushes xs is) (hi : x.Pushes i) (rest : List Inst) :
    stepAll (is ++ i :: rest) m
      = (m.stacked xs, some ((m.stacked xs).overflow i x.range)) := by
  have hstuck : ¬ (m.stacked xs).Fits [x] := mt (fits_append h hfits).mp hfull
  rw [stepAll_append, stepAll_pushes h his hfits]
  dsimp only
  rw [stepAll, hi.step, push_of_not_fits (onStack_stacked h hfits) hstuck]

/-! ## Pops -/

/-- The bytes of parcels, as `saved` has them, lie on the stack from `start` up to the stack
pointer. -/
structure Holds (m : Machine) (saved : Registers) (start : Int64) (xs : List Parcel) : Prop where
  small : m.core.stack.size < 2 ^ 32
  nonneg : 0 ≤ start.toInt
  inside : start.toInt + Parcel.total xs ≤ m.core.stack.size
  sp : m.core.regs.sp = start + Int64.ofNat (Parcel.total xs)
  bytes : m.memory.loadBytes (m.core.stack.base + start.toUInt64) (Parcel.total xs) =
    imageAll saved xs

section Pops

variable {saved regs : Registers} {start : Int64}

/-- The offset behind the first parcel. -/
theorem Holds.toInt_behind (h : m.Holds saved start (x :: xs)) :
    (start + Int64.ofNat x.range.bytes).toInt = start.toInt + x.range.bytes := by
  have hsmall := h.small
  have hnonneg := h.nonneg
  have hinside := h.inside
  rw [Parcel.total_cons] at hinside
  have hbytes := toInt_ofNat_short (bytes_range x.range_le).1
  rw [toInt_add_of_bounds (by omega) (by omega), hbytes]

/-- The first image lies at the start and the others behind it. -/
theorem Holds.split (h : m.Holds saved start (x :: xs)) :
    m.memory.loadBytes (m.core.stack.base + start.toUInt64) x.range.bytes
        = image saved x.float x.range.count x.first ∧
      m.memory.loadBytes (m.core.stack.base + (start + Int64.ofNat x.range.bytes).toUInt64)
        (Parcel.total xs) = imageAll saved xs := by
  have haddress : m.core.stack.base + start.toUInt64 + UInt64.ofNat x.range.bytes
      = m.core.stack.base + (start + Int64.ofNat x.range.bytes).toUInt64 := by
    rw [Int64.toUInt64_add, toUInt64_ofNat, UInt64.add_assoc]
  have hbytes := h.bytes
  rw [Parcel.total_cons, Memory.loadBytes_add, imageAll_cons, haddress] at hbytes
  refine List.append_inj hbytes ?_
  rw [Memory.length_loadBytes, length_image]
  rfl

theorem Holds.tail (h : m.Holds saved start (x :: xs)) :
    m.Holds saved (start + Int64.ofNat x.range.bytes) xs where
  small := h.small
  nonneg := by
    have hnonneg := h.nonneg
    rw [h.toInt_behind]
    omega
  inside := by
    have hinside := h.inside
    rw [Parcel.total_cons] at hinside
    rw [h.toInt_behind]
    omega
  sp := by rw [h.sp, Parcel.total_cons, Int64.ofNat_add, Int64.add_assoc]
  bytes := h.split.2

/-- The first parcel is on top once the others are gone. -/
theorem Holds.head (h : m.Holds saved start (x :: xs))
    (hsp : regs.sp = start + Int64.ofNat x.range.bytes) :
    (m.setRegs regs).Holds saved start [x] where
  small := h.small
  nonneg := h.nonneg
  inside := by
    have hinside := h.inside
    rw [Parcel.total_cons] at hinside
    show start.toInt + ((x.range.bytes + 0 : Nat) : Int) ≤ m.core.stack.size
    omega
  sp := hsp
  bytes := h.split.1.trans (List.append_nil _).symm

/-- The parcel on top is popped as a whole. -/
theorem pop_of_holds (h : m.Holds saved start [x]) (i : Inst) :
    m.pop i x.range
      = (m.setRegs { restored saved x.float x.range.count x.first m.core.regs with sp := start },
      none) := by
  have hsmall := h.small
  have hsize : m.core.stack.size < 2 ^ 63 := by omega
  have hnonneg := h.nonneg
  have hinside := h.inside
  rw [Parcel.total_cons, Parcel.total_nil, Nat.add_zero] at hinside
  have hbytes := toInt_ofNat_short (bytes_range x.range_le).1
  -- Going back by the size of the range leads to the place where the parcel was put.
  have hback : m.core.regs.sp - Int64.ofNat x.range.bytes = start := by
    rw [h.sp]
    exact Int64.add_sub_cancel start (Int64.ofNat x.range.bytes)
  have hin : m.core.stack.inBounds start (Int64.ofNat x.range.bytes) = true :=
    (Arena.inBounds_iff hsize (by omega)).mpr ⟨hnonneg, by omega, by omega⟩
  have hslots : (x.range.bytes : Int) = x.range.count * (slotSize x.float).toInt :=
    bytes_eq_slots x.range
  have hload : loadRange m.core.stack m.memory x.float x.range.count x.first start m.core.regs
      = (restored saved x.float x.range.count x.first m.core.regs, none) :=
    loadRange_eq x.range.count x.first m.core.regs hsize hnonneg (by omega) h.split.1
  unfold pop
  dsimp only
  rw [hback, if_pos hin]
  have hrange : x.range.float = x.float ∧ x.range.first = x.first := ⟨rfl, rfl⟩
  rw [hrange.1, hrange.2, hload]

/-- The mirrored pops, in reverse order, restore every register that a parcel names. -/
theorem stepAll_pops (hjs : List.Forall₂ Parcel.Pops xs js) (h : m.Holds saved start xs) :
    ∃ regs, stepAll js.reverse m = (m.setRegs regs, none) ∧ regs.sp = start ∧
      ∀ x ∈ xs, ∀ r ∈ registers x.first x.range.count,
      regs.bits x.float r = saved.bits x.float r := by
  -- The parcel pushed first is popped last, so the induction peels it off at the end.
  induction hjs generalizing start with
  | nil =>
    refine ⟨m.core.regs, rfl, ?_, nofun⟩
    rw [h.sp]
    exact Int64.add_zero start
  | @cons x j xs js hpop _ ih =>
    obtain ⟨regs, hrun, hsp, hsaved⟩ := ih h.tail
    have hlast := pop_of_holds (h.head hsp) j
    refine ⟨{ restored saved x.float x.range.count x.first regs with sp := start }, ?_, rfl, ?_⟩
    · rw [List.reverse_cons, stepAll_append, hrun]
      dsimp only
      rw [stepAll, hpop.step, hlast]
      rfl
    · -- A register of an earlier pop holds its old value, whether this pop names it again or not.
      intro y hy r hr
      show (restored saved x.float x.range.count x.first regs).bits y.float r = _
      rw [bits_restored]
      split
      · rfl
      next hother =>
        rcases List.mem_cons.mp hy with rfl | hy
        · exact absurd ⟨rfl, hr⟩ hother
        · exact hsaved y hy r hr

end Pops

/-! ## Pushes, then pops -/

/-- The pushed parcels are on the stack. -/
theorem holds_stacked (h : m.OnStack) (hfits : m.Fits xs) (regs : Registers)
    (hsp : regs.sp = (m.stacked xs).core.regs.sp) :
    ((m.stacked xs).setRegs regs).Holds m.core.regs m.core.regs.sp xs where
  small := h.small
  nonneg := h.nonneg
  inside := hfits
  sp := hsp
  bytes := by
    have hsmall := h.small
    have hnonneg := h.nonneg
    have hlength := length_imageAll m.core.regs xs
    have hshort : (imageAll m.core.regs xs).length ≤ 2 ^ 64 := by
      unfold Fits at hfits
      omega
    have hback :=
      Memory.loadBytes_storeBytes m.memory (m.core.stack.base + m.core.regs.sp.toUInt64) hshort
    rw [hlength] at hback
    exact hback

/-- Pushes leave the stack below the stack pointer alone. -/
theorem load_below (h : m.OnStack) (hfits : m.Fits xs) {k : Nat}
    (hk : (k : Int) < m.core.regs.sp.toInt) :
    (m.stacked xs).memory.load (m.core.stack.base + UInt64.ofNat k)
      = m.memory.load (m.core.stack.base + UInt64.ofNat k) := by
  have hsmall := h.small
  have hle := h.le_size
  unfold Fits at hfits
  refine Memory.load_storeBytes_of_ne _ fun j hj => ?_
  rw [length_imageAll] at hj
  have hsp : m.core.regs.sp.toUInt64 = UInt64.ofNat m.core.regs.sp.toInt.toNat := by
    apply UInt64.toNat_inj.mp
    have hnat := toNat_toUInt64_of_nonneg h.nonneg
    rw [UInt64.toNat_ofNat_of_lt' (by show _ < 2 ^ 64; omega)]
    omega
  rw [hsp, UInt64.add_assoc, ← UInt64.ofNat_add]
  exact Memory.add_ofNat_ne (by omega) (by omega) (by omega)

/-- The registers between two are those of their range. -/
theorem mem_registers {first last r : UInt8} (h : first ≤ r) (h' : r ≤ last) :
    r ∈ registers first (last.toNat + 1 - first.toNat) := by
  rw [UInt8.le_iff_toNat_le] at h h'
  refine List.mem_map.mpr ⟨r.toNat - first.toNat, List.mem_range.mpr (by omega), ?_⟩
  apply UInt8.toNat_inj.mp
  have hlt := r.toNat_lt
  rw [UInt8.toNat_add, UInt8.toNat_ofNat']
  omega

/-- Pushes that all succeed fit. -/
theorem fits_of_stepAll {m' : Machine} (h : m.OnStack) (his : List.Forall₂ Parcel.Pushes xs is)
    (hdone : stepAll is m = (m', none)) : m.Fits xs := by
  induction his generalizing m with
  | nil =>
    unfold Fits
    rw [Parcel.total_nil]
    have hle := h.le_size
    omega
  | @cons x i xs is hpush _ ih =>
    rw [stepAll, hpush.step] at hdone
    by_cases hone : m.Fits [x]
    · rw [push_of_fits h hone] at hdone
      exact (fits_append h hone).mp (ih (onStack_stacked h hone) hdone)
    · rw [push_of_not_fits h hone] at hdone
      cases hdone

/-- Pushes and pops are inverse. After pushes that all succeed, with any other registers, the
mirrored pops in reverse order succeed, take the stack pointer back, give every named register the
value that it had before the first push, and leave the stack below alone. Pushes that fit all
succeed, and the first one that does not fit fails on the stack, after those before it. -/
theorem pops_invert_pushes (h : m.OnStack) (hpush : List.Forall₂ Parcel.Pushes xs is)
    (hpop : List.Forall₂ Parcel.Pops xs js) :
    (∀ m' regs, stepAll is m = (m', none) → regs.sp = m'.core.regs.sp →
      ∃ m'', stepAll js.reverse (m'.setRegs regs) = (m'', none) ∧
      m''.core.regs.sp = m.core.regs.sp ∧ (∀ x ∈ xs, ∀ r, x.first ≤ r → r ≤ x.last →
          m''.core.regs.bits x.float r = m.core.regs.bits x.float r) ∧
        ∀ k : Nat, (k : Int) < m.core.regs.sp.toInt →
          m''.memory.load (m.core.stack.base + UInt64.ofNat k)
            = m.memory.load (m.core.stack.base + UInt64.ofNat k)) ∧
    (m.Fits xs → ∃ m', stepAll is m = (m', none)) ∧
    ∀ ys x zs before i rest, xs = ys ++ x :: zs → is = before ++ i :: rest →
    ys.length = before.length → m.Fits ys → ¬ m.Fits (ys ++ [x]) →
        ∃ m' text, stepAll before m = (m', none) ∧
          stepAll is m = (m', some (.fault .stackBounds i.pc text)) := by
  refine ⟨fun m' regs hdone hsp => ?_, fun hfits => ⟨_, stepAll_pushes h hpush hfits⟩, ?_⟩
  · have hfits := fits_of_stepAll h hpush hdone
    rw [stepAll_pushes h hpush hfits] at hdone
    cases hdone
    obtain ⟨back, hrun, hback, hsaved⟩ := stepAll_pops hpop (holds_stacked h hfits regs hsp)
    refine ⟨_, hrun, hback, fun x hx r hfirst hlast => ?_, fun k hk => load_below h hfits hk⟩
    exact hsaved x hx r (mem_registers hfirst hlast)
  · rintro ys x zs before i rest rfl rfl hlength hfits hfull
    have hbefore := List.forall₂_take_append _ before (i :: rest) hpush
    have hrest := List.forall₂_drop_append _ before (i :: rest) hpush
    rw [← hlength, List.take_left] at hbefore
    rw [← hlength, List.drop_left] at hrest
    obtain ⟨hi, -⟩ := List.forall₂_cons.mp hrest
    exact ⟨_, _, stepAll_pushes h hbefore hfits, stepAll_overflow h hfits hfull hbefore hi rest⟩

/-! ### Two parcels that overlap -/

def threeRegisters : Parcel := ⟨false, true, 1, 3, by decide, nofun, by decide⟩

def oneRegister : Parcel := ⟨false, false, 2, 2, by decide, fun _ => rfl, by decide⟩

/-- The instruction of an opcode for integer registers. -/
def stackInst (f : Family) (op : Nat) (x : Parcel) : Inst :=
  ⟨0, Isa.Definition.info ⟨f, 0, x.args.map fun _ => .plain .reg⟩ op, x.args⟩

def overlappingPushes : List Inst :=
  [stackInst .pushes 147 threeRegisters, stackInst .push 145 oneRegister]

def overlappingPops : List Inst :=
  [stackInst .pops 148 threeRegisters, stackInst .pop 146 oneRegister]

theorem pushes_overlapping :
    List.Forall₂ Parcel.Pushes [threeRegisters, oneRegister] overlappingPushes :=
  .cons ⟨Isa.mem_table_iff.mpr ⟨147, _, rfl, rfl⟩, rfl, rfl⟩
    (.cons ⟨Isa.mem_table_iff.mpr ⟨145, _, rfl, rfl⟩, rfl, rfl⟩ .nil)

theorem pops_overlapping :
    List.Forall₂ Parcel.Pops [threeRegisters, oneRegister] overlappingPops :=
  .cons ⟨Isa.mem_table_iff.mpr ⟨148, _, rfl, rfl⟩, rfl, rfl⟩
    (.cons ⟨Isa.mem_table_iff.mpr ⟨146, _, rfl, rfl⟩, rfl, rfl⟩ .nil)

def returnsAtOnce : Program where
  header := ⟨64, 64, 0, 0⟩
  code := #[0x86, 0x01]
  global := [1, 2, 3, 4]

/-- A register that was pushed twice comes back after it was changed. -/
theorem pops_invert_pushes_overlapping :
    ∃ p p' c m' m'', Proc.new returnsAtOnce {} = .ok p ∧ p.newCore 0 0 = (p', .ok c) ∧
      stepAll overlappingPushes ((⟨c, p'⟩ : Machine).setRegs (c.regs.setInt 2 7)) = (m', none) ∧
      stepAll overlappingPops.reverse (m'.setRegs (m'.core.regs.setInt 2 0)) = (m'', none) ∧
      m''.core.regs.int 2 = 7 := by
  obtain ⟨p, p', c, hp, made, hsize, hsp⟩ :
      ∃ p p' c, Proc.new returnsAtOnce {} = .ok p ∧ p.newCore 0 0 = (p', .ok c) ∧
        c.stack.size = 64 ∧ c.regs.sp = 0 :=
    ⟨_, _, _, rfl, Prod.ext rfl rfl, rfl, rfl⟩
  have hzero : c.regs.sp.toInt = 0 := by
    rw [hsp]
    rfl
  have hstack : ((⟨c, p'⟩ : Machine).setRegs (c.regs.setInt 2 7)).OnStack := by
    refine ⟨?_, ?_, ?_⟩
    · show c.stack.size < 2 ^ 32
      omega
    · show 0 ≤ c.regs.sp.toInt
      omega
    · show c.regs.sp.toInt ≤ c.stack.size
      omega
  have hfits : ((⟨c, p'⟩ : Machine).setRegs (c.regs.setInt 2 7)).Fits
      [threeRegisters, oneRegister] := by
    show c.regs.sp.toInt + (32 : Nat) ≤ c.stack.size
    omega
  obtain ⟨hback, hdone, -⟩ := pops_invert_pushes hstack pushes_overlapping pops_overlapping
  obtain ⟨m', hpushed⟩ := hdone hfits
  obtain ⟨m'', hpopped, -, hsaved, -⟩ := hback m' (m'.core.regs.setInt 2 0) hpushed rfl
  refine ⟨p, p', c, m', m'', hp, made, hpushed, hpopped, ?_⟩
  have htwo := hsaved oneRegister (by simp) 2 (by decide) (by decide)
  exact htwo.trans ((Registers.int_setInt ..).trans (if_pos rfl))

end Machine

end BlockVM
