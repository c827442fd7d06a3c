import BlockVM.Proofs.Machine.Footprint
import BlockVM.Proofs.Machine.Registers
import BlockVM.Proofs.Memory.Access

/-!
# The frame of a step

An instruction says by its family and its operands what it may change: the registers that it names,
the bytes that its first operand addresses, the slots that it pushes, and how far the stack pointer
moves. This is its scope. `step_keeps_frame` says that a step that succeeds changes nothing outside
the scope: no other register, no other byte of any arena, and nothing else of the core or the
process.
-/

namespace BlockVM

open Isa (Inst Decoded)

def Isa.Family.isService : Isa.Family → Bool
  | output | input | foutput | finput | draw | time | sleep | rand => true
  | _ => false

/-- What an instruction may change. -/
structure Scope where
  ints : List UInt8 := []
  floats : List UInt8 := []
  bytes : List UInt64 := []
  /-- How far the stack pointer moves. -/
  shift : Int := 0

/-- Consecutive registers. -/
def registers (first : UInt8) (n : Nat) : List UInt8 :=
  (List.range n).map fun k => first + UInt8.ofNat k

/-- The number of registers that a stack instruction names. -/
def Isa.Inst.count (i : Inst) : Nat :=
  if isRange i.family then (i.arg 1).index.toNat + 1 - (i.arg 0).index.toNat else 1

namespace Machine

def written (m : Machine) (a : Isa.Operand) : Scope :=
  match a.kind with
  | .reg => { ints := [a.index] }
  | .freg => { floats := [a.index] }
  | .mem | .byteMem | .quadMem | .fmem =>
    { bytes := span (m.proc.global.base + a.low.toUInt64) a.kind.access }
  | .ptr | .bytePtr | .quadPtr | .fptr =>
    { bytes := span (m.core.regs.int a.index) a.kind.access }
  | _ => {}

def pushBytes (m : Machine) (n : Nat) : List UInt64 :=
  span (m.core.stack.base + m.core.regs.sp.toUInt64) n

/-- What an instruction may change. -/
def scope (m : Machine) (i : Inst) : Scope :=
  let named := registers (i.arg 0).index i.count
  match i.family with
  | .push | .pushes => { bytes := m.pushBytes (i.count * 8), shift := i.count * 8 }
  | .fpush | .fpushes => { bytes := m.pushBytes (i.count * 4), shift := i.count * 4 }
  | .pop | .pops => { ints := named, shift := -(i.count * 8) }
  | .fpop | .fpops => { floats := named, shift := -(i.count * 4) }
  | _ =>
    match i.args with
    | [] => {}
    | a :: _ => m.written a

/-- The bytes are none, or a range of an arena that the core can address: the global data, its own
stack or what its address space holds. -/
def Addresses (m : Machine) (bytes : List UInt64) : Prop :=
  bytes = [] ∨ ∃ a ∈ m.proc.global :: m.core.stack :: m.proc.space.arenas, ∃ off n addr,
    a.locate off n = .ok addr ∧ bytes = span addr n.toNatClampNeg

/-- Nothing has changed outside the scope. -/
structure KeepsFrame (s : Scope) (m m' : Machine) : Prop where
  ints : ∀ r, r ∉ s.ints → m'.core.regs.int r = m.core.regs.int r
  floats : ∀ r, r ∉ s.floats → m'.core.regs.float r = m.core.regs.float r
  sp : m'.core.regs.sp.toInt = m.core.regs.sp.toInt + s.shift
  bytes : ∀ x, x ∉ s.bytes → m'.memory.load x = m.memory.load x
  /-- The bytes are within reach of the core. -/
  reach : m.Addresses s.bytes
  /-- Besides registers and memory nothing differs: ports, heaps, clock, random numbers, the address
  of the core, its cache and its arenas, and the other cores. -/
  rest : m' = (m.setRegs m'.core.regs).setMemory m'.memory

end Machine

theorem Memory.load_setWord_of_not_mem {m : Memory} {a x v : UInt64} {n : Nat} (h : x ∉ span a n) :
    (m.setWord a n v).load x = m.load x := by
  refine load_storeBytes_of_not_mem ?_
  rwa [LittleEndian.length_bytes]

/-! ## Destinations -/

/-- An operand in memory is accessed at the width of its kind. -/
theorem bytes_ofKind {k : Isa.Kind} (h : k.isGlobal = true ∨ k.isPointer = true) :
    (Access.ofKind k).bytes = k.access := by
  cases k <;> simp [Isa.Kind.isGlobal, Isa.Kind.isPointer] at h <;> rfl

/-- An offset that is not negative as a signed number is the same when it is extended by zeros. -/
theorem toUInt64_of_nonneg {x : UInt32} (h : 0 ≤ x.toInt32.toInt64.toInt) :
    x.toInt32.toInt64.toUInt64 = x.toUInt64 := by
  have hsigned := toNat_toUInt64_of_nonneg h
  rw [Int32.toInt_toInt64] at h hsigned
  have hbits : x.toInt32.toInt = (x.toNat : Int).bmod (2 ^ 32) :=
    BitVec.toInt_eq_toNat_bmod x.toBitVec
  have hlt := x.toNat_lt
  rw [hbits, Int.bmod_def] at h hsigned
  apply UInt64.toNat_inj.mp
  rw [UInt32.toNat_toUInt64]
  split at h <;> omega

namespace Machine

variable {m m' : Machine} {i : Inst}

/-- A global operand may write its bytes of the global data. -/
theorem written_global {a : Isa.Operand} (kind : a.kind.isGlobal = true) :
    m.written a = { bytes := span (m.proc.global.base + a.low.toUInt64) a.kind.access } := by
  unfold written
  cases hk : a.kind <;> rw [hk] at kind <;> cases kind

theorem written_pointer {a : Isa.Operand} (kind : a.kind.isPointer = true) :
    m.written a = { bytes := span (m.core.regs.int a.index) a.kind.access } := by
  unfold written
  cases hk : a.kind <;> rw [hk] at kind <;> cases kind

/-- A store changes the bytes that it was located at. -/
theorem keepsFrame_store {a : Arena} {off : Int64} {w : Access} {v : UInt64} {memory : Memory}
    (mem : a ∈ m.proc.global :: m.core.stack :: m.proc.space.arenas)
    (h : a.write m.memory off (Int64.ofNat w.bytes) v = .ok memory) :
    0 ≤ off.toInt ∧
      KeepsFrame { bytes := span (a.base + off.toUInt64) w.bytes } m (m.setMemory memory) := by
  obtain ⟨addr, located, rfl⟩ := Arena.locate_of_write h
  obtain ⟨-, nonneg, -, -, rfl⟩ := Arena.locate_eq_ok located
  rw [toNatClampNeg_bytes]
  refine ⟨nonneg, fun _ _ => rfl, fun _ _ => rfl, (Int.add_zero _).symm, fun x hx => ?_, ?_, rfl⟩
  · exact Memory.load_setWord_of_not_mem hx
  · exact .inr ⟨a, mem, off, _, _, located, by rw [toNatClampNeg_bytes]⟩

theorem keepsFrame_write {g : Int64} {a : Isa.Operand} {dst : Operand} {v : UInt64}
    (addressed : Addressed g a dst) (h : m.write i dst v = .ok m') :
    KeepsFrame (m.written a) m m' := by
  cases addressed with
  | reg kind =>
    cases h
    rw [written, kind]
    refine ⟨fun r hr => ?_, fun _ _ => rfl, (Int.add_zero _).symm, fun _ _ => rfl, .inl rfl, rfl⟩
    exact (Registers.int_setInt ..).trans (if_neg fun heq => hr (by simp [heq]))
  | global kind =>
    obtain ⟨memory, stored, h⟩ := bind_eq_ok.mp h
    cases h
    obtain ⟨nonneg, frame⟩ := keepsFrame_store (.head _) (mapError_eq_ok.mp stored)
    rw [written_global kind, ← bytes_ofKind (.inl kind), ← toUInt64_of_nonneg nonneg]
    exact frame
  | pointer kind =>
    obtain ⟨⟨x, off⟩, found, h⟩ := bind_eq_ok.mp h
    obtain ⟨memory, stored, h⟩ := bind_eq_ok.mp h
    cases h
    obtain ⟨mem, -, hoff⟩ := Space.resolve_eq_ok (mapError_eq_ok.mp found)
    obtain ⟨-, frame⟩ := keepsFrame_store (.tail _ (.tail _ mem)) stored
    -- What was found for the pointer has the address that the register holds.
    have haddr : x.base + off.toUInt64 = m.core.regs.int a.index := by
      rw [hoff, UInt64.toUInt64_toInt64, UInt64.add_comm, UInt64.sub_add_cancel]
    rw [written_pointer kind, ← bytes_ofKind (.inr kind), ← haddr]
    exact frame
  | freg | imm | fimm => cases h

theorem keepsFrame_writeF {g : Int64} {a : Isa.Operand} {dst : Operand} {bits : UInt32}
    (addressed : Addressed g a dst) (h : m.writeF i dst bits = .ok m') :
    KeepsFrame (m.written a) m m' := by
  unfold writeF at h
  split at h
  next r =>
    cases h
    cases addressed with
    | freg kind =>
      rw [written, kind]
      refine ⟨fun _ _ => rfl, fun r hr => ?_, (Int.add_zero _).symm, fun _ _ => rfl, .inl rfl, rfl⟩
      exact (Registers.float_setFloat ..).trans (if_neg fun heq => hr (by simp [heq]))
  · split at h
    all_goals exact keepsFrame_write addressed h

/-! ## The stack -/

def slotBytes (float : Bool) : Nat := if float then 4 else 8

theorem toInt_slotSize (float : Bool) : (slotSize float).toInt = slotBytes float := by
  cases float <;> rfl

theorem toUInt64_slotSize (float : Bool) :
    (slotSize float).toUInt64 = UInt64.ofNat (slotBytes float) := by
  cases float <;> rfl

theorem toNatClampNeg_slotSize (float : Bool) :
    (slotSize float).toNatClampNeg = slotBytes float := by
  cases float <;> rfl

theorem span_add (a : UInt64) (n k : Nat) :
    span a (n + k) = span a n ++ span (a + UInt64.ofNat n) k := by
  simp only [span, List.range_add, List.map_append, List.map_map, Function.comp_def,
    UInt64.ofNat_add, UInt64.add_assoc]

theorem registers_succ (first : UInt8) (n : Nat) :
    registers first (n + 1) = first :: registers (first + 1) n := by
  simp only [registers, List.range_succ_eq_map, List.map_cons, List.map_map, Function.comp_def]
  congr 1
  · exact UInt8.add_zero first
  · refine List.map_congr_left fun k _ => ?_
    show first + UInt8.ofNat (k + 1) = first + 1 + UInt8.ofNat k
    rw [Nat.add_comm, UInt8.ofNat_add, ← UInt8.add_assoc]
    rfl

/-- Slots that can all be located end below the largest offset: the first one here, the others by
`rest`. -/
theorem slots_below {stack : Arena} {float : Bool} {off : Int64} {addr : UInt64} {n : Nat}
    (located : stack.locate off (slotSize float) = .ok addr)
    (rest : 0 < n → 0 ≤ (off + slotSize float).toInt ∧
      (off + slotSize float).toInt + n * slotBytes float < 2 ^ 63) :
    0 ≤ off.toInt ∧ off.toInt + (n + 1 : Nat) * slotBytes float < 2 ^ 63 := by
  obtain ⟨-, nonneg, -, below, -⟩ := Arena.locate_eq_ok located
  have next : (off + slotSize float).toInt = off.toInt + slotBytes float := by
    rw [toInt_add_of_bounds (by rw [toInt_slotSize]; omega) below, toInt_slotSize]
  rw [toInt_slotSize] at below
  refine ⟨nonneg, ?_⟩
  rcases n.eq_zero_or_pos with rfl | hn
  · simpa using below
  · have := (rest hn).2
    push_cast
    rw [Int.add_mul]
    omega

/-- Storing a range changes the bytes of its slots only, by induction on the registers. -/
theorem storeRange_frame {stack : Arena} {regs : Registers} {float : Bool} {n : Nat} {r : UInt8}
    {off : Int64} {memory memory' : Memory}
    (h : storeRange stack regs float n r off memory = (memory', none)) :
    (∀ x, x ∉ span (stack.base + off.toUInt64) (n * slotBytes float) →
      memory'.load x = memory.load x) ∧
    (0 < n → 0 ≤ off.toInt ∧ off.toInt + n * slotBytes float < 2 ^ 63) := by
  induction n generalizing r off memory with
  | zero =>
    cases h
    exact ⟨fun _ _ => rfl, nofun⟩
  | succ n ih =>
    unfold storeRange at h
    split at h
    · cases h
    next mid stored =>
      obtain ⟨addr, located, rfl⟩ := Arena.locate_of_write stored
      obtain ⟨frame, bounds⟩ := ih h
      refine ⟨fun x hx => ?_, fun _ => slots_below located bounds⟩
      -- The span of the range is the first slot followed by the span of the others.
      · obtain ⟨-, -, -, -, rfl⟩ := Arena.locate_eq_ok located
        rw [Nat.succ_mul, Nat.add_comm, span_add, List.mem_append, not_or, ← toUInt64_slotSize,
          UInt64.add_assoc, ← Int64.toUInt64_add] at hx
        rw [frame x hx.2]
        refine Memory.load_setWord_of_not_mem ?_
        rw [toNatClampNeg_slotSize]
        exact hx.1

theorem loadRange_frame {stack : Arena} {memory : Memory} {float : Bool} {n : Nat} {r : UInt8}
    {off : Int64} {regs regs' : Registers}
    (h : loadRange stack memory float n r off regs = (regs', none)) :
    (∀ s, float = true ∨ s ∉ registers r n → regs'.int s = regs.int s) ∧
    (∀ s, float = false ∨ s ∉ registers r n → regs'.float s = regs.float s) ∧
    (0 < n → 0 ≤ off.toInt ∧ off.toInt + n * slotBytes float < 2 ^ 63) := by
  induction n generalizing r off regs with
  | zero =>
    cases h
    exact ⟨fun _ _ => rfl, fun _ _ => rfl, nofun⟩
  | succ n ih =>
    unfold loadRange at h
    split at h
    · cases h
    next v loaded =>
      obtain ⟨addr, located, -⟩ := Arena.locate_of_read loaded
      obtain ⟨ints, floats, bounds⟩ := ih h
      refine ⟨fun s hs => ?_, fun s hs => ?_, fun _ => slots_below located bounds⟩
      -- A register that is not among the loaded ones is neither the first nor one of the rest.
      · rw [registers_succ, List.mem_cons, not_or] at hs
        rw [ints s (hs.imp_right (·.2))]
        cases float with
        | true => rfl
        | false =>
          refine (Registers.int_setInt ..).trans (if_neg fun heq => ?_)
          exact (hs.resolve_left nofun).1 heq.symm
      · rw [registers_succ, List.mem_cons, not_or] at hs
        rw [floats s (hs.imp_right (·.2))]
        cases float with
        | false => rfl
        | true =>
          refine (Registers.float_setFloat ..).trans (if_neg fun heq => ?_)
          exact (hs.resolve_left nofun).1 heq.symm

/-- A range that passed its check and does not wrap can be located. -/
theorem locate_of_inBounds {a : Arena} {off n : Int64} (inside : a.inBounds off n = true)
    (below : off.toInt + n.toInt < 2 ^ 63) : a.locate off n = .ok (a.base + off.toUInt64) := by
  have hin := inside
  simp only [Arena.inBounds, Bool.and_eq_true, decide_eq_true_eq, toInt_nonneg_iff] at hin
  have hwrap : ¬ off + n < off := by
    rw [Int64.lt_iff_toInt_lt, toInt_add_of_bounds (by omega) below]
    omega
  unfold Arena.locate
  rw [inside, if_neg hwrap]
  rfl

/-- A push changes the slots above the old stack pointer, and the stack pointer. -/
theorem keepsFrame_push {r : RegRange} (some : 0 < r.count) (h : m.push i r = (m', none)) :
    KeepsFrame { bytes := m.pushBytes r.bytes, shift := r.bytes } m m' := by
  unfold push at h
  dsimp only at h
  split at h
  next room =>
    split at h
    · cases h
    next memory stored =>
      cases h
      obtain ⟨frame, bounds⟩ := storeRange_frame stored
      obtain ⟨nonneg, below⟩ := bounds some
      have hbytes : (r.bytes : Int) = r.count * slotBytes r.float := Int.natCast_mul ..
      -- With at least one slot stored, the length is that of a range inside the stack.
      have hlength : (Int64.ofNat r.bytes).toInt = r.bytes := Int64.toInt_ofNat_of_lt (by omega)
      have moved : (m.core.regs.sp + Int64.ofNat r.bytes).toInt =
          m.core.regs.sp.toInt + r.bytes := by
        rw [toInt_add_of_bounds (by omega) (by omega), hlength]
      refine ⟨fun _ _ => rfl, fun _ _ => rfl, moved, frame, .inr ?_, rfl⟩
      · refine ⟨m.core.stack, .tail _ (.head _), _, _, _, locate_of_inBounds room ?_, ?_⟩
        · rw [hlength]
          omega
        · rw [Int64.toNatClampNeg_ofNat_of_lt (by omega)]
          rfl
  · cases h

/-- A pop changes the registers of its range and the stack pointer. -/
theorem keepsFrame_pop {r : RegRange} (some : 0 < r.count) (h : m.pop i r = (m', none)) :
    KeepsFrame {
      ints := if r.float then [] else registers r.first r.count
      floats := if r.float then registers r.first r.count else []
      shift := -r.bytes } m m' := by
  unfold pop at h
  dsimp only at h
  split at h
  next held =>
    split at h
    · cases h
    next regs loaded =>
      cases h
      obtain ⟨ints, floats, bounds⟩ := loadRange_frame loaded
      obtain ⟨nonneg, below⟩ := bounds some
      have hbytes : (r.bytes : Int) = r.count * slotBytes r.float := Int.natCast_mul ..
      have hlength : (Int64.ofNat r.bytes).toInt = r.bytes := Int64.toInt_ofNat_of_lt (by omega)
      refine ⟨fun s hs => ?_, fun s hs => ?_, ?_, fun _ _ => rfl, .inl rfl, rfl⟩
      · refine ints s ?_
        cases hf : r.float with
        | true => exact .inl rfl
        | false => exact .inr (by simpa [hf] using hs)
      · refine floats s ?_
        cases hf : r.float with
        | true => exact .inr (by simpa [hf] using hs)
        | false => exact .inl rfl
      · -- The old stack pointer is the sum of the new one and the length, which does not wrap.
        have back : m.core.regs.sp =
            m.core.regs.sp - Int64.ofNat r.bytes + Int64.ofNat r.bytes := by
          rw [Int64.sub_add_cancel]
        show (m.core.regs.sp - Int64.ofNat r.bytes).toInt = m.core.regs.sp.toInt + -r.bytes
        rw [back, toInt_add_of_bounds, Int64.add_sub_cancel, hlength]
        all_goals omega
  · cases h

/-! ## Instructions -/

/-- A committed step keeps the frame of what it commits. -/
theorem keepsFrame_commit {s : Scope} {r : Except Stop Machine} (done : m.commit r = (m', none))
    (h : r = .ok m' → KeepsFrame s m m') : KeepsFrame s m m' := by
  cases r with
  | error e => cases done
  | ok m₁ =>
    cases done
    exact h rfl

/-- An action with a destination changes its destination. -/
theorem keepsFrame_destination {a : Action} {dst : Operand} {g : Int64} {x : Isa.Operand}
    (hd : a.destination = some dst) (own : ∀ s, a ≠ .service s) (addressed : Addressed g x dst)
    (done : m.perform i a = (m', none)) : KeepsFrame (m.written x) m m' := by
  -- Whatever is computed, it is written last and to the destination alone.
  cases a with
  | move _ src =>
    cases hd
    refine keepsFrame_commit done fun h => ?_
    obtain ⟨v, -, h⟩ := bind_eq_ok.mp h
    exact keepsFrame_write addressed h
  | arith op _ src =>
    cases hd
    refine keepsFrame_commit done fun h => ?_
    obtain ⟨v, -, h⟩ := bind_eq_ok.mp h
    obtain ⟨w, -, h⟩ := bind_eq_ok.mp h
    obtain ⟨result, -, h⟩ := bind_eq_ok.mp h
    exact keepsFrame_write addressed h
  | compare rel _ src =>
    cases hd
    refine keepsFrame_commit done fun h => ?_
    obtain ⟨v, -, h⟩ := bind_eq_ok.mp h
    obtain ⟨w, -, h⟩ := bind_eq_ok.mp h
    exact keepsFrame_write addressed h
  | fcompare rel _ v w =>
    cases hd
    exact keepsFrame_commit done (keepsFrame_write addressed)
  | fmove _ src =>
    cases hd
    refine keepsFrame_commit done fun h => ?_
    obtain ⟨v, -, h⟩ := bind_eq_ok.mp h
    exact keepsFrame_writeF addressed h
  | farith op _ src =>
    cases hd
    refine keepsFrame_commit done fun h => ?_
    obtain ⟨v, -, h⟩ := bind_eq_ok.mp h
    obtain ⟨w, -, h⟩ := bind_eq_ok.mp h
    exact keepsFrame_writeF addressed h
  | push | pop | pushRange | popRange | nop => cases hd
  | service s => exact absurd rfl (own s)

/-- An instruction whose action has a first operand has a first argument. -/
theorem args_eq_cons {g : Int64} {o : Operand} {ops : List Operand}
    (hops : operandsOf i g = .ok ops) (hhead : ops.head? = some o) :
    ∃ rest, i.args = i.arg 0 :: rest := by
  unfold operandsOf at hops
  unfold Isa.Inst.arg
  cases hargs : i.args with
  | nil =>
    rw [hargs] at hops
    cases hops
    cases hhead
  | cons a rest => exact ⟨rest, rfl⟩

theorem args_eq_nil {g : Int64} (hops : operandsOf i g = .ok []) : i.args = [] := by
  unfold operandsOf at hops
  cases hargs : i.args with
  | nil => rfl
  | cons a rest =>
    rw [hargs] at hops
    obtain ⟨o, ops, -, -, h⟩ := operandsFrom_cons hops
    cases h

theorem scope_of_first {rest : List Isa.Operand} (hargs : i.args = i.arg 0 :: rest)
    (hf : i.family.isStack = false) : m.scope i = m.written (i.arg 0) := by
  unfold scope
  dsimp only
  rw [hargs]
  generalize i.family = f at hf
  cases f <;> first | rfl | cases hf

theorem scope_of_none (hargs : i.args = []) (hf : i.family.isStack = false) : m.scope i = {} := by
  unfold scope
  dsimp only
  rw [hargs]
  generalize i.family = f at hf
  cases f <;> first | rfl | cases hf

end Machine

namespace Action

variable {f : Isa.Family} {w : Nat} {ops : List Operand}

theorem isService_of? {s : Service} (h : of? f w ops = some (.service s)) : f.isService = true := by
  cases asked_of_of? h <;> rfl

theorem nop_of? (h : of? f w ops = some .nop) : ops = [] := by
  cases asked_of_of? h
  rfl

end Action

namespace Machine

variable {m m' : Machine} {i : Inst}

/-- The registers of a stack instruction are those that its operands name. -/
theorem range_eq {code : Array UInt8} {pc g : Int64} {ops : List Operand} {r : RegRange}
    (hi : Decoded code pc i) (hops : operandsOf i g = .ok ops) (hf : i.family.isStack = true)
    (h : (∃ o, ops = [o] ∧ r = .single r.float o ∧ isRange i.family = false) ∨
      (∃ o o', ops = [o, o'] ∧ r = .between r.float o o' ∧ isRange i.family = true)) :
    r.first = (i.arg 0).index ∧ r.count = i.count := by
  have hkind := Action.kinds_of_isStack (Isa.shaped_of_mem_table hi.known) hf
  rcases h with ⟨o, rfl, hr, hrange⟩ | ⟨o, o', rfl, hr, hrange⟩
  · obtain ⟨ha, hk⟩ := addressed_of_operandsOf hi hops (k := 0) rfl
    have hindex := ha.index_eq (hkind _ (List.mem_of_getElem? hk))
    rw [hr, Isa.Inst.count, hrange]
    exact ⟨hindex, rfl⟩
  · obtain ⟨ha, hka⟩ := addressed_of_operandsOf hi hops (k := 0) rfl
    obtain ⟨hb, hkb⟩ := addressed_of_operandsOf hi hops (k := 1) rfl
    have hfirst := ha.index_eq (hkind _ (List.mem_of_getElem? hka))
    have hlast := hb.index_eq (hkind _ (List.mem_of_getElem? hkb))
    rw [hr, Isa.Inst.count, hrange, ← hfirst, ← hlast]
    exact ⟨rfl, rfl⟩

theorem bytes_eq {r : RegRange} {n : Nat} (hcount : r.count = n) :
    r.bytes = n * slotBytes r.float := by
  rw [← hcount]
  rfl

/-- The scope of a push is what its range covers on the stack. -/
theorem scope_of_pushed {code : Array UInt8} {pc g : Int64} {ops : List Operand} {a : Action}
    {r : RegRange} (hi : Decoded code pc i) (hops : operandsOf i g = .ok ops)
    (hof : Action.of? i.family i.info.width ops = some a) (hp : a.pushed = some r) :
    m.scope i = { bytes := m.pushBytes r.bytes, shift := r.bytes } := by
  have hstack := Action.isStack_of_pushed hof hp
  rcases Action.range_of_pushed hof hp with ⟨o, hone, hr, hf⟩ | ⟨o, o', htwo, hr, hf⟩
  · have hrange : isRange i.family = false := by rw [hf]; cases r.float <;> rfl
    obtain ⟨-, hcount⟩ := range_eq hi hops hstack (.inl ⟨o, hone, hr, hrange⟩)
    rw [bytes_eq hcount, scope, hf]
    cases r.float <;> rfl
  · have hrange : isRange i.family = true := by rw [hf]; cases r.float <;> rfl
    obtain ⟨-, hcount⟩ := range_eq hi hops hstack (.inr ⟨o, o', htwo, hr, hrange⟩)
    rw [bytes_eq hcount, scope, hf]
    cases r.float <;> rfl

theorem scope_of_popped {code : Array UInt8} {pc g : Int64} {ops : List Operand} {a : Action}
    {r : RegRange} (hi : Decoded code pc i) (hops : operandsOf i g = .ok ops)
    (hof : Action.of? i.family i.info.width ops = some a) (hp : a.popped = some r) :
    m.scope i = {
      ints := if r.float then [] else registers r.first r.count
      floats := if r.float then registers r.first r.count else []
      shift := -r.bytes } := by
  have hstack := Action.isStack_of_popped hof hp
  rcases Action.range_of_popped hof hp with ⟨o, hone, hr, hf⟩ | ⟨o, o', htwo, hr, hf⟩
  · have hrange : isRange i.family = false := by rw [hf]; cases r.float <;> rfl
    obtain ⟨hfirst, hcount⟩ := range_eq hi hops hstack (.inl ⟨o, hone, hr, hrange⟩)
    rw [bytes_eq hcount, hfirst, hcount, scope, hf]
    cases r.float <;> rfl
  · have hrange : isRange i.family = true := by rw [hf]; cases r.float <;> rfl
    obtain ⟨hfirst, hcount⟩ := range_eq hi hops hstack (.inr ⟨o, o', htwo, hr, hrange⟩)
    rw [bytes_eq hcount, hfirst, hcount, scope, hf]
    cases r.float <;> rfl

/-- A step of an instruction that asks the host for nothing changes what lies in the scope of the
instruction and nothing else. -/
theorem step_keeps_frame {code : Array UInt8} {pc : Int64}
    (read : Isa.decode code pc = .ok i) (own : i.family.isService = false)
    (done : m.step i = (m', none)) : KeepsFrame (m.scope i) m m' := by
  have hi := Isa.decode_eq_ok read
  unfold step at done
  split at done
  · cases done
  next a hinst =>
    have lawful := Action.lawful_of_ofInst hi hinst
    obtain ⟨-, ops, hops, hof⟩ := Action.ofInst_eq_ok hinst
    have hservice : ∀ s, a ≠ .service s := by
      rintro s rfl
      rw [Action.isService_of? hof] at own
      cases own
    -- The scope is that of the first operand, of the registers pushed or popped, or empty.
    cases a with
    | move dst | arith _ dst | compare _ dst | fcompare _ dst | fmove dst | farith _ dst =>
      obtain ⟨hhead, -, -⟩ := Action.head?_of_destination hof rfl
      obtain ⟨rest, hargs⟩ := args_eq_cons hops hhead
      rw [scope_of_first hargs (Action.isStack_of? hof).symm]
      rw [List.head?_eq_getElem?] at hhead
      obtain ⟨addressed, -⟩ := addressed_of_operandsOf hi hops hhead
      exact keepsFrame_destination rfl hservice addressed done
    | push r | pushRange r =>
      rw [scope_of_pushed hi hops hof rfl]
      exact keepsFrame_push (lawful.pushed r rfl).1 done
    | pop r | popRange r =>
      rw [scope_of_popped hi hops hof rfl]
      exact keepsFrame_pop (lawful.popped r rfl).1 done
    | nop =>
      cases done
      rw [Action.nop_of? hof] at hops
      rw [scope_of_none (args_eq_nil hops) (Action.isStack_of? hof).symm]
      exact ⟨fun _ _ => rfl, fun _ _ => rfl, (Int.add_zero _).symm, fun _ _ => rfl, .inl rfl, rfl⟩
    | service s => exact absurd rfl (hservice s)

/-- A program that stores one byte of its global data. -/
def storesByte : Program where
  header := ⟨64, 64, 0, 0⟩
  code := #[0x75, 0x00, 0x02, 0x00, 0x00, 0x00, 0x07]
  global := [1, 2, 3, 4]

def onlyStore : Inst where
  pc := 0
  info := Isa.Definition.info ⟨.bmov, 0, [.plain .byteMem, .plain .imm8]⟩ 117
  args := [⟨.byteMem, 2⟩, ⟨.imm8, 7⟩]

theorem decode_storesByte : Isa.decode storesByte.code 0 = .ok onlyStore := by
  have hpeek : Isa.peek storesByte.code 0 = .ok onlyStore.info :=
    @Isa.entry_eq_ok 0 117 _ rfl
  unfold Isa.decode
  rw [hpeek]
  rfl

/-- The store changes one byte of the global data. -/
theorem step_keeps_frame_storesByte :
    ∃ p p' c m', Proc.new storesByte {} = .ok p ∧ p.newCore 0 0 = (p', .ok c) ∧
      step ⟨c, p'⟩ onlyStore = (m', none) ∧ m'.memory.load (p'.global.base + 2) = 7 ∧
      KeepsFrame { bytes := [p'.global.base + 2] } ⟨c, p'⟩ m' := by
  obtain ⟨p, p', c, m', hp, made, done, stored, hscope⟩ : ∃ p p' c m',
      Proc.new storesByte {} = .ok p ∧ p.newCore 0 0 = (p', .ok c) ∧
      step ⟨c, p'⟩ onlyStore = (m', none) ∧ m'.memory.load (p'.global.base + 2) = 7 ∧
      scope ⟨c, p'⟩ onlyStore = { bytes := [p'.global.base + 2] } :=
    ⟨_, _, _, _, rfl, Prod.ext rfl rfl, Prod.ext rfl rfl,
      (Memory.load_store ..).trans (if_pos rfl), rfl⟩
  have frame := step_keeps_frame decode_storesByte rfl done
  rw [hscope] at frame
  exact ⟨p, p', c, m', hp, made, done, stored, frame⟩

end Machine

end BlockVM
