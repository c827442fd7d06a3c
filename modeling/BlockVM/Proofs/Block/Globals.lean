import BlockVM.Block.Lower
import BlockVM.Machine.Eval
import BlockVM.Proofs.Block.Prepared
import BlockVM.Proofs.Memory.Access
import BlockVM.X86.Machine
import Mathlib.Data.List.Forall2

/-!
# Offsets into global data

The offsets of an instruction into the global data are checked once, when its operands are
addressed; no later step checks them again. `accepted_globals_in_bounds` says what the check is
worth:

* an instruction is refused exactly if one of its global operands ends behind the global data, and
  the first of them is reported;
* an operand that is accepted lies inside the global data;
* the addressed operand keeps the offset as a *signed* word. It is the offset of the instruction,
  and generated code and the evaluator access the bytes that the check was about, exactly if the
  offset is below `2 ^ 31`.

The last condition is no part of the check. `farByte_addressed_below` has an operand in the upper
half of a large global data space that is accepted and then addressed below the space.
-/

namespace BlockVM

open Isa (Inst)

/-- A global operand that ends behind `g` bytes of global data. -/
def Isa.Operand.Overhangs (a : Isa.Operand) (g : Int64) : Prop :=
  a.kind.isGlobal = true ∧ g.toInt < a.low.toNat + (Access.ofKind a.kind).bytes

/-! ## The check of one operand -/

section Check

variable {i : Inst} {slot : Nat} {a : Isa.Operand} {g : Int64}

/-- The check is made with signed words, in which the end of an operand does not wrap. -/
theorem lt_end_iff (w : Access) (n : UInt32) :
    g < Int64.ofNat (n.toNat + w.bytes) ↔ g.toInt < n.toNat + w.bytes := by
  have hn := n.toNat_lt
  have hw : w.bytes ≤ 8 := by cases w <;> decide
  rw [Int64.lt_iff_toInt_lt, Int64.toInt_ofNat_of_lt (by omega)]
  omega

/-- What a global operand is resolved to: it is refused exactly if it ends behind the global
data. -/
theorem operandOf_global (h : a.kind.isGlobal = true) :
    operandOf i slot a g =
      if g < Int64.ofNat (a.low.toNat + (Access.ofKind a.kind).bytes) then
        .error (outsideGlobal i a.low (Access.ofKind a.kind) g)
      else .ok (.global a.low.toInt32 (Access.ofKind a.kind) a.kind.isFloat) := by
  unfold operandOf
  cases hk : a.kind <;> rw [hk] at h <;> first | rfl | cases h

/-- Outside control flow only a global operand can be refused. -/
theorem operandOf_other (h : a.kind.isGlobal = false) (haddr : a.kind ≠ .addr)
    (hdisp : a.kind ≠ .disp) :
    ∃ o, operandOf i slot a g = .ok o ∧ ∀ off w float, o ≠ .global off w float := by
  unfold operandOf
  cases hk : a.kind <;> simp_all [Isa.Kind.isGlobal]

/-- An operand is refused exactly if it is a global operand that overhangs. -/
theorem operandOf_error_iff {e : Stop} (haddr : a.kind ≠ .addr) (hdisp : a.kind ≠ .disp) :
    operandOf i slot a g = .error e ↔
      a.Overhangs g ∧ e = outsideGlobal i a.low (Access.ofKind a.kind) g := by
  unfold Isa.Operand.Overhangs
  rw [← lt_end_iff]
  cases h : a.kind.isGlobal with
  | false =>
    obtain ⟨o, ho, -⟩ := @operandOf_other i slot a g h haddr hdisp
    simp [ho]
  | true =>
    rw [operandOf_global h]
    split
    next hlt => simp only [Except.error.injEq, hlt, true_and, eq_comm]
    next hge => simp only [reduceCtorEq, hge, and_false, false_and]

end Check

/-! ## The operands of an instruction -/

def StraightKinds (kinds : List Isa.Kind) : Prop := ∀ k ∈ kinds, k ≠ .addr ∧ k ≠ .disp

/-- No family that stays inside a block has an operand that is a code address. -/
theorem straight_definitions :
    ∀ d ∈ Isa.definitions, d.family.isControl = false →
      ∀ s ∈ d.slots, s.kind ≠ .addr ∧ s.kind ≠ .disp := by
  decide +kernel

/-- Only control transfers have a place in the code as an operand. -/
theorem straight_of_decode {code : Array UInt8} {pc : Int64} {i : Inst}
    (read : Isa.decode code pc = .ok i) (plain : i.info.isControl = false) :
    StraightKinds (i.args.map (·.kind)) := by
  have hi := Isa.decode_eq_ok read
  obtain ⟨op, d, hd, hinfo⟩ := Isa.mem_table_iff.mp hi.known
  rw [hi.kinds_eq]
  rw [hinfo] at plain ⊢
  intro k hk
  obtain ⟨s, hs, rfl⟩ := List.mem_map.mp hk
  exact straight_definitions d (List.mem_of_getElem? hd) plain s hs

/-- The operands are refused because of the first one that overhangs. -/
theorem operandsFrom_error_iff {i : Inst} {g : Int64} {e : Stop} {slot : Nat}
    {args : List Isa.Operand} (hs : StraightKinds (args.map (·.kind))) :
    operandsFrom i g slot args = .error e ↔ ∃ before a after, args = before ++ a :: after ∧
      (∀ b ∈ before, ¬ b.Overhangs g) ∧ a.Overhangs g ∧
      e = outsideGlobal i a.low (Access.ofKind a.kind) g := by
  induction args generalizing slot with
  | nil => simp [operandsFrom]
  | cons a args ih =>
    -- The operands are read in order: this one overhangs, or it is accepted and the rest is read.
    obtain ⟨⟨haddr, hdisp⟩, hrest⟩ := List.forall_mem_cons.mp hs
    have head := @operandOf_error_iff i slot a g e haddr hdisp
    unfold operandsFrom
    rw [bind_eq_error]
    constructor
    · rintro (herr | ⟨o, ho, herr⟩)
      · obtain ⟨hover, rfl⟩ := head.mp herr
        exact ⟨[], a, args, rfl, List.forall_mem_nil _, hover, rfl⟩
      · have hfine : ¬ a.Overhangs g := by
          intro hover
          have := (@operandOf_error_iff i slot a g _ haddr hdisp).mpr ⟨hover, rfl⟩
          rw [ho] at this
          cases this
        have herr : operandsFrom i g (slot + 1) args = .error e := by
          rcases bind_eq_error.mp herr with herr | ⟨_, _, herr⟩
          · exact herr
          · cases herr
        obtain ⟨before, b, after, rfl, hbefore, hover, rfl⟩ := (ih hrest).mp herr
        exact ⟨a :: before, b, after, rfl, List.forall_mem_cons.mpr ⟨hfine, hbefore⟩, hover, rfl⟩
    · rintro ⟨before, b, after, hsplit, hbefore, hover, rfl⟩
      cases before with
      | nil =>
        cases hsplit
        exact .inl (head.mpr ⟨hover, rfl⟩)
      | cons c before =>
        cases hsplit
        obtain ⟨hfine, hbefore⟩ := List.forall_mem_cons.mp hbefore
        cases ho : operandOf i slot a g with
        | error e' => exact absurd ((operandOf_error_iff haddr hdisp).mp ho).1 hfine
        | ok o =>
          refine .inr ⟨o, rfl, bind_eq_error.mpr (.inl ?_)⟩
          exact (ih hrest).mpr ⟨before, b, after, rfl, hbefore, hover, rfl⟩

/-! ## The bytes of an accepted operand -/

/-- Generated code and the evaluator both access the bytes at the offset `n` of the global data: the
code has no check in front of the access, and the access of the evaluator never fails. -/
def AccessesGlobal (i : Inst) (g : Int64) (n : Nat) (o : Operand) : Prop :=
  ∀ (m : Machine) (c : X86.Cpu) (tmp : X86.Reg), m.proc.global.Mapped →
    (m.proc.global.size : Int) = g.toInt → c.reg Lower.globalBase = m.proc.global.base →
    ∃ place, Lower.place o tmp = ([], place) ∧
      (c.address place).toNat = m.proc.global.base.toNat + n ∧
      m.read i o = .ok (m.memory.word (c.address place) o.width.bytes) ∧
      ∀ v, m.write i o v = .ok (m.setMemory (m.memory.setWord (c.address place) o.width.bytes v))

/-- What an operand of an accepted instruction stands for, as far as global data is concerned. -/
structure Grounded (i : Inst) (g : Int64) (a : Isa.Operand) (o : Operand) : Prop where
  global_iff : a.kind.isGlobal = true ↔ ∃ off w float, o = .global off w float
  inside : ∀ off w float, o = .global off w float →
    w = Access.ofKind a.kind ∧ (a.low.toNat + w.bytes : Int) ≤ g.toInt
  kept : ∀ off w float, o = .global off w float → (off.toInt = a.low.toNat ↔ a.low.toNat < 2 ^ 31)
  accessed : a.kind.isGlobal = true → a.low.toNat < 2 ^ 31 → AccessesGlobal i g a.low.toNat o

/-- A word and its signed reading are the same number in the lower half only. -/
theorem toInt_toInt32_iff (n : UInt32) : n.toInt32.toInt = n.toNat ↔ n.toNat < 2 ^ 31 := by
  have hbits : n.toInt32.toInt = (n.toNat : Int).bmod (2 ^ 32) :=
    BitVec.toInt_eq_toNat_bmod n.toBitVec
  have hn := n.toNat_lt
  rw [hbits, Int.bmod_def]
  split <;> omega

/-- An operand whose offset is below 2³¹ reaches exactly the bytes of the global data that the
instruction names. -/
theorem accessesGlobal {i : Inst} {g : Int64} {n : UInt32} {w : Access} {float : Bool}
    (low : n.toNat < 2 ^ 31) (inside : (n.toNat + w.bytes : Int) ≤ g.toInt) :
    AccessesGlobal i g n.toNat (.global n.toInt32 w float) := by
  intro m c tmp mapped hsize hbase
  -- The offset fits into 31 bits, so storing it as a signed word does not change it.
  have hoff : n.toInt32.toInt64.toInt = n.toNat := by
    rw [Int32.toInt_toInt64]
    exact (toInt_toInt32_iff n).mpr low
  have hwidth : (Int64.ofNat w.bytes).toInt = w.bytes ∧
      Arena.isWidth (Int64.ofNat w.bytes) = true := by
    cases w <;> decide
  have within : m.proc.global.Within n.toInt32.toInt64 (Int64.ofNat w.bytes) := by
    constructor <;> omega
  have hread := Arena.read_of_within (m := m.memory) mapped.size_lt within hwidth.2
  have hwrite (v : UInt64) := Arena.write_of_within (m := m.memory) (v := v) mapped.size_lt within
    hwidth.2
  have haddr : c.address (.based Lower.globalBase n.toInt32) =
      m.proc.global.base + n.toInt32.toInt64.toUInt64 := by
    rw [X86.Cpu.address, hbase]
  refine ⟨.based Lower.globalBase n.toInt32, rfl, ?_, ?_, ?_⟩
  · -- The sum does not wrap: the arena ends in the lower half of the address space.
    have hend := mapped.high
    have hword := toNat_toUInt64_of_nonneg (x := n.toInt32.toInt64) (by omega)
    rw [haddr, UInt64.toNat_add, Nat.mod_eq_of_lt (by omega)]
    omega
  · rw [haddr, Machine.read, hread, toNatClampNeg_bytes]
    rfl
  · intro v
    rw [haddr, Machine.write, hwrite v, toNatClampNeg_bytes]
    rfl

/-- Every operand that is resolved is grounded: a global one was checked, and the others do not
reach the global data. -/
theorem grounded_of_operandOf {i : Inst} {slot : Nat} {a : Isa.Operand} {g : Int64} {o : Operand}
    (haddr : a.kind ≠ .addr) (hdisp : a.kind ≠ .disp) (h : operandOf i slot a g = .ok o) :
    Grounded i g a o := by
  cases hk : a.kind.isGlobal with
  | false =>
    obtain ⟨o', ho', hnone⟩ := @operandOf_other i slot a g hk haddr hdisp
    rw [h] at ho'
    cases ho'
    constructor
    · simp [hk, hnone]
    · intro off w float ho
      exact absurd ho (hnone off w float)
    · intro off w float ho
      exact absurd ho (hnone off w float)
    · simp [hk]
  | true =>
    -- Only a global operand is checked against the size, and what
    -- it checks is what grounding asks for.
    rw [operandOf_global hk] at h
    split at h
    · cases h
    next hfits =>
      rw [lt_end_iff, Int.not_lt] at hfits
      cases h
      constructor
      · simp [hk]
      · rintro off w float ⟨⟩
        exact ⟨rfl, hfits⟩
      · rintro off w float ⟨⟩
        exact toInt_toInt32_iff a.low
      · intro _ low
        exact accessesGlobal low hfits

theorem grounded_of_operandsFrom {i : Inst} {g : Int64} {slot : Nat} {args : List Isa.Operand}
    {ops : List Operand} (hs : StraightKinds (args.map (·.kind)))
    (h : operandsFrom i g slot args = .ok ops) : List.Forall₂ (Grounded i g) args ops := by
  induction args generalizing slot ops with
  | nil =>
    cases h
    exact .nil
  | cons a args ih =>
    obtain ⟨⟨haddr, hdisp⟩, hrest⟩ := List.forall_mem_cons.mp hs
    obtain ⟨o, rest, ho, hops, rfl⟩ := operandsFrom_cons h
    exact .cons (grounded_of_operandOf haddr hdisp ho) (ih hrest hops)

/-- The global operands of an instruction outside control flow. They are refused exactly if one of
them overhangs; accepted ones are inside the global data, and those in its first `2 ^ 31` bytes are
accessed where they are. -/
theorem accepted_globals_in_bounds {code : Array UInt8} {pc : Int64} {i : Inst}
    (read : Isa.decode code pc = .ok i) (plain : i.info.isControl = false) (g : Int64) :
    ((∃ e, operandsOf i g = .error e) ↔ ∃ a ∈ i.args, a.Overhangs g) ∧
    (∀ e, operandsOf i g = .error e → ∃ before a after, i.args = before ++ a :: after ∧
      (∀ b ∈ before, ¬ b.Overhangs g) ∧ a.Overhangs g ∧
      e = outsideGlobal i a.low (Access.ofKind a.kind) g) ∧
    ∀ ops, operandsOf i g = .ok ops → List.Forall₂ (Grounded i g) i.args ops := by
  have hs := straight_of_decode read plain
  have refused (e : Stop) := @operandsFrom_error_iff i g e 0 i.args hs
  refine ⟨⟨?_, ?_⟩, fun e => (refused e).mp, fun ops => grounded_of_operandsFrom hs⟩
  · rintro ⟨e, he⟩
    obtain ⟨before, a, after, hsplit, -, hover, -⟩ := (refused e).mp he
    exact ⟨a, by simp [hsplit], hover⟩
  · rintro ⟨a, ha, hover⟩
    cases h : operandsOf i g with
    | error e => exact ⟨e, rfl⟩
    | ok ops =>
      -- An operand that is accepted does not overhang.
      have hall := grounded_of_operandsFrom hs h
      obtain ⟨k, hk, rfl⟩ := List.getElem_of_mem ha
      have hground := hall.get hk (by rw [← hall.length_eq]; exact hk)
      obtain ⟨off, w, float, ho⟩ := hground.global_iff.mp hover.1
      obtain ⟨rfl, hinside⟩ := hground.inside off w float ho
      have := hover.2
      simp only [List.get_eq_getElem] at hinside
      omega

/-! ### Operands around the middle of the offsets -/

/-- Code that copies a byte from the upper half of the offsets to the end of the lower half. -/
def copyDown : Array UInt8 := #[0x77, 0x00, 0xff, 0xff, 0xff, 0x7f, 0x00, 0x00, 0x00, 0x80]

def copyDownInst : Inst where
  pc := 0
  info := Isa.Definition.info ⟨.bmov, 0, [.plain .byteMem, .plain .byteMem]⟩ 119
  args := [⟨.byteMem, 0x7fffffff⟩, ⟨.byteMem, 0x80000000⟩]

theorem decode_copyDown : Isa.decode copyDown 0 = .ok copyDownInst := by
  have hpeek : Isa.peek copyDown 0 = .ok copyDownInst.info := @Isa.entry_eq_ok 0 119 _ rfl
  unfold Isa.decode
  rw [hpeek]
  rfl

/-- The source is refused as long as the global data ends at it. -/
theorem accepted_globals_in_bounds_copyDown :
    Isa.decode copyDown 0 = .ok copyDownInst ∧ copyDownInst.info.isControl = false ∧
    (∃ e, operandsOf copyDownInst 0x80000000 = .error e) ∧
    ∀ ops, operandsOf copyDownInst 0x80000001 = .ok ops →
      List.Forall₂ (Grounded copyDownInst 0x80000001) copyDownInst.args ops := by
  refine ⟨decode_copyDown, rfl, ?_, ?_⟩
  · refine (accepted_globals_in_bounds decode_copyDown rfl 0x80000000).1.mpr ?_
    exact ⟨⟨.byteMem, 0x80000000⟩, by decide, rfl, by decide⟩
  · exact (accepted_globals_in_bounds decode_copyDown rfl 0x80000001).2.2

/-- Code that stores a byte in the upper half of the offsets. -/
def farByte : Array UInt8 := #[0x75, 0x00, 0x00, 0x00, 0x00, 0x80, 0x07]

def farByteInst : Inst where
  pc := 0
  info := Isa.Definition.info ⟨.bmov, 0, [.plain .byteMem, .plain .imm8]⟩ 117
  args := [⟨.byteMem, 0x80000000⟩, ⟨.imm8, 7⟩]

def farByteTarget : Operand := .global (-0x80000000) .byte false

/-- The offset `2 ^ 31` is accepted in a global data space of `2 ^ 32 - 1` bytes and becomes `-2 ^
31`: generated code stores that far below the space, and the evaluator refuses the access. -/
theorem farByte_addressed_below :
    Isa.decode farByte 0 = .ok farByteInst ∧ farByteInst.info.isControl = false ∧
    (farByteInst.arg 0).low.toNat = 2 ^ 31 ∧
    operandsOf farByteInst 0xffffffff = .ok [farByteTarget, .imm 7] ∧
    (∀ (c : X86.Cpu) (tmp : X86.Reg),
      c.address (Lower.place farByteTarget tmp).2 = c.reg Lower.globalBase - 0x80000000) ∧
    ∀ (m : Machine) (v : UInt64), ∃ f, m.write farByteInst farByteTarget v =
    .error (.failure f) := by
  have hpeek : Isa.peek farByte 0 = .ok farByteInst.info := @Isa.entry_eq_ok 0 117 _ rfl
  refine ⟨?_, rfl, rfl, rfl, ?_, ?_⟩
  · unfold Isa.decode
    rw [hpeek]
    rfl
  · intro c tmp
    show c.reg Lower.globalBase + (-0x80000000 : Int32).toInt64.toUInt64 = _
    rw [UInt64.sub_eq_add_neg]
    rfl
  · intro m v
    have hbelow : m.proc.global.inBounds (-0x80000000 : Int32).toInt64 1 = false := rfl
    let f := m.proc.global.outside (-0x80000000 : Int32).toInt64 1
    refine ⟨.faultBy .operandBounds 0 farByteInst.name f, ?_⟩
    simp only [Machine.write, farByteTarget, Access.bytes]
    rw [show Int64.ofNat 1 = 1 from rfl, Arena.write, Arena.locate, hbelow]
    rfl

end BlockVM
