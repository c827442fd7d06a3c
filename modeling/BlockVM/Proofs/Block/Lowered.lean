import BlockVM.Block.Compile
import BlockVM.Proofs.Block.Prepared
import BlockVM.Proofs.X86.Straight

/-!
# Instructions of lowered actions

The machine code of a plain action waits for nothing: each of its items is an instruction that has
an encoding, so the layout of a plain run is its instructions one after the other
(`flatten_pieces`). Only stack actions jump; the code of the others is straight (`straight_lower`).
-/

namespace BlockVM

open X86 (Reg Mem)

/-! ## Items that wait for nothing -/

namespace Item

/-- The item is an instruction that has an encoding. -/
def Ready : Item → Prop
  | inst i => i.Valid
  | _ => False

/-- The item is an instruction that has an encoding and goes on to the next one. -/
def Straight : Item → Prop
  | inst i => i.Valid ∧ i.isStraight = true
  | _ => False

theorem Straight.ready {it : Item} (h : it.Straight) : it.Ready := by
  cases it with
  | inst i => exact h.1
  | token | loadConst | opConst => exact h

end Item

namespace Layout

/-- The instructions of items that wait for nothing. -/
def insts (items : List Item) : List X86.Inst := items.map (Item.fill 0 0)

@[simp] theorem insts_append (a b : List Item) : insts (a ++ b) = insts a ++ insts b :=
  List.map_append

@[simp] theorem insts_nil : insts [] = [] := rfl

@[simp] theorem insts_cons (i : X86.Inst) (rest : List Item) :
    insts (.inst i :: rest) = i :: insts rest := rfl

theorem valid_of_ready {items : List Item} (h : ∀ it ∈ items, it.Ready) :
    ∀ i ∈ insts items, i.Valid := by
  intro i hi
  obtain ⟨it, hit, rfl⟩ := List.mem_map.mp hi
  have hready := h it hit
  cases it with
  | inst i => exact hready
  | token | loadConst | opConst => cases hready

theorem isStraight_of_straight {items : List Item} (h : ∀ it ∈ items, it.Straight) :
    ∀ i ∈ insts items, i.isStraight = true := by
  intro i hi
  obtain ⟨it, hit, rfl⟩ := List.mem_map.mp hi
  have hstraight := h it hit
  cases it with
  | inst i => exact hstraight.2
  | token | loadConst | opConst => cases hstraight

/-- Code that is ready is the same wherever it is put. -/
theorem resolve_of_ready {items : List Item} (h : ∀ it ∈ items, it.Ready) (off const : Nat) :
    resolve off const items = insts items := by
  induction items generalizing off const with
  | nil => rfl
  | cons it rest ih =>
    have hready := h it (List.mem_cons_self ..)
    rw [resolve, ih fun it hit => h it (List.mem_cons_of_mem _ hit)]
    cases it with
    | inst i => rfl
    | token | loadConst | opConst => cases hready

theorem constants_of_ready {items : List Item} (h : ∀ it ∈ items, it.Ready) :
    constants items = [] := by
  rw [constants, List.filterMap_eq_nil_iff]
  intro it hit
  have hready := h it hit
  cases it with
  | inst i => rfl
  | token | loadConst | opConst => cases hready

/-- The machine code of items that wait for nothing. -/
theorem flatten_pieces {items : List Item} (h : ∀ it ∈ items, it.Ready) :
    (pieces items).flatten = X86.encodeAll (insts items) := by
  rw [pieces, resolve_of_ready h, constants_of_ready h, List.map_nil, List.append_nil,
    X86.encodeAll, List.flatMap_def]

end Layout

/-! ## Integers -/

namespace Lower

open Item (Straight Ready)

theorem straight_append {a b : List Item} (ha : ∀ it ∈ a, it.Straight)
    (hb : ∀ it ∈ b, it.Straight) : ∀ it ∈ a ++ b, it.Straight :=
  List.forall_mem_append.mpr ⟨ha, hb⟩

theorem straight_singleton {it : Item} (h : it.Straight) : ∀ it' ∈ [it], it'.Straight :=
  List.forall_mem_singleton.mpr h

theorem num_acc : acc.num < 16 := by decide

theorem num_source : source.num < 16 := by decide

theorem num_stateReg : stateReg.num < 16 := by decide

/-- The code that makes an operand reachable, and where the operand then is. -/
theorem straight_place (o : Operand) (tmp : Reg) (h : tmp.num < 16) :
    (∀ it ∈ (place o tmp).1, it.Straight) ∧
      (place o tmp).2.Valid ∧ (place o tmp).2.isAbsolute = true := by
  cases o with
  | reg | freg => exact ⟨List.forall_mem_nil _, num_stateReg, rfl⟩
  | global => exact ⟨List.forall_mem_nil _, (by decide : globalBase.num < 16), rfl⟩
  | pointer => exact ⟨straight_singleton ⟨⟨h, num_stateReg⟩, rfl⟩, h, rfl⟩
  | imm | fimm => exact ⟨List.forall_mem_nil _, h, rfl⟩

/-- Either form of a move of an immediate, the short one and the long one, is straight. -/
theorem straight_movRegImm {r : Reg} (h : r.num < 16) (v : UInt64) :
    Straight (.inst (.movRegImm r v)) := by
  unfold X86.Inst.movRegImm
  split
  · exact ⟨h, rfl⟩
  · split
    · exact ⟨h, rfl⟩
    · exact ⟨h, rfl⟩

theorem straight_load {r : Reg} (h : r.num < 16) (o : Operand) : ∀ it ∈ load r o, it.Straight := by
  obtain ⟨hpre, hm, ha⟩ := straight_place o srcAddr (by decide)
  have access : ∀ it ∈ (place o srcAddr).1 ++
      [.inst (.load (moveWidth o.width) r (place o srcAddr).2)], it.Straight :=
    straight_append hpre (straight_singleton ⟨⟨h, hm⟩, ha⟩)
  cases o with
  | imm v => exact straight_singleton (straight_movRegImm h v)
  | reg | freg | global | pointer | fimm => exact access

theorem straight_store {r : Reg} (h : r.num < 16) (o : Operand) :
    ∀ it ∈ store o r, it.Straight := by
  obtain ⟨hpre, hm, ha⟩ := straight_place o dstAddr (by decide)
  exact straight_append hpre (straight_singleton ⟨⟨h, hm⟩, ha⟩)

/-- A move is straight; between two places in memory it goes through the accumulator. -/
theorem straight_move (dst src : Operand) : ∀ it ∈ move dst src, it.Straight := by
  have through : ∀ it ∈ load acc src ++ store dst acc, it.Straight :=
    straight_append (straight_load num_acc src) (straight_store num_acc dst)
  cases src with
  | imm v =>
    unfold move
    dsimp only
    split
    · obtain ⟨hpre, hm, ha⟩ := straight_place dst dstAddr (by decide)
      exact straight_append hpre (straight_singleton ⟨hm, ha⟩)
    · exact through
  | reg | freg | global | pointer | fimm => exact through

theorem straight_alu {op : X86.AluOp} (hop : op.digit < 8) (dst src : Operand) :
    ∀ it ∈ alu op dst src, it.Straight := by
  obtain ⟨hpre, hm, ha⟩ := straight_place dst dstAddr (by decide)
  exact straight_append (straight_append (straight_load num_source src) hpre)
    (straight_singleton ⟨⟨hop, num_source, hm⟩, ha⟩)

theorem straight_multiply (dst src : Operand) : ∀ it ∈ multiply dst src, it.Straight :=
  straight_append (straight_append (straight_append (straight_load num_acc dst)
    (straight_load num_source src)) (straight_singleton ⟨⟨num_acc, num_source⟩, rfl⟩))
    (straight_store num_acc dst)

theorem straight_divide {result : Reg} (h : result.num < 16) (dst src : Operand) :
    ∀ it ∈ divide result dst src, it.Straight := by
  unfold divide
  refine straight_append (straight_append (straight_append (straight_load num_acc dst)
    (straight_load num_source src)) ?_) (straight_store h dst)
  cases aluSize dst.width <;>
    exact List.forall_mem_cons.mpr ⟨⟨trivial, rfl⟩, straight_singleton ⟨num_source, rfl⟩⟩

theorem straight_shift {op : X86.ShiftOp} (hop : op.digit < 8) (dst count : Operand) :
    ∀ it ∈ shift op dst count, it.Straight := by
  have middle : ∀ it ∈ load source count ++ [.inst (.shiftCl op (aluSize dst.width) acc)],
      it.Straight :=
    straight_append (straight_load num_source count) (straight_singleton ⟨⟨hop, num_acc⟩, rfl⟩)
  refine straight_append (straight_append (straight_load num_acc dst) ?_)
    (straight_store num_acc dst)
  cases count with
  | imm v => exact straight_singleton ⟨⟨hop, num_acc⟩, rfl⟩
  | reg | freg | global | pointer | fimm => exact middle

theorem straight_arith (op : ArithOp) (dst src : Operand) :
    ∀ it ∈ arith op dst src, it.Straight := by
  cases op with
  | add | sub | and | or | xor => exact straight_alu (by decide) dst src
  | mul => exact straight_multiply dst src
  | div | mod => exact straight_divide (by decide) dst src
  | shl | shr => exact straight_shift (by decide) dst src

theorem straight_storeCondition (c : X86.Cond) (dst : Operand) :
    ∀ it ∈ storeCondition c dst, it.Straight :=
  straight_append
    (List.forall_mem_cons.mpr ⟨⟨num_acc, rfl⟩, straight_singleton ⟨⟨num_acc, num_acc⟩, rfl⟩⟩)
    (straight_store num_acc dst)

/-- A comparison ends with a conditional store of the flag, not with a jump, so it is straight
too. -/
theorem straight_compare (rel : Relation) (dst src : Operand) :
    ∀ it ∈ compare rel dst src, it.Straight := by
  have through : ∀ it ∈ load source src ++ [.inst (.aluRegReg .cmp .dword acc source)],
      it.Straight :=
    straight_append (straight_load num_source src)
      (straight_singleton ⟨⟨by decide, num_acc, num_source⟩, rfl⟩)
  refine straight_append (straight_append (straight_load num_acc dst) ?_)
    (straight_storeCondition (signedCond rel) dst)
  cases src with
  | reg => exact straight_singleton ⟨⟨by decide, num_acc, num_stateReg⟩, rfl⟩
  | imm | freg | global | pointer | fimm => exact through

end Lower

/-! ## The stack -/

namespace Action

open Lower

def moved (a : Action) : Option RegRange := a.pushed <|> a.popped

/-- The code of a stack action in front of its check: the offset of the range in `rax`. -/
def offsetCode : Action → List Item
  | push _ | pushRange _ => [loadPointer]
  | pop r | popRange r => [loadPointer, lowerPointer r.bytes]
  | _ => []

def transferCode (t : Target) : Action → List Item
  | push r => [
    .inst (.movRegImm64 dstAddr t.stackBase),
    .inst (.load (slotWidth r) source (rangeSlot r)),
    .inst (.store (slotWidth r) (.indexed dstAddr acc .one 0) source),
    growPointer r.bytes]
  | pop r => [
    .inst (.movRegImm64 srcAddr t.stackBase),
    .inst (.load (slotWidth r) source (.indexed srcAddr acc .one 0)),
    .inst (.store (slotWidth r) (rangeSlot r) source),
    storePointer]
  | pushRange r => [
    .inst (.push stateReg),
    .inst (.lea .rsi (rangeSlot r)),
    .inst (.movRegImm64 dstAddr t.stackBase),
    .inst (.lea .rdi (.indexed dstAddr acc .one 0)),
    .inst (.movRegImm32 source (UInt32.ofNat r.count)),
    .inst (.repMovs (slotWidth r)),
    .inst (.pop stateReg),
    growPointer r.bytes]
  | popRange r => [
    storePointer,
    .inst (.push stateReg),
    .inst (.lea .rdi (rangeSlot r)),
    .inst (.movRegImm64 srcAddr t.stackBase),
    .inst (.lea .rsi (.indexed srcAddr acc .one 0)),
    .inst (.movRegImm32 source (UInt32.ofNat r.count)),
    .inst (.repMovs (slotWidth r)),
    .inst (.pop stateReg)]
  | _ => []

/-- The code of a stack instruction has three parts: the offset behind it, the guard and the
transfer. -/
theorem lower_stack {a : Action} {r : RegRange} (h : a.moved = some r) (t : Target) (pc : Int64) :
    a.lower t pc = a.offsetCode ++ stackGuard pc (stackLimit t r) ++ a.transferCode t := by
  cases a <;> cases h <;> rfl

theorem moved_of_isStack {a : Action} (h : a.isStack = true) : ∃ r, a.moved = some r := by
  cases a <;> cases h <;> exact ⟨_, rfl⟩

theorem straight_offsetCode (a : Action) : ∀ it ∈ a.offsetCode, it.Straight := by
  have hload : Item.Straight loadPointer := ⟨⟨num_acc, num_stateReg⟩, rfl⟩
  cases a with
  | push | pushRange => exact straight_singleton hload
  | pop | popRange =>
    exact List.forall_mem_cons.mpr ⟨hload, straight_singleton ⟨⟨by decide, num_acc⟩, rfl⟩⟩
  | _ => exact List.forall_mem_nil _

theorem valid_rangeSlot (r : RegRange) :
    (rangeSlot r).Valid ∧ (rangeSlot r).isAbsolute = true := by
  unfold rangeSlot
  split
  · exact ⟨num_stateReg, rfl⟩
  · exact ⟨num_stateReg, rfl⟩

/-- The transfer, one slot or a whole range by a string instruction, is straight: only the guard
jumps. -/
theorem straight_transferCode (t : Target) (a : Action) :
    ∀ it ∈ a.transferCode t, it.Straight := by
  have hdst : dstAddr.num < 16 := by decide
  have hsrc : srcAddr.num < 16 := by decide
  have hrsi : Reg.rsi.num < 16 := by decide
  have hrdi : Reg.rdi.num < 16 := by decide
  have hsp : spSlot.Valid ∧ spSlot.isAbsolute = true := ⟨num_stateReg, rfl⟩
  have hstack {base : Reg} (h : base.num < 16) : (Mem.indexed base acc .one 0).Valid ∧
      (Mem.indexed base acc .one 0).isAbsolute = true :=
    ⟨⟨h, num_acc, by decide⟩, rfl⟩
  have hadd : X86.AluOp.add.digit < 8 := by decide
  cases a with
  | push r | pop r | pushRange r | popRange r =>
    have hrange := valid_rangeSlot r
    simp [transferCode, Item.Straight, growPointer, storePointer, X86.Inst.Valid,
      X86.Inst.isStraight, num_acc, num_source, num_stateReg, hdst, hsrc, hrsi, hrdi, hsp, hadd,
      hrange, hstack]
  | _ => exact List.forall_mem_nil _

/-! ## Whole runs -/

/-- Only stack actions jump. -/
theorem straight_lower {a : Action} (h : a.isPlain = true) (hs : a.isStack = false) (t : Target)
    (pc : Int64) : ∀ it ∈ a.lower t pc, it.Straight := by
  cases a with
  | move dst src => exact straight_move dst src
  | arith op dst src => exact straight_arith op dst src
  | compare rel dst src => exact straight_compare rel dst src
  | nop => exact List.forall_mem_nil _
  | push | pop | pushRange | popRange => cases hs
  | fcompare | fmove | farith | service => cases h

theorem straight_frame :
    Item.Straight (.inst (.addImm .rsp frameSize)) ∧
      Item.Straight (.inst (.subImm .rsp frameSize)) := by
  have hrsp : Reg.rsp.num < 16 := by decide
  exact ⟨⟨⟨by decide, hrsp⟩, rfl⟩, ⟨by decide, hrsp⟩, rfl⟩

theorem ready_faultExit (pc : Int64) : ∀ it ∈ faultExit pc, it.Ready := by
  have hret : Item.Ready (.inst .ret) := trivial
  have hload : Item.Ready (.inst (.movRegImm64 acc (token pc faultMark))) := num_acc
  simp [faultExit, leave, hload, hret, straight_frame.1.ready]

/-- The guard jumps by a distance that is known, so it is ready although it is not straight. -/
theorem ready_stackGuard (pc limit : Int64) : ∀ it ∈ stackGuard pc limit, it.Ready := by
  unfold stackGuard
  split
  · exact ready_faultExit pc
  · have hlimit := (straight_movRegImm num_source limit.toUInt64).ready
    have hcmp : Item.Ready (.inst (.aluRegReg .cmp .qword acc source)) :=
      ⟨by decide, num_acc, num_source⟩
    have hjump : Item.Ready (.inst (.jccShort .belowEqual faultExitSize)) := trivial
    have hexit := ready_faultExit pc
    simp only [faultUnless, List.cons_append, List.nil_append, List.forall_mem_cons]
    exact ⟨hlimit, hcmp, hjump, hexit⟩

/-- Plain instructions are lowered to code that is ready. -/
theorem ready_lower {a : Action} (h : a.isPlain = true) (t : Target) (pc : Int64) :
    ∀ it ∈ a.lower t pc, it.Ready := by
  cases hs : a.isStack with
  | false => exact fun it hit => (straight_lower h hs t pc it hit).ready
  | true =>
    obtain ⟨r, hr⟩ := moved_of_isStack hs
    rw [lower_stack hr, List.forall_mem_append, List.forall_mem_append]
    exact ⟨⟨fun it hit => (straight_offsetCode a it hit).ready, ready_stackGuard pc _⟩,
      fun it hit => (straight_transferCode t a it hit).ready⟩

end Action

/-- A run of plain instructions waits for nothing. -/
theorem Run.ready_items {r : Run} (t : Target) (h : ∀ s ∈ r.steps, s.2.isPlain = true) :
    ∀ it ∈ r.items t, it.Ready := by
  have henter : Item.Ready (.inst (.load .qword Lower.globalBase (Lower.regSlot globalReg))) :=
    ⟨by decide, Lower.num_stateReg⟩
  have hclear : Item.Ready (.inst (.xorReg Lower.acc Lower.acc)) :=
    ⟨by decide, Lower.num_acc, Lower.num_acc⟩
  have hret : Item.Ready (.inst .ret) := trivial
  rw [Run.items, List.forall_mem_append, List.forall_mem_append]
  refine ⟨⟨?_, ?_⟩, ?_⟩
  · simp [Lower.enter, henter, Action.straight_frame.2.ready]
  · intro it hit
    obtain ⟨⟨i, a⟩, hs, hit⟩ := List.mem_flatMap.mp hit
    exact Action.ready_lower (h _ hs) t i.pc it hit
  · simp [Lower.finish, hclear, hret, Action.straight_frame.1.ready]

end BlockVM
