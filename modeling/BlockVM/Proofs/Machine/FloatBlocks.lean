import BlockVM.Proofs.Block.LaidOut
import BlockVM.Proofs.Machine.FloatCode

/-!
# Float instructions in blocks

The float families that generated code performs are moves, conversions, arithmetic and comparisons;
the remainder is left to the host. `float_code_simulates` takes any block, with whatever other
instructions in it, and follows the code of one float instruction from its place to the place behind
it: where the machine's step succeeds, the processor stays in step with the machine. A block of a
single float instruction runs from its entry to its return.
-/

namespace BlockVM

open Isa (Inst)
open LittleEndian (ofUInt32)
open Layout (insts effects Sits itemsOf)
open Lower (entryCode finishCode)
open X86 (Xmm Steps encodeAll)

/-! ## Float families -/

namespace Isa

/-- The float families that generated code performs. -/
def Family.hasFloatCode : Family → Bool
  | fmov | fcon | fadd | fsub | fmul | fdiv | fcmpe | fcmpne | fcmpg | fcmpl | fcmpge | fcmple =>
    true
  | _ => false

end Isa

/-- An integer in memory that a float family uses has 32 bits, as a float has. -/
theorem isSingle_of_operandOf {i : Inst} {slot : Nat} {a : Isa.Operand} {g : Int64} {o : Operand}
    (h : operandOf i slot a g = .ok o) (hk : a.kind ∈ Isa.floatArguments) : o.isSingle = true := by
  unfold operandOf at h
  cases hkind : a.kind <;> simp only [hkind] at h hk
  case mem | fmem =>
    split at h
    · cases h
    · cases h
      rfl
  case reg | freg | ptr | fptr | imm32 | fimm =>
    cases h
    rfl
  all_goals exact absurd hk (by decide)

namespace Action

/-- Whether generated code performs the action on floats. -/
def hasFloatCode : Action → Bool
  | fmove .. | fcompare .. | farith .add .. | farith .sub .. | farith .mul .. | farith .div .. =>
    true
  | _ => false

/-- The operands of moves and arithmetic of floats. -/
def floatOperands : Action → List Operand
  | fmove dst src | farith _ dst src => [dst, src]
  | _ => []

/-- An action has float code exactly if its family does. -/
theorem hasFloatCode_of? {f : Isa.Family} {w : Nat} {ops : List Operand} {a : Action}
    (h : of? f w ops = some a) : a.hasFloatCode = f.hasFloatCode := by
  cases asked_of_of? h with
  | move family => rcases family with rfl | rfl | rfl <;> rfl
  | fmove family => rcases family with rfl | rfl <;> rfl
  | arith family | compare family | fcompare family | farith family =>
    cases f <;> cases family <;> rfl
  | push float | pop float | pushRange float | popRange float => cases float <;> rfl
  | _ => rfl

/-- Where the float operands of an action are in memory, they take 32 bits. -/
theorem isSingle_of_ofInst {i : Inst} {code : Array UInt8} {pc g : Int64} {a : Action}
    (hi : Isa.Decoded code pc i) (h : ofInst i g = .ok a) :
    ∀ o ∈ a.floatOperands, o.isSingle = true := by
  obtain ⟨-, ops, hops, hof⟩ := ofInst_eq_ok h
  -- Every operand of such an instruction is of a kind that the table allows for floats.
  have single (computes : i.family.computesFloat = true) : ∀ o ∈ ops, o.isSingle = true := by
    obtain ⟨k, k', hkinds, hk, hk'⟩ :=
      Isa.kinds_of_computesFloat computes (Isa.floatShaped_of_mem_table hi.known)
    have hall : ∀ k ∈ i.info.kinds, k ∈ Isa.floatArguments := by
      rw [hkinds, List.forall_mem_cons, List.forall_mem_singleton]
      exact ⟨List.mem_append_left _ hk, hk'⟩
    intro o ho
    obtain ⟨n, hn⟩ := List.mem_iff_getElem?.mp ho
    obtain ⟨arg, harg, ho⟩ := operandsFrom_getElem? hops hn
    refine isSingle_of_operandOf ho (hall _ ?_)
    rw [← hi.kinds_eq]
    exact List.mem_map_of_mem (List.mem_of_getElem? harg)
  cases a with
  | fmove dst src =>
    obtain ⟨rfl, computes⟩ := fmove_of? hof
    exact single computes
  | farith op dst src =>
    obtain ⟨rfl, computes⟩ := farith_of? hof
    exact single computes
  | _ => exact fun o ho => absurd ho List.not_mem_nil

end Action

/-! ## Encodings -/

namespace Lower

open Item (Flows)

/-- A load flows: it has no jump, and its constant is filled in behind it. -/
theorem flows_loadF {r : Xmm} (hr : r.num < 16) (o : Operand) : ∀ it ∈ loadF r o, it.Flows := by
  obtain ⟨hpre, hm, ha⟩ := straight_place o srcAddr (by decide)
  have access : ∀ it ∈ (place o srcAddr).1 ++
      [if o.holdsFloat then .inst (.movssLoad r (place o srcAddr).2)
        else .inst (.cvtsi2ssMem .dword r (place o srcAddr).2)], it.Flows := by
    rw [List.forall_mem_append, List.forall_mem_singleton]
    refine ⟨fun it hit => (hpre it hit).flows, ?_⟩
    split
    · exact ⟨⟨hr, hm⟩, ha⟩
    · exact ⟨⟨hr, hm⟩, ha⟩
  cases o with
  | fimm bits => exact List.forall_mem_singleton.mpr hr
  | imm v =>
    rw [loadF, List.forall_mem_cons, List.forall_mem_singleton]
    exact ⟨⟨num_source, rfl⟩, ⟨hr, num_source⟩, rfl⟩
  | reg | freg | global | pointer => exact access

theorem flows_storeF {r : Xmm} (hr : r.num < 16) (o : Operand) : ∀ it ∈ storeF o r, it.Flows := by
  unfold storeF
  split
  · obtain ⟨hpre, hm, ha⟩ := straight_place o dstAddr (by decide)
    rw [List.forall_mem_append, List.forall_mem_singleton]
    exact ⟨fun it hit => (hpre it hit).flows, ⟨hr, hm⟩, ha⟩
  · rw [List.forall_mem_cons]
    exact ⟨⟨⟨num_acc, hr⟩, rfl⟩, fun it hit => (straight_store num_acc o it hit).flows⟩

theorem flows_operateF {op : X86.SseOp} (hop : op ∈ X86.SseOp.all) (o : Operand) :
    ∀ it ∈ operateF op o, it.Flows := by
  have h0 : x0.num < 16 := by decide
  have h1 : x1.num < 16 := by decide
  cases hf : o.holdsFloat with
  | false =>
    rw [operateF_converted op hf, List.forall_mem_append, List.forall_mem_singleton]
    exact ⟨flows_loadF h1 o, ⟨hop, h0, h1⟩, rfl⟩
  | true =>
    cases o with
    | fimm => exact List.forall_mem_singleton.mpr ⟨hop, h0⟩
    | reg | imm => cases hf
    | freg | global | pointer =>
      rw [operateF_direct op rfl hf, List.forall_mem_append, List.forall_mem_singleton]
      obtain ⟨hpre, hm, ha⟩ := straight_place _ .r9 (by decide)
      exact ⟨fun it hit => (hpre it hit).flows, ⟨hop, h0, hm⟩, ha⟩

theorem flows_farith {op : X86.SseOp} (hop : op ∈ X86.SseOp.all) (dst src : Operand) :
    ∀ it ∈ farith op dst src, it.Flows := by
  rw [farith, List.forall_mem_append, List.forall_mem_append]
  exact ⟨⟨flows_loadF (by decide) dst, flows_operateF hop src⟩, flows_storeF (by decide) dst⟩

theorem flows_fcompare (rel : Relation) (dst p q : Operand) :
    ∀ it ∈ fcompare rel dst p q, it.Flows := by
  have h0 : x0.num < 16 := by decide
  rw [fcompare, List.forall_mem_append, List.forall_mem_cons, List.forall_mem_singleton]
  exact ⟨⟨⟨⟨h0, num_stateReg⟩, rfl⟩, ⟨h0, num_stateReg⟩, rfl⟩,
    fun it hit => (straight_storeCondition _ dst it hit).flows⟩

end Lower

namespace Action

theorem flows_lower {a : Action} (h : a.hasFloatCode = true) (t : Target) (pc : Int64) :
    ∀ it ∈ a.lower t pc, it.Flows := by
  cases a with
  | fmove dst src =>
    exact List.forall_mem_append.mpr
      ⟨Lower.flows_loadF (by decide) src, Lower.flows_storeF (by decide) dst⟩
  | fcompare rel dst p q => exact Lower.flows_fcompare rel dst p q
  | farith op dst src =>
    cases op with
    | add | sub | mul | div => exact Lower.flows_farith (by decide) dst src
    | mod => cases h
  | _ => cases h

end Action

/-! ## Lengths -/

namespace Lower

theorem length_place_le (o : Operand) (r : X86.Reg) : (place o r).1.length ≤ 1 := by
  cases o with
  | pointer => exact Nat.le_refl 1
  | _ => exact Nat.zero_le 1

theorem length_store_le (o : Operand) (r : X86.Reg) : (store o r).length ≤ 2 := by
  rw [store, List.length_append]
  exact Nat.add_le_add_right (length_place_le o dstAddr) 1

theorem length_loadF_le (r : Xmm) (o : Operand) : (loadF r o).length ≤ 2 := by
  cases o with
  | pointer | imm => exact Nat.le_refl 2
  | _ => exact Nat.le_succ 1

theorem length_storeF_le (o : Operand) (r : Xmm) : (storeF o r).length ≤ 3 := by
  unfold storeF
  split
  · rw [List.length_append]
    exact Nat.add_le_add (length_place_le o dstAddr) (Nat.le_succ 1)
  · exact Nat.succ_le_succ (length_store_le o acc)

theorem length_operateF_le (op : X86.SseOp) (o : Operand) : (operateF op o).length ≤ 3 := by
  cases hf : o.holdsFloat with
  | false =>
    rw [operateF_converted op hf, List.length_append]
    exact Nat.add_le_add_right (length_loadF_le x1 o) 1
  | true =>
    cases o with
    | fimm => exact Nat.le_add_left 1 2
    | reg | imm => cases hf
    | freg | global | pointer =>
      rw [operateF_direct op rfl hf, List.length_append]
      exact Nat.add_le_add (length_place_le _ _) (Nat.le_succ 1)

/-- The longest float computation has eight items, which bounds the steps that a run takes. -/
theorem length_farith_le (op : X86.SseOp) (dst src : Operand) : (farith op dst src).length ≤ 8 := by
  rw [farith, List.length_append, List.length_append]
  exact Nat.add_le_add (Nat.add_le_add (length_loadF_le x0 dst) (length_operateF_le op src))
    (length_storeF_le dst x0)

end Lower

/-- The code of a float action has few instructions. -/
theorem Action.length_lower_le {a : Action} (h : a.hasFloatCode = true) (t : Target) (pc : Int64) :
    (a.lower t pc).length ≤ 8 := by
  cases a with
  | fmove dst src =>
    have hload := Lower.length_loadF_le Lower.x0 src
    have hstore := Lower.length_storeF_le dst Lower.x0
    rw [Action.lower, Lower.fmove, List.length_append]
    omega
  | fcompare rel dst p q =>
    have hstore := Lower.length_store_le dst Lower.acc
    show (Lower.store dst Lower.acc).length + 1 + 1 + 1 + 1 ≤ 8
    omega
  | farith op dst src =>
    cases op with
    | add | sub | mul | div => exact Lower.length_farith_le _ dst src
    | mod => cases h
  | _ => cases h

theorem Layout.sizeOf_le (items : List Item) : Layout.sizeOf items ≤ 15 * items.length := by
  induction items with
  | nil => exact Nat.zero_le _
  | cons i rest ih =>
    have hsize : i.size ≤ 15 := (X86.length_encode _).2
    rw [sizeOf_cons, List.length_cons]
    omega

namespace Native

/-- The code of a float action does what the machine does. -/
theorem InStep.effects_action {x : Site} {m m' : Machine} {s : X86.State View} {i : Inst}
    {a : Action} (h : InStep x m s) (hosts : x.Hosts m) (float : a.hasFloatCode = true)
    (single : ∀ o ∈ a.floatOperands, o.isSingle = true) (t : Target)
    (done : m.perform i a = (m', none)) :
    ∃ s', effects (a.lower t i.pc) s = some s' ∧ InStep x m' s' := by
  cases a with
  | fmove dst src =>
    obtain ⟨hdst, hsrc⟩ := List.forall_mem_cons.mp single
    rw [List.forall_mem_singleton] at hsrc
    obtain ⟨a, ha, hwrite⟩ := bind_eq_ok.mp (ok_of_commit done)
    exact h.effects_fmove hosts hdst hsrc ha hwrite
  | fcompare rel dst p q => exact h.effects_fcompare hosts (ok_of_commit done)
  | farith op dst src =>
    obtain ⟨hdst, hsrc⟩ := List.forall_mem_cons.mp single
    rw [List.forall_mem_singleton] at hsrc
    obtain ⟨a, ha, hwrite⟩ := bind_eq_ok.mp (ok_of_commit done)
    obtain ⟨b, hb, hwrite⟩ := bind_eq_ok.mp hwrite
    cases op with
    | add | sub | mul | div => exact effects_farith (fun _ _ => rfl) h hosts hdst hsrc ha hb hwrite
    | mod => cases float
  | _ => cases float

/-! ## Places -/

/-- The place in a block of the instruction behind others. -/
def placeOf (t : Target) (before : List (Inst × Action)) : Nat :=
  entryCode.length + Layout.sizeOf (itemsOf t before)

/-- The place of the next instruction is behind the code of this one. -/
theorem placeOf_append (t : Target) (before : List (Inst × Action)) (i : Inst) (a : Action) :
    placeOf t (before ++ [(i, a)]) = placeOf t before + Layout.sizeOf (a.lower t i.pc) := by
  rw [placeOf, placeOf, itemsOf, List.flatMap_append, Layout.sizeOf_append, Nat.add_assoc]
  simp [itemsOf]

/-- The code of an instruction of a block sits at its place. -/
theorem sits_at {code : Array UInt8} {t : Target} {start : Int64} {b : Block}
    {before rest : List (Inst × Action)} {i : Inst} {a : Action} (run : b.IsRun code t start)
    (split : (Run.at code t.globalSize start).steps = before ++ (i, a) :: rest) :
    ∃ const, Sits b.code (placeOf t before) const (a.lower t i.pc) := by
  have sits := run.sits
  rw [split, itemsOf, List.flatMap_append, List.flatMap_cons] at sits
  exact ⟨_, sits.append.2.append.1⟩

/-! ## One instruction -/

section

variable {x : Site} {m m' : Machine} {s : X86.State View} {b : Block} {start : Int64}
  {before rest : List (Inst × Action)} {i : Inst} {a : Action}

/-- What is known of a float instruction of a run. -/
theorem performed_of_mem (hmem : (i, a) ∈ (m.runAt start).steps)
    (float : i.family.hasFloatCode = true) (done : m.step i = (m', none)) :
    a.hasFloatCode = true ∧ (∀ o ∈ a.floatOperands, o.isSingle = true) ∧
      m.perform i a = (m', none) := by
  have prepared := Machine.prepared_of_mem_take hmem
  obtain ⟨pc, decoded⟩ := Machine.decoded_of_mem_take hmem
  obtain ⟨-, ops, -, hof⟩ := Action.ofInst_eq_ok prepared
  rw [Machine.step, prepared] at done
  exact ⟨(Action.hasFloatCode_of? hof).trans float,
    Action.isSingle_of_ofInst decoded prepared, done⟩

/-- The code of one float instruction. -/
theorem steps_floatCode (run : b.IsRun m.proc.program.code m.codeTarget start)
    (split : (m.runAt start).steps = before ++ (i, a) :: rest)
    (float : i.family.hasFloatCode = true) (hcode : x.code = b.code) (hosts : x.Hosts m)
    (done : m.step i = (m', none)) (short : b.code.size < 2 ^ 31) (h : InStep x m s)
    (hrip : s.cpu.rip = x.at (placeOf m.codeTarget before)) :
    ∃ s', Steps x.place.returnAddress (a.lower m.codeTarget i.pc).length s s' ∧ InStep x m' s' ∧
      s'.cpu.rip = x.at (placeOf m.codeTarget (before ++ [(i, a)])) := by
  have hmem : (i, a) ∈ (m.runAt start).steps := by
    rw [split]
    simp
  obtain ⟨hfloat, single, done⟩ := performed_of_mem hmem float done
  obtain ⟨const, sits⟩ := sits_at run split
  rw [← hcode] at sits short
  obtain ⟨s', heffects, h'⟩ := h.effects_action hosts hfloat single m.codeTarget done
  obtain ⟨hsteps, -⟩ := steps_effects (hosts.runnable short)
    (Action.flows_lower hfloat m.codeTarget i.pc) sits h.keeps hrip heffects
  refine ⟨_, hsteps, h'.goto _, ?_⟩
  rw [placeOf_append]
  rfl

/-! ## Blocks of one instruction -/

/-- Writing a float leaves the arenas where they are. -/
theorem same_writeF {o : Operand} {bits : UInt32} (h : m.writeF i o bits = .ok m') :
    SameArenas m m' := by
  unfold Machine.writeF at h
  split at h
  · cases h
    exact ⟨rfl, rfl, rfl⟩
  · split at h
    · exact (same_write h).1
    · exact (same_write h).1

theorem same_of_float (float : a.hasFloatCode = true) (done : m.perform i a = (m', none)) :
    SameArenas m m' := by
  cases a with
  | fmove dst src =>
    obtain ⟨v, -, hwrite⟩ := bind_eq_ok.mp (ok_of_commit done)
    exact same_writeF hwrite
  | fcompare rel dst p q => exact (same_write (ok_of_commit done)).1
  | farith op dst src =>
    obtain ⟨u, -, hwrite⟩ := bind_eq_ok.mp (ok_of_commit done)
    obtain ⟨v, -, hwrite⟩ := bind_eq_ok.mp hwrite
    exact same_writeF hwrite
  | _ => cases float

/-- The block of one float instruction is short. -/
theorem size_lt_of_float {t : Target} {code : Array UInt8} (run : b.IsRun code t start)
    (split : (Run.at code t.globalSize start).steps = [(i, a)]) (float : a.hasFloatCode = true) :
    b.code.size < 2 ^ 31 := by
  have hlower := Action.length_lower_le float t i.pc
  have hsize := Layout.sizeOf_le (a.lower t i.pc)
  have hconst : (Layout.constants (a.lower t i.pc)).length ≤ (a.lower t i.pc).length :=
    List.length_filterMap_le _ _
  have hentry : entryCode.length = 11 := rfl
  have hfinish : finishCode.length = 7 := rfl
  have flat := congrArg List.length run.toList_code
  rw [split, show itemsOf t [(i, a)] = a.lower t i.pc from List.flatMap_singleton ..,
    List.length_append, List.length_append, List.length_append, Layout.length_encodeAll_resolve,
    List.length_flatMap, Array.length_toList] at flat
  have hbytes : ((Layout.constants (a.lower t i.pc)).map fun bits => (ofUInt32 bits).length).sum
      = 4 * (Layout.constants (a.lower t i.pc)).length := by
    simp [ofUInt32, Nat.mul_comm]
  omega

/-- A block of one float instruction. -/
theorem runs_block (run : b.IsRun m.proc.program.code m.codeTarget start)
    (split : (m.runAt start).steps = [(i, a)]) (float : i.family.hasFloatCode = true)
    (hcode : x.code = b.code) (hosts : x.Hosts m)
    (hbase : m.core.regs.int globalReg = m.proc.global.base) (done : m.step i = (m', none))
    (entered : Entered x m s) :
    ∃ s', X86.run x.place.returnAddress b.code.size s = some s' ∧ Returned x m' 0 s' := by
  have hmem : (i, a) ∈ (m.runAt start).steps := by
    rw [split]
    exact List.mem_singleton_self _
  obtain ⟨hfloat, -, hperform⟩ := performed_of_mem hmem float done
  have flows := Action.flows_lower hfloat m.codeTarget i.pc
  have short := size_lt_of_float run split hfloat
  have flat := run.toList_code
  have hitems : itemsOf m.codeTarget [(i, a)] = a.lower m.codeTarget i.pc :=
    List.flatMap_singleton ..
  rw [show (Run.at _ m.codeTarget.globalSize start).steps = _ from split, hitems] at flat
  generalize Layout.sizeOf (Run.items _ _) = const at flat
  let middle := Layout.resolve entryCode.length const (a.lower m.codeTarget i.pc)
  have whole : x.code.toList = encodeAll (insts Lower.enter ++ middle ++ insts Lower.finish) ++
      (Layout.constants (a.lower m.codeTarget i.pc)).flatMap ofUInt32 := by
    rw [hcode, flat, X86.encodeAll_append, X86.encodeAll_append]
    rfl
  have valid : ∀ i ∈ insts Lower.enter ++ middle ++ insts Lower.finish, i.Valid := by
    rw [List.forall_mem_append, List.forall_mem_append]
    exact ⟨⟨Layout.valid_of_ready Layout.ready_ends.1, Layout.valid_resolve flows _ _⟩,
      Layout.valid_of_ready Layout.ready_ends.2⟩
  have l : x.Loads (insts Lower.enter ++ middle ++ insts Lower.finish) :=
    View.loaded whole valid hosts.apart.codeSize_le hosts.apart.code_file hosts.away
  have l₀ : x.Loads (insts Lower.enter ++ (middle ++ insts Lower.finish)) := by
    rwa [← List.append_assoc]
  obtain ⟨s₁, hruns₁, h₁, hrip₁⟩ := runs_enter l₀ entered hbase
  have split' : (m.runAt start).steps = [] ++ (i, a) :: [] := split
  obtain ⟨s₂, hsteps, h₂, hrip₂⟩ := steps_floatCode run split' float hcode hosts done short h₁ hrip₁
  have hbehind : X86.behind x.place.code (insts Lower.enter ++ middle)
      = x.at (placeOf m.codeTarget ([] ++ [(i, a)])) := by
    rw [placeOf_append, X86.behind, X86.encodeAll_append, List.length_append,
      Layout.length_encodeAll_resolve]
    rfl
  obtain ⟨s', hruns₃, returned⟩ :=
    runs_finish l (hosts.of_same (same_of_float hfloat hperform)) h₂ (hrip₂.trans hbehind.symm)
  -- Every instruction takes a byte at least, so the size of the code bounds the steps.
  have hlength : 2 + (a.lower m.codeTarget i.pc).length + 3 ≤ b.code.size := by
    have hle := X86.length_le_encodeAll (insts Lower.enter ++ middle ++ insts Lower.finish)
    have hsize := congrArg List.length whole
    have hmiddle : middle.length = (a.lower m.codeTarget i.pc).length :=
      Layout.length_resolve ..
    have henter : (insts Lower.enter).length = 2 := rfl
    have hfinish : (insts Lower.finish).length = 3 := rfl
    rw [hcode, Array.length_toList, List.length_append] at hsize
    rw [List.length_append, List.length_append] at hle
    omega
  exact ⟨s', ((hruns₁.trans hsteps.runs).trans hruns₃).run_eq returned.rip hlength, returned⟩

/-- The code of a float instruction, wherever it stands in a block, takes a processor that is in
step with a machine to one that is in step with the machine after the instruction. A block of one
float instruction, entered with the base of the global data in its register, returns with the
registers and the memory of the machine after the instruction. -/
theorem float_code_simulates {exec : ExecMemory} {increment : Int64}
    (compiled : compile exec m.proc.program.code m.codeTarget increment start = .ok b)
    (split : (m.runAt start).steps = before ++ (i, a) :: rest)
    (float : i.family.hasFloatCode = true) (hcode : x.code = b.code) (hosts : x.Hosts m)
    (hbase : m.core.regs.int globalReg = m.proc.global.base) (done : m.step i = (m', none)) :
    (b.code.size < 2 ^ 31 → ∀ s, InStep x m s → s.cpu.rip = x.at (placeOf m.codeTarget before) →
      ∃ s', Steps x.place.returnAddress (a.lower m.codeTarget i.pc).length s s' ∧ InStep x m' s' ∧
        s'.cpu.rip = x.at (placeOf m.codeTarget (before ++ [(i, a)]))) ∧
    (before = [] → rest = [] → ∀ s, Entered x m s →
      ∃ s', X86.run x.place.returnAddress b.code.size s = some s' ∧ Returned x m' 0 s') := by
  have run := isRun_of_compile compiled
  constructor
  · intro short s h hrip
    exact steps_floatCode run split float hcode hosts done short h hrip
  · rintro rfl rfl s entered
    exact runs_block run split float hcode hosts hbase done entered

end

def setsFloat : Program where
  header := ⟨64, 64, 0, 0⟩
  code := #[0xc6, 0x00, 0x03, 0x00, 0x00, 0x80, 0x3f]
  global := [1, 2, 3, 4]

def onlyFloat : Inst where
  pc := 0
  info := Isa.Definition.info ⟨.fmov, 0, [.plain .freg, .plain .fimm]⟩ 198
  args := [⟨.freg, 3⟩, ⟨.fimm, 0x3f800000⟩]

theorem decode_setsFloat : Isa.decode setsFloat.code 0 = .ok onlyFloat := by
  have hpeek : Isa.peek setsFloat.code 0 = .ok onlyFloat.info := @Isa.entry_eq_ok 0 198 _ rfl
  unfold Isa.decode
  rw [hpeek]
  rfl

theorem run_setsFloat : Run.at setsFloat.code 4 0 =
    ⟨[(onlyFloat, .fmove (.freg 3) (.fimm 0x3f800000))], 7, none⟩ := by
  have stop : Run.take setsFloat.code 4 7 7 = ⟨[], 7, none⟩ := by
    rw [Run.take, if_neg (by decide)]
  have next : onlyFloat.next = 7 := rfl
  have action : Action.ofInst onlyFloat 4 = .ok (.fmove (.freg 3) (.fimm 0x3f800000)) := rfl
  show Run.take setsFloat.code 4 8 0 = _
  rw [take_of_decode (by decide) decode_setsFloat rfl action, next, stop]

theorem compile_setsFloat :
    ∃ b, compile .unlimited setsFloat.code ⟨4, 0x6d3f9a584000, 64⟩ 0 0 = .ok b ∧
      b.code.size = 38 := by
  have hok : ((compile .unlimited setsFloat.code ⟨4, 0x6d3f9a584000, 64⟩ 0 0).toOption.any
      fun b => b.code.size == 38) = true := by
    unfold compile
    rw [show Run.at setsFloat.code 4 0 = _ from run_setsFloat]
    decide +kernel
  obtain ⟨b, hb, hsize⟩ := exists_of_any hok
  exact ⟨b, hb, beq_iff_eq.mp hsize⟩

/-- The block of `setsFloat` on a new core, run on the placement below all arenas. -/
theorem float_code_simulates_setsFloat : ∃ p p' c b m' s', Proc.new setsFloat {} = .ok p ∧
    p.newCore 0 0 = (p', .ok c) ∧
    compile .unlimited p'.program.code (Machine.codeTarget ⟨c, p'⟩) 0 0 = .ok b ∧
    Machine.step ⟨c, p'⟩ onlyFloat = (m', none) ∧ m'.core.regs.float 3 = 0x3f800000 ∧
    Returned (.standard b.code) m' 0 s' ∧
    ∃ s s₁, InStep (.standard b.code) ⟨c, p'⟩ s ∧ InStep (.standard b.code) m' s₁ ∧
      Steps Placement.standard.returnAddress 2 s s₁ := by
  obtain ⟨p, p', c, hp, made, arenas, hprogram, htarget, hplace, hglobal, -⟩ :=
    newCore_of_code setsFloat.code
  obtain ⟨m', done, hfloat⟩ : ∃ m', Machine.step ⟨c, p'⟩ onlyFloat = (m', none) ∧
      m'.core.regs.float 3 = 0x3f800000 := by
    cases hp
    cases made
    exact ⟨_, Prod.ext rfl rfl, rfl⟩
  obtain ⟨b, compiled, hsize⟩ := compile_setsFloat
  rw [← hprogram, ← htarget] at compiled
  let x := Site.standard b.code
  have split : (Machine.runAt ⟨c, p'⟩ 0).steps =
      [] ++ (onlyFloat, .fmove (.freg 3) (.fimm 0x3f800000)) :: [] := by
    show (Run.at p'.program.code (Machine.codeTarget ⟨c, p'⟩).globalSize 0).steps = _
    rw [hprogram, htarget, run_setsFloat]
    rfl
  have hosts : x.Hosts ⟨c, p'⟩ := Site.hosts_core (by omega) arenas hplace
  let view : View :=
    { Machine.view .standard b ⟨c, p'⟩ with
      scratch := ({} : Memory).setWord x.top 8 x.place.returnAddress }
  -- A state inside the block, behind the two instructions that enter it.
  let s := ((⟨entryCpu .standard (x.at 11), view⟩ : X86.State View).setReg .rsp (x.top - 32)).setReg
    .r11 p'.global.base
  have inStep : InStep x ⟨c, p'⟩ s := {
    toMirrors := ⟨rfl, rfl, rfl, rfl, rfl⟩
    returns := Memory.word_setWord_qword _ _ _
    file := (X86.State.reg_setReg_of_ne _ _ (by decide)).trans
      ((X86.State.reg_setReg_of_ne _ _ (by decide)).trans rfl)
    global := X86.State.reg_setReg_self _ _ _
    frame := (X86.State.reg_setReg_of_ne _ _ (by decide)).trans (X86.State.reg_setReg_self _ _ _) }
  obtain ⟨inside, whole⟩ := float_code_simulates (m := ⟨c, p'⟩) (x := x) compiled split rfl rfl
    hosts hglobal done
  obtain ⟨s', -, returned⟩ := whole rfl rfl _ (entered_standard ⟨c, p'⟩ b)
  obtain ⟨s₁, hsteps, inStep₁, -⟩ := inside (by rw [hsize]; decide) s inStep rfl
  exact ⟨p, p', c, b, m', s', hp, made, compiled, done, hfloat, returned, s, s₁, inStep, inStep₁,
    hsteps⟩

end Native

end BlockVM
