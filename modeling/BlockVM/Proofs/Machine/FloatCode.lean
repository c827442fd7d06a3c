import BlockVM.Proofs.Machine.Placed

/-!
# The machine code of float actions

A float operand is a register of either file, 32 bits of memory or a constant. The machine reads any
of them through one conversion and writes through another; generated code picks an access for each
kind. `effects_loadF`, `effects_operateF` and `effects_storeF` say that each access does what the
machine's read and write do, and `effects_fcompare` that the conditions treat an unordered pair as
the machine does. Single-precision arithmetic, conversions and comparisons are the same functions on
both sides, and nothing here depends on what they compute.
-/

namespace BlockVM

open Isa (Inst)
open Layout (insts effects Sits)
open X86 (Reg Xmm Runs)

/-- What an operand takes in memory, if it is there, are 32 bits. -/
def Operand.isSingle : Operand → Bool
  | global _ w _ | pointer _ w _ => w = .dword
  | _ => true

namespace Lower

theorem operateF_direct (op : X86.SseOp) {src : Operand} (ho : Native.lives src = true)
    (hf : src.holdsFloat = true) :
    operateF op src = (place src .r9).1 ++ [.inst (.sseMem op x0 (place src .r9).2)] := by
  cases src with
  | freg => rfl
  | global | pointer =>
    cases hf
    rfl
  | reg => cases hf
  | imm | fimm => cases ho

theorem operateF_converted (op : X86.SseOp) {src : Operand} (hf : src.holdsFloat = false) :
    operateF op src = loadF x1 src ++ [.inst (.sseReg op x0 x1)] := by
  cases src with
  | reg | imm => rfl
  | global | pointer =>
    cases hf
    rfl
  | freg | fimm => cases hf

end Lower

namespace X86.State

variable {μ : Type}

@[simp] theorem lane_setLane_self (s : State μ) (x : Xmm) (v : UInt32) :
    (s.setLane x v).cpu.lane x = v := by
  simp [setLane, Cpu.lane, Cpu.setLane]

theorem lane_setLane_of_ne (s : State μ) {x y : Xmm} (v : UInt32)
    (h : Cpu.slot x.num ≠ Cpu.slot y.num) : (s.setLane x v).cpu.lane y = s.cpu.lane y := by
  simp only [setLane, Cpu.lane, Cpu.setLane, Fin.getElem_fin]
  exact Vector.getElem_set_ne _ _ fun heq => h (Fin.ext heq)

end X86.State

namespace Native.InStep

variable {x : Site} {m m' : Machine} {s : X86.State View} {i : Inst} {o dst src : Operand}
  {bits a b : UInt32}

theorem setLane (h : InStep x m s) (r : Xmm) (v : UInt32) : InStep x m (s.setLane r v) := { h with }

/-! ## Accesses -/

/-- What stands at the address of a float operand: its bits, or an integer to be converted. -/
theorem load_float_home (h : InStep x m s) (hosts : x.Hosts m) (ho : lives o = true)
    (single : o.isSingle = true) (hread : m.readF i o = .ok bits) :
    ∃ w, X86.loadWord s.mem 4 (home x m o) = some w ∧
      bits = if o.holdsFloat then w.toUInt32 else Binary32.ofInt w.toUInt32.toInt32.toInt := by
  cases o with
  | freg r =>
    cases hread
    exact ⟨_, h.load_float r, (UInt32.toUInt32_toUInt64 _).symm⟩
  | reg r =>
    cases hread
    have hload := h.load_int r (n := X86.Size.bytes .dword) (by decide)
    rw [X86.Size.ofNat_mod_bytes, X86.Size.truncate_dword] at hload
    refine ⟨_, hload, ?_⟩
    rw [UInt32.toUInt32_toUInt64]
  | global off w float | pointer r w float =>
    obtain ⟨v, hv, hbits⟩ := bind_eq_ok.mp hread
    cases hbits
    have hload := h.load_home hosts ho hv
    obtain rfl : w = .dword := of_decide_eq_true single
    exact ⟨v, hload, rfl⟩
  | imm | fimm => cases ho

/-- A float is stored at the address of its operand. -/
theorem store_float_home (h : InStep x m s) (hosts : x.Hosts m) (ho : o.holdsFloat = true)
    (single : o.isSingle = true) (hwrite : m.writeF i o bits = .ok m') :
    lives o = true ∧ ∃ mem, X86.storeWord s.mem 4 (home x m o) bits.toUInt64 = some mem ∧
      InStep x m' { s with mem := mem } := by
  cases o with
  | freg r =>
    cases hwrite
    have hstore := h.store_float r bits.toUInt64
    rw [UInt32.toUInt32_toUInt64] at hstore
    exact ⟨rfl, _, hstore, h.setRegs _⟩
  | global off w float | pointer r w float =>
    unfold Machine.writeF at hwrite
    dsimp only at hwrite
    rw [if_pos ho] at hwrite
    have hstore := h.store_home hosts hwrite rfl
    obtain rfl : w = .dword := of_decide_eq_true single
    exact ⟨rfl, hstore⟩
  | fimm => cases hwrite
  | reg | imm => cases ho

/-- The code in front of an access makes a float operand reachable. -/
theorem effects_place (h : InStep x m s) (hosts : x.Hosts m) (ho : lives o = true)
    (single : o.isSingle = true) (hread : m.readF i o = .ok bits) :
    ∃ y w, effects (Lower.place o .r9).1 s = some (s.setReg .r9 y) ∧
      (s.setReg .r9 y).load 4 (Lower.place o .r9).2 = some w ∧
      bits = if o.holdsFloat then w.toUInt32 else Binary32.ofInt w.toUInt32.toInt32.toInt := by
  obtain ⟨y, hpre, haddr⟩ := h.exec_place .r9 rfl ho
  obtain ⟨w, hload, hbits⟩ := h.load_float_home hosts ho single hread
  refine ⟨y, w, ?_, ?_, hbits⟩
  · rw [Layout.effects_of_straight (Lower.straight_place o .r9 (by decide)).1, hpre]
  · rw [X86.State.load, haddr]
    exact hload

/-- A constant that is converted. -/
theorem effects_convert (r : Xmm) (v : UInt64) :
    effects (Lower.loadF r (.imm v)) s = some ((s.setReg .rcx v.toUInt32.toUInt64).setLane r
      (Binary32.ofInt v.toUInt32.toInt32.toInt)) := by
  let s₁ := s.setReg .rcx v.toUInt32.toUInt64
  have hconvert : X86.exec (.cvtsi2ss .dword r .rcx) s₁
      = some (s₁.setLane r (Binary32.ofInt v.toUInt32.toInt32.toInt)) := by
    rw [X86.exec, regAt_eq, X86.State.reg_setReg_self, X86.Size.truncate_dword, X86.Size.toInt,
      UInt32.toUInt32_toUInt64, UInt32.toUInt32_toUInt64]
  show (X86.exec (.cvtsi2ss .dword r .rcx) s₁).bind some = _
  rw [hconvert]
  rfl

/-- A float operand in a lane; the other lanes stay as they are. -/
theorem effects_loadF (h : InStep x m s) (hosts : x.Hosts m) (single : o.isSingle = true)
    (hread : m.readF i o = .ok bits) (r : Xmm) :
    ∃ s', effects (Lower.loadF r o) s = some s' ∧ InStep x m s' ∧ s'.cpu.lane r = bits ∧
      ∀ y : Xmm, X86.Cpu.slot r.num ≠ X86.Cpu.slot y.num → s'.cpu.lane y = s.cpu.lane y := by
  -- An operand in memory is loaded or converted from there, an immediate from a register.
  by_cases ho : lives o = true
  · obtain ⟨y, w, hpre, hload, hbits⟩ := h.effects_place hosts ho single hread
    have hcode : Lower.loadF r o = (Lower.place o .r9).1 ++
        [if o.holdsFloat then .inst (.movssLoad r (Lower.place o .r9).2)
          else .inst (.cvtsi2ssMem .dword r (Lower.place o .r9).2)] := by
      cases o <;> first | rfl | cases ho
    refine ⟨_, ?_, (h.setReg (r := .r9) rfl y).setLane r bits, X86.State.lane_setLane_self ..,
      fun _ => X86.State.lane_setLane_of_ne _ _⟩
    rw [hcode, Layout.effects_append, hpre, Option.bind_some, hbits, effects]
    split
    · show (((s.setReg .r9 y).load 4 (Lower.place o .r9).2).bind _).bind some = _
      rw [hload]
      rfl
    · show (((s.setReg .r9 y).load 4 (Lower.place o .r9).2).bind _).bind some = _
      rw [hload]
      rfl
  · cases o with
    | fimm =>
      cases hread
      exact ⟨_, rfl, h.setLane r bits, X86.State.lane_setLane_self ..,
        fun _ => X86.State.lane_setLane_of_ne _ _⟩
    | imm v =>
      obtain ⟨u, hu, hbits⟩ := bind_eq_ok.mp hread
      cases hu
      rw [show (Operand.imm v).holdsFloat = false from rfl, if_neg Bool.false_ne_true] at hbits
      cases hbits
      exact ⟨_, effects_convert r v, (h.setReg (r := .rcx) rfl _).setLane r _,
        X86.State.lane_setLane_self .., fun _ => X86.State.lane_setLane_of_ne _ _⟩
    | reg | freg | global | pointer => exact absurd rfl ho

/-- An operation on the first lane and a float operand. -/
theorem effects_operateF {op : X86.SseOp} {f : UInt32 → UInt32 → UInt32}
    (hop : ∀ a b, op.apply a b = some (f a b)) (h : InStep x m s) (hosts : x.Hosts m)
    (single : src.isSingle = true) (hread : m.readF i src = .ok b) :
    ∃ s', effects (Lower.operateF op src) s = some s' ∧ InStep x m s' ∧
      s'.cpu.lane Lower.x0 = f (s.cpu.lane Lower.x0) b := by
  cases hf : src.holdsFloat with
  | false =>
    -- An integer is converted in the other lane.
    obtain ⟨s₁, hload, h₁, hloaded, hkept⟩ := h.effects_loadF hosts single hread Lower.x1
    refine ⟨_, ?_, h₁.setLane Lower.x0 (f (s.cpu.lane Lower.x0) b), X86.State.lane_setLane_self ..⟩
    rw [Lower.operateF_converted op hf, Layout.effects_append, hload, Option.bind_some]
    show ((op.apply (s₁.cpu.lane Lower.x0) (s₁.cpu.lane Lower.x1)).bind _).bind some = _
    rw [hkept Lower.x0 (by decide), hloaded, hop]
    rfl
  | true =>
    cases src with
    | fimm bits =>
      cases hread
      refine ⟨_, ?_, h.setLane Lower.x0 (f (s.cpu.lane Lower.x0) b), X86.State.lane_setLane_self ..⟩
      show ((op.apply (s.cpu.lane Lower.x0) b).map _).bind some = _
      rw [hop]
      rfl
    | reg | imm => cases hf
    | freg | global | pointer =>
      obtain ⟨y, w, hpre, hload, hb⟩ := h.effects_place hosts rfl single hread
      rw [if_pos hf] at hb
      refine ⟨_, ?_, (h.setReg (r := .r9) rfl y).setLane Lower.x0 (f (s.cpu.lane Lower.x0) b),
        X86.State.lane_setLane_self ..⟩
      rw [Lower.operateF_direct op rfl hf, Layout.effects_append, hpre, Option.bind_some]
      show ((((s.setReg .r9 y).load 4 _).bind _).bind some) = _
      rw [hload, Option.bind_some, ← hb]
      show ((op.apply (s.cpu.lane Lower.x0) b).bind _).bind some = _
      rw [hop]
      rfl

/-- A store of a lane does what the machine's write does. -/
theorem effects_storeF (h : InStep x m s) (hosts : x.Hosts m) (single : o.isSingle = true) (r : Xmm)
    (hwrite : m.writeF i o (s.cpu.lane r) = .ok m') :
    ∃ s', effects (Lower.storeF o r) s = some s' ∧ InStep x m' s' := by
  cases hf : o.holdsFloat with
  | true =>
    obtain ⟨ho, -⟩ := h.store_float_home hosts hf single hwrite
    obtain ⟨y, hpre, haddr⟩ := h.exec_place .r8 rfl ho
    obtain ⟨-, mem, hstore, h'⟩ :=
      (h.setReg (r := .r8) rfl y).store_float_home hosts hf single hwrite
    refine ⟨_, ?_, h'⟩
    rw [Lower.storeF, if_pos hf]
    show effects ((Lower.place o .r8).1 ++ [.inst (.movssStore (Lower.place o .r8).2 r)]) s = _
    rw [Layout.effects_append,
      Layout.effects_of_straight (Lower.straight_place o .r8 (by decide)).1, hpre, Option.bind_some]
    show (((X86.storeWord s.mem 4 _ (s.cpu.lane r).toUInt64).bind _).bind some) = _
    rw [haddr]
    show (((X86.storeWord (s.setReg .r8 y).mem 4 _ (s.cpu.lane r).toUInt64).bind _).bind some) = _
    rw [hstore]
    rfl
  | false =>
    -- Without a float operand the value is converted and stored like an integer.
    let v := (Binary32.toInt32 (s.cpu.lane r)).toUInt64
    have hwrite' : m.write i o v = .ok m' := by
      cases o with
      | freg | fimm => cases hf
      | reg | imm => exact hwrite
      | global | pointer =>
        unfold Machine.writeF at hwrite
        dsimp only at hwrite
        rwa [hf] at hwrite
    have h₁ := h.setReg (r := .rax) rfl v
    obtain ⟨s', hstore, h'⟩ := h₁.exec_store hosts hwrite' (r := .rax) (by decide)
      (by rw [X86.State.reg_setReg_self])
    refine ⟨s', ?_, h'⟩
    rw [Lower.storeF, if_neg (by rw [hf]; decide)]
    show effects (Lower.store o Lower.acc) (s.setReg .rax v) = _
    rw [Layout.effects_of_straight (Lower.straight_store Lower.num_acc o)]
    exact hstore

/-- The condition of a relation after a float comparison. -/
theorem holds_unsignedCond (rel : Relation) (a b : UInt32) :
    (Lower.unsignedCond rel).holds (X86.compareFlags (Binary32.compare a b)) =
    rel.holdsFloat a b := by
  unfold Relation.holdsFloat
  cases rel <;> cases Binary32.compare a b <;> rfl

/-- A comparison stores the truth of the relation between two registers of the float file. -/
theorem effects_fcompare {rel : Relation} {p q : Operand} (h : InStep x m s) (hosts : x.Hosts m)
    (hwrite : m.write i dst (truth
      (rel.holdsFloat (m.core.regs.float p.index) (m.core.regs.float q.index))) = .ok m') :
    ∃ s', effects (Lower.fcompare rel dst p q) s = some s' ∧ InStep x m' s' := by
  let a := m.core.regs.float p.index
  let b := m.core.regs.float q.index
  let s₁ := s.setLane Lower.x0 a
  let s₂ := s₁.setFlags (some (X86.compareFlags (Binary32.compare a b)))
  have h₁ : InStep x m s₁ := h.setLane Lower.x0 a
  have hload : X86.exec (.movssLoad Lower.x0 (Lower.fregSlot p.index)) s = some s₁ := by
    rw [X86.exec, X86.State.load, address_fregSlot h.file, h.load_float]
    show some (s.setLane Lower.x0 a.toUInt64.toUInt32) = _
    rw [UInt32.toUInt32_toUInt64]
  have hcompare : X86.exec (.ucomissMem Lower.x0 (Lower.fregSlot q.index)) s₁ = some s₂ := by
    rw [X86.exec, X86.State.load, address_fregSlot h₁.file, h₁.load_float]
    show some (s₁.setFlags (some (X86.compareFlags
      (Binary32.compare (s₁.cpu.lane Lower.x0) b.toUInt64.toUInt32)))) = _
    rw [UInt32.toUInt32_toUInt64, X86.State.lane_setLane_self]
  -- The flags of the comparison decide the relation just as the evaluator does.
  rw [← holds_unsignedCond] at hwrite
  obtain ⟨s', hstore, h'⟩ := (h₁.setFlags _).exec_storeCondition hosts rfl hwrite
  refine ⟨s', ?_, h'⟩
  show (X86.exec (.movssLoad Lower.x0 (Lower.fregSlot p.index)) s).bind (fun s =>
    (X86.exec (.ucomissMem Lower.x0 (Lower.fregSlot q.index)) s).bind
      (effects (Lower.storeCondition (Lower.unsignedCond rel) dst))) = _
  rw [hload, Option.bind_some, hcompare, Option.bind_some,
    Layout.effects_of_straight (Lower.straight_storeCondition _ dst)]
  exact hstore

theorem effects_fmove (h : InStep x m s) (hosts : x.Hosts m) (hdst : dst.isSingle = true)
    (hsrc : src.isSingle = true) (hread : m.readF i src = .ok a)
    (hwrite : m.writeF i dst a = .ok m') :
    ∃ s', effects (Lower.fmove dst src) s = some s' ∧ InStep x m' s' := by
  obtain ⟨s₁, hload, h₁, hlane, -⟩ := h.effects_loadF hosts hsrc hread Lower.x0
  obtain ⟨s', hstore, h'⟩ := h₁.effects_storeF hosts hdst Lower.x0 (by rw [hlane]; exact hwrite)
  refine ⟨s', ?_, h'⟩
  rw [Lower.fmove, Layout.effects_append, hload]
  exact hstore

/-- Arithmetic reads its destination first, then the source, and stores the result. -/
theorem effects_farith {op : X86.SseOp} {f : UInt32 → UInt32 → UInt32}
    (hop : ∀ a b, op.apply a b = some (f a b)) (h : InStep x m s) (hosts : x.Hosts m)
    (hdst : dst.isSingle = true) (hsrc : src.isSingle = true) (ha : m.readF i dst = .ok a)
    (hb : m.readF i src = .ok b) (hwrite : m.writeF i dst (f a b) = .ok m') :
    ∃ s', effects (Lower.farith op dst src) s = some s' ∧ InStep x m' s' := by
  obtain ⟨s₁, hload, h₁, hlane, -⟩ := h.effects_loadF hosts hdst ha Lower.x0
  obtain ⟨s₂, hoperate, h₂, hresult⟩ := h₁.effects_operateF hop hosts hsrc hb
  rw [hlane] at hresult
  obtain ⟨s', hstore, h'⟩ := h₂.effects_storeF hosts hdst Lower.x0 (by rw [hresult]; exact hwrite)
  refine ⟨s', ?_, h'⟩
  rw [Lower.farith, Layout.effects_append, Layout.effects_append, hload, Option.bind_some, hoperate]
  exact hstore

end Native.InStep

end BlockVM
