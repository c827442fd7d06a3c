import BlockVM.Proofs.Machine.Sound

/-!
# Failures of a step are faults of its instruction

`FaultsAt pc r` says that a computation fails, if at all, by a fault at `pc`: never by an abort and
never by the plain failure of an access or of a port. On a sound machine every part of a step has
this property at the address of its instruction.
-/

namespace BlockVM

open Isa (Inst)

/-- The stop is a fault that names an address. -/
def Stop.IsFaultAt (pc : Int64) : Stop → Prop
  | .failure (.fault _ p _) | .failure (.faultBy _ p _ _) => p = pc
  | _ => False

/-- A failure of the computation is a fault at `pc`. -/
def FaultsAt {α : Type} (pc : Int64) (r : Except Stop α) : Prop :=
  ∀ e, r = .error e → e.IsFaultAt pc

namespace FaultsAt

variable {α β : Type} {pc : Int64}

theorem ok (a : α) : FaultsAt pc (.ok a) := by
  intro e h
  cases h

theorem error {e : Stop} (h : e.IsFaultAt pc) : FaultsAt (α := α) pc (.error e) := by
  intro e' h'
  cases h'
  exact h

/-- Steps that fault at an address, one after the other. -/
theorem bind {x : Except Stop α} {f : α → Except Stop β} (hx : FaultsAt pc x)
    (hf : ∀ a, x = .ok a → FaultsAt pc (f a)) : FaultsAt pc (x >>= f) := by
  intro e h
  rcases bind_eq_error.mp h with h | ⟨a, ha, h⟩
  · exact hx e h
  · exact hf a ha e h

/-- A failure that is relabelled by the instruction is a fault. -/
theorem faultOn {kind : FaultKind} {i : Inst} {what : String} {r : Except Stop α}
    (h : ∀ e, r = .error e → ∃ f, e = .failure f) : FaultsAt i.pc (faultOn kind i what r) := by
  intro e he
  obtain ⟨e', hr, rfl⟩ := mapError_eq_error.mp he
  obtain ⟨f, rfl⟩ := h e' hr
  rfl

theorem portFault {i : Inst} (r : Except Failure α) :
    FaultsAt i.pc (r.mapError (Machine.portFault i)) := by
  intro e he
  obtain ⟨f, -, rfl⟩ := mapError_eq_error.mp he
  rfl

end FaultsAt

/-! ## Decoding -/

/-- An opcode whose bytes exist is read; the sum that its check computes does not overflow. -/
theorem faultsAt_peek {code : Array UInt8} {pc : Int64} (hcode : code.size < 2 ^ 63)
    (hpc : pc.toInt + 2 < 2 ^ 63) : FaultsAt pc (Isa.peek code pc) := by
  unfold Isa.peek
  split
  · exact .error rfl
  next hbounds =>
    obtain ⟨hnonneg, hin⟩ := not_or.mp hbounds
    have hlo := toInt_nonneg_iff.mp (Int64.not_lt.mp hnonneg)
    have hsize : (Int64.ofNat code.size).toInt = code.size := Int64.toInt_ofNat_of_lt hcode
    have htwo : (Int64.ofNat Isa.opcodeSize).toInt = 2 := rfl
    rw [Int64.lt_iff_toInt_lt, hsize, toInt_add_of_bounds (by omega) (by omega), htwo] at hin
    have hlen := Isa.length_window code pc.toNatClampNeg Isa.opcodeSize
    have hnat : pc.toNatClampNeg = pc.toInt.toNat := rfl
    split
    · unfold Isa.entry
      cases Isa.lookup _ with
      | none => exact .error rfl
      | some info => exact .ok info
    next hnot =>
      -- The window has two bytes, so the other branch was taken.
      match hw : Isa.window code pc.toNatClampNeg Isa.opcodeSize with
      | [lo, hi] => exact absurd hw (hnot lo hi)
      | [] | [_] | _ :: _ :: _ :: _ =>
        rw [hw] at hlen
        simp only [List.length_cons, List.length_nil, Isa.opcodeSize] at hlen
        omega

/-- Decoding faults at the address that it decodes at, as long as the ends of the instruction are
words. -/
theorem faultsAt_decode {code : Array UInt8} {pc : Int64} (hcode : code.size < 2 ^ 63)
    (hpc : pc.toInt + 16 < 2 ^ 63) : FaultsAt pc (Isa.decode code pc) := by
  refine (faultsAt_peek hcode (by omega)).bind fun info hpeek => ?_
  dsimp only
  split
  · exact .error rfl
  next hin =>
    obtain ⟨hnonneg, -, hknown⟩ := Isa.peek_eq_ok hpeek
    have hlo := toInt_nonneg_iff.mp hnonneg
    have hlength := Isa.length_le_of_mem_table hknown
    have hsize : (Int64.ofNat code.size).toInt = code.size := Int64.toInt_ofNat_of_lt hcode
    have hl : (Int64.ofNat info.length).toInt = info.length :=
      Int64.toInt_ofNat_of_lt (by omega)
    rw [Int64.lt_iff_toInt_lt, hsize, toInt_add_of_bounds (by omega) (by omega), hl] at hin
    have hnat : pc.toNatClampNeg = pc.toInt.toNat := rfl
    have hwindow := Isa.length_window code (pc.toNatClampNeg + Isa.opcodeSize)
      (info.length - Isa.opcodeSize)
    rw [if_neg (by omega)]
    exact .ok _

/-! ## Preparation -/

/-- A refused operand is a fault of the instruction. -/
theorem faultsAt_validate (i : Inst) : FaultsAt i.pc (validate i) := by
  unfold validate
  dsimp only
  split
  · split
    · exact .error rfl
    · split
      · exact .error rfl
      · exact .ok ()
  · split
    · exact .error rfl
    · exact .ok ()

theorem faultsAt_operandOf (i : Inst) (slot : Nat) (a : Isa.Operand) (g : Int64) :
    FaultsAt i.pc (operandOf i slot a g) := by
  unfold operandOf
  cases a.kind
  case mem | byteMem | quadMem | fmem =>
    dsimp only
    split
    · exact .error rfl
    · exact .ok _
  case addr | disp => exact .error rfl
  all_goals exact .ok _

/-- An operand that cannot be resolved is a fault of the instruction, by induction on the
operands. -/
theorem faultsAt_operandsFrom (i : Inst) (g : Int64) (slot : Nat) (args : List Isa.Operand) :
    FaultsAt i.pc (operandsFrom i g slot args) := by
  induction args generalizing slot with
  | nil => exact .ok []
  | cons a args ih =>
    refine (faultsAt_operandOf i slot a g).bind fun o _ => ?_
    exact (ih (slot + 1)).bind fun _ _ => .ok _

theorem faultsAt_ofInst (i : Inst) (g : Int64) : FaultsAt i.pc (Action.ofInst i g) := by
  have hprepare : FaultsAt i.pc (prepare i g) :=
    (faultsAt_validate i).bind fun _ _ => faultsAt_operandsFrom i g 0 i.args
  refine hprepare.bind fun ops _ => ?_
  split
  · exact .ok _
  · exact .error rfl

/-! ## Values -/

theorem faultsAt_divide (i : Inst) (remainder : Bool) (w : Access) (a b : UInt64) :
    FaultsAt i.pc (divide i remainder w a b) := by
  unfold divide
  split
  · unfold divide32
    split
    · exact .error rfl
    · exact .ok _
  · unfold divide64
    split
    · exact .error rfl
    · exact .ok _

theorem faultsAt_arith (i : Inst) (op : ArithOp) (w : Access) (a b : UInt64) :
    FaultsAt i.pc (arith i op w a b) := by
  cases op
  case div => exact faultsAt_divide i false w a b
  case mod => exact faultsAt_divide i true w a b
  case shr => cases w <;> exact .ok _
  all_goals exact .ok _

/-! ## Operands -/

theorem isWidth_bytes (w : Access) : Arena.isWidth (Int64.ofNat w.bytes) = true := by
  cases w <;> rfl

theorem toInt_bytes (w : Access) :
    0 ≤ (Int64.ofNat w.bytes).toInt ∧ (Int64.ofNat w.bytes).toInt ≤ 8 := by
  cases w <;> decide

/-- An offset of an operand and the width of its access do not overflow. -/
theorem offset_add_lt (off : Int32) (w : Access) :
    off.toInt64.toInt + (Int64.ofNat w.bytes).toInt < 2 ^ 63 := by
  have hoff := off.toInt_lt
  have hw := (toInt_bytes w).2
  rw [Int32.toInt_toInt64]
  omega

namespace Machine

variable {m : Machine}

/-- A pointer that leads nowhere is a fault of the instruction that follows it, not of the
search. -/
theorem faultsAt_target (hp : m.proc.Sound) (i : Inst) (r : UInt8) (w : Access) :
    FaultsAt i.pc (m.target i r w) :=
  .faultOn fun _ he => Space.resolve_error (fun a ha => (hp.space a ha).isOpen) he

/-- What a register points to lies inside the arena that was found. -/
theorem within_of_target (hp : ∀ a ∈ m.proc.space.arenas, a.Mapped) {i : Inst} {r : UInt8}
    {w : Access} {a : Arena} {off : Int64} (h : m.target i r w = .ok (a, off)) :
    a ∈ m.proc.space.arenas ∧ a.Within off (Int64.ofNat w.bytes) ∧
      a.base + off.toUInt64 = m.core.regs.int r := by
  have hres := mapError_eq_ok.mp h
  obtain ⟨ha, hc, hoff⟩ := Space.resolve_eq_ok hres
  have hw := toInt_bytes w
  refine ⟨ha, ?_, ?_⟩
  · rw [hoff]
    exact Arena.within_of_covers (hp a ha) hw.1 hw.2 hc
  · rw [hoff, UInt64.toUInt64_toInt64, UInt64.add_comm, UInt64.sub_add_cancel]

theorem faultsAt_read (hp : m.proc.Sound) (i : Inst) (o : Operand) :
    FaultsAt i.pc (m.read i o) := by
  cases o with
  | imm v => exact .ok v
  | reg r => exact .ok _
  | global off w float =>
    refine .faultOn fun e he => ⟨_, Arena.read_error (offset_add_lt off w) (isWidth_bytes w) he⟩
  | pointer r w float =>
    refine (faultsAt_target hp i r w).bind ?_
    rintro ⟨a, off⟩ h
    obtain ⟨ha, hin, -⟩ := within_of_target hp.space h
    dsimp only
    rw [Arena.read_of_within (hp.space a ha).size_lt hin (isWidth_bytes w)]
    exact .ok _
  | freg r => exact .error rfl
  | fimm bits => exact .error rfl

theorem faultsAt_write (hp : m.proc.Sound) (i : Inst) (o : Operand) (v : UInt64) :
    FaultsAt i.pc (m.write i o v) := by
  cases o with
  | reg r => exact .ok _
  | global off w float =>
    refine FaultsAt.bind (.faultOn fun e he => ?_) fun _ _ => .ok _
    exact ⟨_, Arena.write_error (offset_add_lt off w) (isWidth_bytes w) he⟩
  | pointer r w float =>
    refine (faultsAt_target hp i r w).bind ?_
    rintro ⟨a, off⟩ h
    obtain ⟨ha, hin, -⟩ := within_of_target hp.space h
    dsimp only
    rw [Arena.write_of_within (hp.space a ha).size_lt hin (isWidth_bytes w)]
    exact .ok _
  | freg r => exact .error rfl
  | imm v => exact .error rfl
  | fimm bits => exact .error rfl

theorem faultsAt_readF (hp : m.proc.Sound) (i : Inst) (o : Operand) :
    FaultsAt i.pc (m.readF i o) := by
  unfold readF
  split
  · exact .ok _
  · exact .ok _
  · exact (faultsAt_read hp i o).bind fun _ _ => .ok _

theorem faultsAt_writeF (hp : m.proc.Sound) (i : Inst) (o : Operand) (bits : UInt32) :
    FaultsAt i.pc (m.writeF i o bits) := by
  unfold writeF
  split
  · exact .ok _
  · split
    · exact faultsAt_write hp i o _
    · exact faultsAt_write hp i o _

theorem faultsAt_port (hp : m.proc.Sound) (i : Inst) (o : Operand) :
    FaultsAt i.pc (m.port i o) := by
  refine (faultsAt_read hp i o).bind fun p _ => ?_
  split
  · exact .ok _
  · exact .error rfl

/-- The device gets three numbers, each of which is read. -/
theorem faultsAt_drawCall (i : Inst) (x y image : Operand) :
    FaultsAt i.pc (m.drawCall i x y image) := by
  have himage : FaultsAt i.pc (m.imageAddress i image) := by
    unfold imageAddress
    split
    next off w float =>
      exact .faultOn fun e he => ⟨_, Arena.read_error (offset_add_lt off .qword) rfl he⟩
    · exact .ok _
  refine himage.bind fun _ _ => ?_
  refine FaultsAt.bind (.portFault _) fun _ _ => ?_
  exact FaultsAt.bind (.portFault _) fun _ _ => .ok _

theorem faultsAt_outputArgs (hp : m.proc.Sound) (i : Inst) (port value : Operand) :
    FaultsAt i.pc (m.outputArgs i port value) :=
  (faultsAt_port hp i port).bind fun _ _ => (faultsAt_read hp i value).bind fun _ _ => .ok _

end Machine

end BlockVM
