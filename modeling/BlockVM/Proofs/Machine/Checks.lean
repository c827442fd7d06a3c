import BlockVM.Proofs.Block.Compiled
import BlockVM.Proofs.Machine.Dispatch
import BlockVM.Proofs.Machine.Faults

/-!
# Checked preconditions

An abort means that a precondition was broken, and it has a text where the precondition is checked
for: that a word has a width that exists, that a code buffer is not finished, that a block is not
cached twice. `Quiet` says of an outcome that no such check was broken. Every instruction and every
control transfer has a quiet outcome, in any state whatsoever, because all accesses have widths that
exist.
-/

namespace BlockVM

open Isa (Inst)

/-- The abort of a precondition that is checked for. -/
def Stop.IsChecked : Stop → Prop
  | .abort (some _) => True
  | _ => False

/-- An outcome that breaks no check. -/
def Quiet (o : Option Stop) : Prop := ∀ e, o = some e → ¬ e.IsChecked

/-- A computation that breaks no check. -/
def KeepsChecks {α : Type} (r : Except Stop α) : Prop := ∀ e, r = .error e → ¬ e.IsChecked

theorem quiet_none : Quiet none := nofun

theorem quiet_failure (f : Failure) : Quiet (some (.failure f)) := by
  rintro _ ⟨⟩
  exact not_false

theorem quiet_abort_none : Quiet (some (.abort none)) := by
  rintro _ ⟨⟩
  exact not_false

theorem Stop.IsFaultAt.not_isChecked {pc : Int64} {e : Stop} (h : e.IsFaultAt pc) :
    ¬ e.IsChecked := by
  match e, h with
  | .failure _, _ => exact not_false

namespace KeepsChecks

variable {α β : Type}

theorem ok (a : α) : KeepsChecks (.ok a) := nofun

theorem error {e : Stop} (h : ¬ e.IsChecked) : KeepsChecks (α := α) (.error e) := by
  rintro _ ⟨⟩
  exact h

theorem quiet {r : Except Stop α} {e : Stop} (h : KeepsChecks r) (he : r = .error e) :
    Quiet (some e) := by
  rintro _ ⟨⟩
  exact h e he

theorem bind {x : Except Stop α} {f : α → Except Stop β} (hx : KeepsChecks x)
    (hf : ∀ a, KeepsChecks (f a)) : KeepsChecks (x >>= f) := by
  intro e h
  rcases bind_eq_error.mp h with h | ⟨a, -, h⟩
  · exact hx e h
  · exact hf a e h

theorem of_faultsAt {pc : Int64} {r : Except Stop α} (h : FaultsAt pc r) : KeepsChecks r :=
  fun e he => (h e he).not_isChecked

theorem portFault {i : Inst} (r : Except Failure α) :
    KeepsChecks (r.mapError (Machine.portFault i)) :=
  of_faultsAt (FaultsAt.portFault r)

end KeepsChecks

/-- A fault of access breaks no more than the failure that it wraps. -/
theorem isChecked_accessFault {kind : FaultKind} {i : Inst} {what : String} {e : Stop} :
    (accessFault kind i what e).IsChecked → e.IsChecked := by
  cases e with
  | failure f => exact False.elim
  | abort reason => exact id

theorem KeepsChecks.faultOn {α : Type} {kind : FaultKind} {i : Inst} {what : String}
    {r : Except Stop α} (h : KeepsChecks r) : KeepsChecks (faultOn kind i what r) := by
  intro e he
  obtain ⟨e', hr, rfl⟩ := mapError_eq_error.mp he
  exact fun hc => h e' hr (isChecked_accessFault hc)

/-! ## Memory -/

namespace Arena

variable {a : Arena} {m : Memory} {off n : Int64} {v : UInt64}

theorem keepsChecks_locate : KeepsChecks (a.locate off n) := by
  unfold locate
  split
  · exact .error not_false
  · split
    · exact .error not_false
    · exact .ok _

theorem keepsChecks_read (hn : isWidth n = true) : KeepsChecks (a.read m off n) := by
  refine keepsChecks_locate.bind fun addr => ?_
  rw [if_pos hn]
  exact .ok _

theorem keepsChecks_write (hn : isWidth n = true) : KeepsChecks (a.write m off n v) := by
  refine keepsChecks_locate.bind fun addr => ?_
  rw [if_pos hn]
  exact .ok _

end Arena

namespace Space

/-- The search for an arena can abort, but on no check. -/
theorem keepsChecks_search (arenas : Array Arena) (addr : UInt64) (lo hi : Nat) :
    KeepsChecks (search arenas addr lo hi) := by
  fun_induction search arenas addr lo hi with
  | case1 => exact .error not_false
  | case2 lo hi h mid a hget e he =>
    unfold Arena.address at he
    split at he
    · cases he
    · cases he
      exact .error not_false
  | case3 _ _ _ _ _ _ _ _ _ ih => exact ih
  | case4 _ _ _ _ _ _ _ _ _ ih => exact ih
  | case5 lo => exact .ok lo

theorem keepsChecks_resolve (s : Space) (addr : UInt64) (n : Int64) :
    KeepsChecks (s.resolve addr n) := by
  refine (keepsChecks_search _ _ _ _).bind fun k => ?_
  split
  · exact .error not_false
  · split
    · exact .error not_false
    · split
      · exact .ok _
      · split <;> exact .error not_false

end Space

/-! ## Instructions -/

theorem keepsChecks_decode (code : Array UInt8) (pc : Int64) :
    KeepsChecks (Isa.decode code pc) := by
  have hpeek : KeepsChecks (Isa.peek code pc) := by
    unfold Isa.peek
    split
    · exact .error not_false
    · split
      · unfold Isa.entry
        cases Isa.lookup _ with
        | none => exact .error not_false
        | some info => exact .ok info
      · exact .error not_false
  refine hpeek.bind fun info => ?_
  dsimp only
  split
  · exact .error not_false
  · split
    · exact .error not_false
    · exact .ok _

namespace Machine

variable (m : Machine) (i : Inst)

theorem keepsChecks_target (r : UInt8) (w : Access) : KeepsChecks (m.target i r w) :=
  (Space.keepsChecks_resolve _ _ _).faultOn

theorem keepsChecks_read (o : Operand) : KeepsChecks (m.read i o) := by
  cases o with
  | imm v => exact .ok v
  | reg r => exact .ok _
  | global off w float => exact (Arena.keepsChecks_read (isWidth_bytes w)).faultOn
  | pointer r w float =>
    exact (keepsChecks_target m i r w).bind fun _ => Arena.keepsChecks_read (isWidth_bytes w)
  | freg r => exact .error not_false
  | fimm bits => exact .error not_false

theorem keepsChecks_write (o : Operand) (v : UInt64) : KeepsChecks (m.write i o v) := by
  cases o with
  | reg r => exact .ok _
  | global off w float =>
    exact (Arena.keepsChecks_write (isWidth_bytes w)).faultOn.bind fun _ => .ok _
  | pointer r w float =>
    refine (keepsChecks_target m i r w).bind fun _ => ?_
    exact (Arena.keepsChecks_write (isWidth_bytes w)).bind fun _ => .ok _
  | freg r => exact .error not_false
  | imm v => exact .error not_false
  | fimm bits => exact .error not_false

theorem keepsChecks_readF (o : Operand) : KeepsChecks (m.readF i o) := by
  unfold readF
  split
  · exact .ok _
  · exact .ok _
  · exact (keepsChecks_read m i o).bind fun _ => .ok _

theorem keepsChecks_writeF (o : Operand) (bits : UInt32) : KeepsChecks (m.writeF i o bits) := by
  unfold writeF
  split
  · exact .ok _
  · split <;> exact keepsChecks_write m i o _

theorem keepsChecks_port (o : Operand) : KeepsChecks (m.port i o) := by
  refine (keepsChecks_read m i o).bind fun p => ?_
  split
  · exact .ok _
  · exact .error not_false

variable {m i}

theorem quiet_commit {r : Except Stop Machine} (h : KeepsChecks r) : Quiet (m.commit r).2 := by
  cases r with
  | ok m => exact quiet_none
  | error e => exact h.quiet rfl

variable (m i)

/-- Storing a range breaks no check, by induction on the registers. -/
theorem quiet_storeRange (stack : Arena) (regs : Registers) (float : Bool) (n : Nat) (r : UInt8)
    (off : Int64) (memory : Memory) :
    Quiet (storeRange stack regs float n r off memory).2 := by
  induction n generalizing r off memory with
  | zero => exact quiet_none
  | succ n ih =>
    unfold storeRange
    split
    next he => exact (Arena.keepsChecks_write (isWidth_slotSize float)).quiet he
    · exact ih _ _ _

theorem quiet_loadRange (stack : Arena) (memory : Memory) (float : Bool) (n : Nat) (r : UInt8)
    (off : Int64) (regs : Registers) : Quiet (loadRange stack memory float n r off regs).2 := by
  induction n generalizing r off regs with
  | zero => exact quiet_none
  | succ n ih =>
    unfold loadRange
    split
    next he => exact (Arena.keepsChecks_read (isWidth_slotSize float)).quiet he
    · exact ih _ _ _

theorem quiet_push (r : RegRange) : Quiet (m.push i r).2 := by
  have stored := quiet_storeRange m.core.stack m.core.regs r.float r.count r.first m.core.regs.sp
    m.memory
  unfold push
  dsimp only
  split
  · split
    next heq =>
      rw [heq] at stored
      exact stored
    · exact quiet_none
  · exact quiet_failure _

theorem quiet_pop (r : RegRange) : Quiet (m.pop i r).2 := by
  have loaded := quiet_loadRange m.core.stack m.memory r.float r.count r.first
    (m.core.regs.sp - Int64.ofNat r.bytes) m.core.regs
  unfold pop
  dsimp only
  split
  · split
    next heq =>
      rw [heq] at loaded
      exact loaded
    · exact quiet_none
  · exact quiet_failure _

/-- A failure of a device or of a port is no abort. -/
theorem quiet_map {α : Type} (o : Option α) (f : α → Failure) :
    Quiet (o.map fun a => .failure (f a)) := by
  cases o with
  | none => exact quiet_none
  | some a => exact quiet_failure _

theorem quiet_draw (x y image : Operand) : Quiet (m.draw i x y image).2 := by
  unfold draw
  split
  next he => exact (KeepsChecks.of_faultsAt (faultsAt_drawCall i x y image)).quiet he
  · exact quiet_map _ _

theorem quiet_service (s : Service) : Quiet (m.service i s).2 := by
  cases s with
  | output port value width =>
    unfold service
    dsimp only
    split
    -- An output whose operands cannot be read fails with what these report.
    next he =>
      have hargs : KeepsChecks (m.outputArgs i port value) :=
        (keepsChecks_port m i port).bind fun _ =>
          (keepsChecks_read m i value).bind fun _ => .ok _
      exact hargs.quiet he
    · exact quiet_map _ _
  | input dst port width =>
    refine quiet_commit ((keepsChecks_port m i port).bind fun p => ?_)
    exact (KeepsChecks.portFault _).bind fun v => keepsChecks_write m i dst v
  | foutput port value =>
    refine quiet_commit ((keepsChecks_port m i port).bind fun p => ?_)
    refine (keepsChecks_readF m i value).bind fun bits => ?_
    exact (KeepsChecks.portFault _).bind fun _ => .ok _
  | finput dst port =>
    refine quiet_commit ((keepsChecks_port m i port).bind fun p => ?_)
    exact (KeepsChecks.portFault _).bind fun bits => keepsChecks_writeF m i dst bits
  | draw x y image => exact quiet_draw m i x y image
  | time => exact quiet_none
  | sleep => exact quiet_none
  | rand => exact quiet_none

theorem quiet_perform (a : Action) : Quiet (m.perform i a).2 := by
  cases a with
  | move dst src =>
    exact quiet_commit ((keepsChecks_read m i src).bind fun v => keepsChecks_write m i dst v)
  | arith op dst src =>
    refine quiet_commit ((keepsChecks_read m i dst).bind fun a => ?_)
    refine (keepsChecks_read m i src).bind fun b => ?_
    refine (KeepsChecks.of_faultsAt (faultsAt_arith i op dst.width a b)).bind fun v => ?_
    exact keepsChecks_write m i dst v
  | compare rel dst src =>
    refine quiet_commit ((keepsChecks_read m i dst).bind fun a => ?_)
    exact (keepsChecks_read m i src).bind fun b => keepsChecks_write m i dst _
  | fcompare rel dst a b => exact quiet_commit (keepsChecks_write m i dst _)
  | fmove dst src =>
    exact quiet_commit ((keepsChecks_readF m i src).bind fun v => keepsChecks_writeF m i dst v)
  | farith op dst src =>
    refine quiet_commit ((keepsChecks_readF m i dst).bind fun a => ?_)
    exact (keepsChecks_readF m i src).bind fun b => keepsChecks_writeF m i dst _
  | push r | pushRange r => exact quiet_push m i r
  | pop r | popRange r => exact quiet_pop m i r
  | nop => exact quiet_none
  | service s => exact quiet_service m i s

theorem quiet_step : Quiet (m.step i).2 := by
  unfold step
  split
  next he => exact (KeepsChecks.of_faultsAt (faultsAt_ofInst i _)).quiet he
  · exact quiet_perform m i _

variable {m i}

/-- A transfer fails with a fault or not at all. -/
theorem Jumped.quiet {m' : Machine} {e : Option Stop} (h : Jumped m i m' e) : Quiet e := by
  cases h with
  | overflowed refused =>
    exact (Arena.keepsChecks_write (n := returnSize) rfl).faultOn.quiet
      (by rw [faultOn, refused]; rfl)
  | underflowed held refused =>
    exact (Arena.keepsChecks_read (n := returnSize) rfl).faultOn.quiet
      (by rw [faultOn, refused]; rfl)
  | next | absolute | relative | called | halted | returned => exact quiet_none

end Machine

/-! ## Compilations -/

/-- The reason for which a run stops is no broken check. -/
theorem quiet_reason {code : Array UInt8} {g : Int64} {fuel : Nat} {pc : Int64} :
    Quiet (Run.take code g fuel pc).reason := by
  induction fuel generalizing pc with
  | zero => exact quiet_none
  | succ fuel ih =>
    unfold Run.take
    split
    · split
      next failed => exact (keepsChecks_decode _ _).quiet failed
      · split
        · exact quiet_none
        · split
          next refused => exact (KeepsChecks.of_faultsAt (faultsAt_ofInst _ _)).quiet refused
          · exact ih
    · exact quiet_none

theorem keepsChecks_compile (x : ExecMemory) (code : Array UInt8) (t : Target)
    (increment start : Int64) : KeepsChecks (compile x code t increment start) := by
  rcases compile_cases x code t increment start with ⟨b, h, -⟩ | ⟨-, h⟩ | ⟨e, hmemory, h⟩
  · rw [h]
    exact .ok b
  · rw [h]
    refine .error ?_
    cases hreason : (Run.at code t.globalSize start).reason with
    | none => exact not_false
    | some e => exact quiet_reason e hreason
  · rw [h]
    obtain ⟨_, _, rfl | rfl | rfl⟩ := hmemory <;> exact .error not_false

end BlockVM
