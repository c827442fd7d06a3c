import BlockVM.Block.Compile
import BlockVM.Proofs.Result

/-!
# What a compilation gives

A compilation gives the run at its start, with the pieces of its layout in a row as machine code. It
fails because there is no run, with what is wrong with the first instruction, or for want of
executable memory. `compile_cases` says that there is no other way.
-/

namespace BlockVM

/-- The compilation ended for want of executable memory. -/
def IsCodeMemoryFailure (e : Stop) : Prop :=
  ∃ start f, e = outOfCodeMemory start "allocating code buffer" f ∨
    e = outOfCodeMemory start "growing code buffer" f ∨
    e = outOfCodeMemory start "finalizing code buffer" f

namespace CodeBuffer

/-- A buffer that can be appended to. -/
structure Writable (b : CodeBuffer) : Prop where
  open_ : b.final = false
  mapped : b.mapped = true

theorem writable_new {x : ExecMemory} {increment : Int64} {b : CodeBuffer}
    (h : CodeBuffer.new x increment = .ok b) :
    b.Writable ∧ b.error = none ∧ b.bytes = #[] := by
  unfold CodeBuffer.new at h
  dsimp only at h
  split at h
  · cases h
  · cases h
    exact ⟨⟨rfl, rfl⟩, rfl, rfl⟩

/-- Appending never aborts; where no failure is kept, the bytes are there. -/
theorem append_eq_ok {x : ExecMemory} {b : CodeBuffer} (h : b.Writable) (bs : List UInt8) :
    ∃ b', b.append x bs = .ok b' ∧ b'.Writable ∧
      (b'.error = none → b.error = none ∧ b'.bytes = b.bytes ++ bs.toArray) := by
  unfold append
  rw [if_neg (by rw [h.open_]; decide)]
  split
  next he =>
    -- A buffer that failed earlier drops the bytes and keeps its failure.
    refine ⟨b, rfl, h, fun hnone => ?_⟩
    rw [he] at hnone
    cases hnone
  next he =>
    dsimp only
    split
    · exact ⟨_, rfl, ⟨h.open_, h.mapped⟩, fun _ => ⟨he, rfl⟩⟩
    · split
      next b' hgrow =>
        unfold grow at hgrow
        dsimp only at hgrow
        split at hgrow
        · cases hgrow
        · rw [if_pos h.mapped] at hgrow
          cases hgrow
          exact ⟨_, rfl, ⟨h.open_, h.mapped⟩, fun _ => ⟨he, rfl⟩⟩
      · refine ⟨_, rfl, ⟨h.open_, h.mapped⟩, fun hnone => ?_⟩
        cases hnone

end CodeBuffer

open CodeBuffer in
/-- Appending pieces to a writable buffer never fails: where a mapping is refused, the failure is
kept in the buffer, and otherwise the bytes are the pieces in order. -/
theorem appendAll_eq_ok {x : ExecMemory} {b : CodeBuffer} (h : b.Writable)
    (ps : List (List UInt8)) :
    ∃ b', appendAll x b ps = .ok b' ∧ b'.Writable ∧
      (b'.error = none → b.error = none ∧ b'.bytes = b.bytes ++ ps.flatten.toArray) := by
  induction ps generalizing b with
  | nil => exact ⟨b, rfl, h, fun hnone => ⟨hnone, by simp⟩⟩
  | cons p ps ih =>
    obtain ⟨b₁, h₁, hw₁, hb₁⟩ := append_eq_ok (x := x) h p
    obtain ⟨b₂, h₂, hw₂, hb₂⟩ := ih hw₁
    refine ⟨b₂, ?_, hw₂, fun hnone => ?_⟩
    · unfold appendAll
      rw [h₁]
      exact h₂
    · obtain ⟨he, hbytes⟩ := hb₂ hnone
      obtain ⟨he', hbytes'⟩ := hb₁ he
      refine ⟨he', ?_⟩
      rw [hbytes, hbytes']
      simp

/-- The block is the run at its start, with the machine code of that run. -/
structure Block.IsRun (code : Array UInt8) (t : Target) (start : Int64) (b : Block) : Prop where
  start_eq : b.start = start
  stop_eq : b.stop = (Run.at code t.globalSize start).stop
  insts_eq : b.insts = (Run.at code t.globalSize start).steps.length
  code_eq : b.code = (Layout.pieces ((Run.at code t.globalSize start).items t)).flatten.toArray
  steps_ne : (Run.at code t.globalSize start).steps ≠ []

/-- The ways a compilation can go. -/
theorem compile_cases (x : ExecMemory) (code : Array UInt8) (t : Target) (increment start : Int64) :
    (∃ b, compile x code t increment start = .ok b ∧ b.IsRun code t start) ∨
    ((Run.at code t.globalSize start).steps = [] ∧
      compile x code t increment start = .error
        ((Run.at code t.globalSize start).reason.getD
          (.fault .codeBounds start "no instruction to compile"))) ∨
    ∃ e, IsCodeMemoryFailure e ∧ compile x code t increment start = .error e := by
  unfold compile
  split
  next f hnew => exact .inr (.inr ⟨_, ⟨start, f, .inl rfl⟩, rfl⟩)
  next b hnew =>
    obtain ⟨hw, hnone, hempty⟩ := CodeBuffer.writable_new hnew
    dsimp only
    cases hsteps : (Run.at code t.globalSize start).steps with
    | nil => exact .inr (.inl ⟨rfl, rfl⟩)
    | cons step steps =>
      obtain ⟨b', hb', hw', hbytes⟩ :=
        appendAll_eq_ok (x := x) hw (Layout.pieces ((Run.at code t.globalSize start).items t))
      simp only [List.isEmpty_cons, Bool.false_eq_true, ↓reduceIte, hb', bind, Except.bind]
      -- All appends went through, but one of them may have been refused a mapping.
      cases herr : b'.error with
      | some f => exact .inr (.inr ⟨_, ⟨start, f, .inr (.inl rfl)⟩, rfl⟩)
      | none =>
        obtain ⟨-, hcode⟩ := hbytes herr
        unfold CodeBuffer.finalize
        simp only [herr, hw'.open_, Bool.false_eq_true, ↓reduceIte, hw'.mapped]
        refine .inl ⟨_, rfl, rfl, rfl, ?_, ?_, ?_⟩
        · rw [hsteps]
        · show b'.bytes = _
          rw [hcode, hempty, Array.empty_append]
        · rw [hsteps]
          exact List.cons_ne_nil _ _

/-- A compiled block is the run from its start on, laid out at once. -/
theorem isRun_of_compile {x : ExecMemory} {code : Array UInt8} {t : Target}
    {increment start : Int64} {b : Block} (h : compile x code t increment start = .ok b) :
    b.IsRun code t start := by
  rcases compile_cases x code t increment start with ⟨b', h', run⟩ | ⟨-, h'⟩ | ⟨e, -, h'⟩
  · rw [h] at h'
    cases h'
    exact run
  · rw [h] at h'
    cases h'
  · rw [h] at h'
    cases h'

/-- Where there is a run, a compilation gives it, or memory is short. -/
theorem Block.IsRun.compile {code : Array UInt8} {t : Target} {start : Int64} {b : Block}
    (run : b.IsRun code t start) (x : ExecMemory) (increment : Int64) :
    compile x code t increment start = .ok b ∨
      ∃ e, IsCodeMemoryFailure e ∧ compile x code t increment start = .error e := by
  rcases compile_cases x code t increment start with ⟨b', h, run'⟩ | ⟨empty, -⟩ | short
  · refine .inl (h.trans (congrArg Except.ok ?_))
    rw [Block.mk.injEq]
    exact ⟨run'.start_eq.trans run.start_eq.symm, run'.stop_eq.trans run.stop_eq.symm,
      run'.insts_eq.trans run.insts_eq.symm, run'.code_eq.trans run.code_eq.symm⟩
  · exact absurd empty run.steps_ne
  · exact .inr short

/-- A run goes on with an instruction that is not a control transfer. -/
theorem take_of_decode {code : Array UInt8} {size pc : Int64} {fuel : Nat} {i : Isa.Inst}
    {a : Action} (inside : pc < Int64.ofNat code.size) (read : Isa.decode code pc = .ok i)
    (plain : i.info.isControl = false) (action : Action.ofInst i size = .ok a) :
    Run.take code size (fuel + 1) pc = { Run.take code size fuel i.next with
      steps := (i, a) :: (Run.take code size fuel i.next).steps } := by
  rw [Run.take, if_pos inside, read]
  simp only [plain, action, Bool.false_eq_true, if_false]

end BlockVM
