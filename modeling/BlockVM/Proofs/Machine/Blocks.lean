import BlockVM.Proofs.Machine.Guise
import BlockVM.Proofs.Machine.Progress
import BlockVM.Proofs.Machine.Reserved

/-!
# Blocks as instructions

`stepBlock` gives a block its plain meaning: the instructions of the block, one after the other, up
to the first that fails. `interpret_run` says that an interpreting core at the start of the same
instructions does just that, one dispatch for each of them, and ends up where the block ends.
-/

namespace BlockVM

open Isa (Inst)

/-- The guise of a core that has moved on without control transfers. -/
structure Guise.Onward (g g' : Guise) : Prop where
  eq : g' = { g with pc := g'.pc, stats := g'.stats }
  controls : g'.stats.controls = g.stats.controls

theorem Guise.Onward.trans {g₁ g₂ g₃ : Guise} (h : g₁.Onward g₂) (h' : g₂.Onward g₃) :
    g₁.Onward g₃ := by
  refine ⟨?_, h'.controls.trans h.controls⟩
  rw [h'.eq, h.eq]

namespace Machine

/-! ## The plain meaning of a block -/

/-- Performs instructions in order up to the first that fails. -/
def stepAll : List Inst → Machine → Machine × Option Stop
  | [], m => (m, none)
  | i :: rest, m =>
    match m.step i with
    | (m, some e) => (m, some e)
    | (m, none) => stepAll rest m

/-- The run of instructions at an address of the core's program. -/
def runAt (m : Machine) (pc : Int64) : Run :=
  Run.at m.proc.program.code (Int64.ofNat m.proc.global.size) pc

/-- Executes a block by performing its instructions. -/
def stepBlock : Executor := fun b m => stepAll ((m.runAt b.start).steps.map (·.1)) m

/-- What a core wears makes no difference to the instructions that it steps through. -/
theorem stepAll_wearing (m : Machine) (g : Guise) (is : List Inst) :
    stepAll is (m.wearing g) = dress g (stepAll is m) := by
  induction is generalizing m with
  | nil => rfl
  | cons i is ih =>
    unfold stepAll
    rw [step_wearing]
    generalize m.step i = r
    obtain ⟨m', e⟩ := r
    cases e with
    | some e => rfl
    | none => exact ih m'

/-- The instructions of a run were decoded. -/
theorem decoded_of_mem_take {code : Array UInt8} {size : Int64} {fuel : Nat} {pc : Int64}
    {s : Inst × Action} (h : s ∈ (Run.take code size fuel pc).steps) :
    ∃ pc, Isa.Decoded code pc s.1 := by
  induction fuel generalizing pc with
  | zero => cases h
  | succ fuel ih =>
    unfold Run.take at h
    split at h
    · split at h
      · cases h
      next i read =>
        split at h
        · cases h
        · split at h
          · cases h
          · rcases List.mem_cons.mp h with rfl | h
            · exact ⟨pc, Isa.decode_eq_ok read⟩
            · exact ih h
    · cases h

/-- The actions of a run are those that its instructions ask for. -/
theorem prepared_of_mem_take {code : Array UInt8} {size : Int64} {fuel : Nat} {pc : Int64}
    {s : Inst × Action} (h : s ∈ (Run.take code size fuel pc).steps) :
    Action.ofInst s.1 size = .ok s.2 := by
  induction fuel generalizing pc with
  | zero => cases h
  | succ fuel ih =>
    unfold Run.take at h
    split at h
    · split at h
      · cases h
      · split at h
        · cases h
        · split at h
          · cases h
          next prepared =>
            rcases List.mem_cons.mp h with rfl | h
            · exact prepared
            · exact ih h
    · cases h

/-- Stepping through instructions keeps what one step keeps. -/
theorem kept_stepAll {is : List Inst} (h : ∀ i ∈ is, ∃ code pc, Isa.Decoded code pc i)
    (m : Machine) : Kept m (stepAll is m).1 := by
  induction is generalizing m with
  | nil => exact .refl m
  | cons i is ih =>
    obtain ⟨code, pc, hi⟩ := h i (List.mem_cons_self ..)
    have kept := (effect_step hi m).kept
    unfold stepAll
    split
    next heq =>
      rw [heq] at kept
      exact kept
    next heq =>
      rw [heq] at kept
      exact kept.trans (ih (fun j hj => h j (List.mem_cons_of_mem _ hj)) _)

/-- Performing the run at an address stays in the same program. -/
theorem kept_runAt (m : Machine) (pc : Int64) :
    Kept m (stepAll ((m.runAt pc).steps.map (·.1)) m).1 := by
  apply kept_stepAll
  intro i hi
  obtain ⟨s, hs, rfl⟩ := List.mem_map.mp hi
  obtain ⟨pc', hd⟩ := decoded_of_mem_take hs
  exact ⟨_, pc', hd⟩

/-! ## An interpreting core -/

/-- A dispatch of an instruction that is not control flow. -/
theorem dispatch_interpret {m : Machine} {i : Inst} (exec : Executor)
    (hmode : m.proc.mode = .interpret)
    (read : Isa.decode m.proc.program.code m.core.pc = .ok i) (hc : i.info.isControl = false) :
    m.dispatchWith exec =
      match m.step i with
      | (m', some e) => (m'.wearing m.countInterpreted.guise, some e)
      | (m', none) => (m'.wearing { m.countInterpreted.guise with pc := i.next }, none) := by
  have hcount : m.countInterpreted = m.wearing m.countInterpreted.guise := rfl
  unfold dispatchWith dispatchFresh
  rw [hmode, read]
  simp only [hc, Bool.false_eq_true, ↓reduceIte]
  unfold interpret
  show (match m.countInterpreted.step i with | (m, some e) => _ | (m, none) => _) = _
  rw [hcount, step_wearing]
  generalize m.step i = r
  obtain ⟨m', e⟩ := r
  cases e <;> rfl

/-- What an interpreting core does where a run of instructions begins. -/
structure Interprets (exec : Executor) (r : Run) (m : Machine) : Prop where
  done : ∀ m', stepAll (r.steps.map (·.1)) m = (m', none) →
    ∃ g, m.guise.Onward g ∧ g.pc = r.stop ∧ Advances exec r.steps.length m (m'.wearing g)
  failed : ∀ m' e, stepAll (r.steps.map (·.1)) m = (m', some e) →
    ∃ g n, m.guise.Onward g ∧ Ends exec n m (m'.wearing g) (.stopped e)

theorem interprets_nothing (exec : Executor) (m : Machine) (reason : Option Stop) :
    Interprets exec ⟨[], m.core.pc, reason⟩ m := by
  constructor
  · intro m' h
    cases h
    exact ⟨m.guise, ⟨rfl, rfl⟩, rfl, .refl m⟩
  · intro m' e h
    cases h

/-- One instruction in front of a run. -/
theorem Interprets.cons {exec : Executor} {m : Machine} {i : Inst} {a : Action} {r : Run}
    (hmode : m.proc.mode = .interpret)
    (read : Isa.decode m.proc.program.code m.core.pc = .ok i) (hc : i.info.isControl = false)
    (rest : ∀ m₁, m.step i = (m₁, none) →
      Interprets exec r (m₁.wearing { m.countInterpreted.guise with pc := i.next })) :
    Interprets exec { r with steps := (i, a) :: r.steps } m := by
  have running := (Isa.decode_eq_ok read).nonneg
  have hdispatch := dispatch_interpret exec hmode read hc
  -- The evaluator counts the instruction and moves the address; both are part of the guise.
  have honward : m.guise.Onward m.countInterpreted.guise := ⟨rfl, rfl⟩
  have honward' : m.guise.Onward { m.countInterpreted.guise with pc := i.next } := ⟨rfl, rfl⟩
  cases hs : m.step i with
  | mk m₁ e =>
    rw [hs] at hdispatch
    cases e with
    | some e =>
      constructor
      · intro m' h
        simp only [List.map_cons, stepAll, hs] at h
        cases h
      · intro m' e' h
        simp only [List.map_cons, stepAll, hs] at h
        cases h
        exact ⟨_, 0, honward, .stopped running hdispatch⟩
    | none =>
      have hrest := rest m₁ hs
      constructor
      · intro m' h
        simp only [List.map_cons, stepAll, hs] at h
        obtain ⟨g, hg, hpc, hadv⟩ := hrest.done _ (by rw [stepAll_wearing, h]; rfl)
        exact ⟨g, honward'.trans hg, hpc, .step running hdispatch hadv⟩
      · intro m' e h
        simp only [List.map_cons, stepAll, hs] at h
        obtain ⟨g, n, hg, hends⟩ := hrest.failed _ e (by rw [stepAll_wearing, h]; rfl)
        exact ⟨g, n + 1, honward'.trans hg, .step running hdispatch hends⟩

/-- An interpreting core performs the instructions of the run at its address one by one. -/
theorem interpret_run (exec : Executor) (fuel : Nat) {m : Machine}
    (hmode : m.proc.mode = .interpret) :
    Interprets exec
      (Run.take m.proc.program.code (Int64.ofNat m.proc.global.size) fuel m.core.pc) m := by
  induction fuel generalizing m with
  | zero => exact interprets_nothing exec m none
  | succ fuel ih =>
    unfold Run.take
    split
    · split
      · exact interprets_nothing exec m _
      next i read =>
        split
        · exact interprets_nothing exec m _
        next hc =>
          split
          · exact interprets_nothing exec m _
          next a ha =>
            -- The step keeps the program and the global data, so the
            -- rest of the run is the same run.
            refine Interprets.cons hmode read (Bool.eq_false_iff.mpr hc) ?_
            intro m₁ hstep
            have kept := (effect_step (Isa.decode_eq_ok read) m).kept
            rw [hstep] at kept
            have hrest := ih (m := m₁.wearing { m.countInterpreted.guise with pc := i.next }) hmode
            rw [show (m₁.wearing _).proc.program = m.proc.program from kept.proc.program,
              show (m₁.wearing _).proc.global = m.proc.global from kept.proc.global] at hrest
            exact hrest
    · exact interprets_nothing exec m _

end Machine

end BlockVM
