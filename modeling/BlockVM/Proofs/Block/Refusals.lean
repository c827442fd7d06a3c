import BlockVM.Proofs.Block.Extent
import BlockVM.Proofs.Machine.Faults

/-!
# Why no block starts at an address

A block needs a first instruction: one inside the code that is decoded, transfers no control and is
accepted. `refusal?` says what is wrong where there is none. A run is empty exactly there, and its
reason is that refusal (`steps_take_eq_nil_iff`, `getD_reason_take`). A refusal is a fault at the
address and has nothing to do with memory (`fault_of_refusal`, `kind_of_refusal`).
-/

namespace BlockVM

open Isa (Inst)

def nothingToCompile (start : Int64) : Stop := .fault .codeBounds start "no instruction to compile"

/-- What keeps a block from starting at an address: the instruction there is not decoded, transfers
control or is not accepted, or there is none. -/
def refusal? (code : Array UInt8) (g start : Int64) : Option Stop :=
  if start < Int64.ofNat code.size then
    match Isa.decode code start with
    | .error e => some e
    | .ok i =>
      if i.info.isControl then some (nothingToCompile start)
      else match prepare i g with
        | .error e => some e
        | .ok _ => none
  else some (nothingToCompile start)

/-! ## Empty runs -/

section

variable {code : Array UInt8} {g pc : Int64} {fuel : Nat}

/-- An instruction that is refused on its operands has no action. -/
theorem ofInst_of_prepare_error {i : Inst} {e : Stop} (h : prepare i g = .error e) :
    Action.ofInst i g = .error e := by
  unfold Action.ofInst
  rw [h]
  rfl

/-- A run that may have an instruction is empty exactly where no block starts. -/
theorem steps_take_eq_nil_iff :
    (Run.take code g (fuel + 1) pc).steps = [] ↔ (refusal? code g pc).isSome = true := by
  unfold Run.take refusal?
  split
  · cases read : Isa.decode code pc with
    | error e => simp
    | ok i =>
      dsimp only
      split
      · simp
      next hcontrol =>
        cases hprepare : prepare i g with
        | error e => simp [ofInst_of_prepare_error hprepare]
        | ok ops =>
          obtain ⟨a, ha⟩ := Action.ofInst_of_prepare (Isa.decode_eq_ok read)
            (Bool.eq_false_iff.mpr hcontrol) hprepare
          simp [ha]
  · simp

/-- A refused start stops the run at once, for the reason of the refusal. -/
theorem getD_reason_take {e : Stop} (h : refusal? code g pc = some e) :
    (Run.take code g (fuel + 1) pc).reason.getD (nothingToCompile pc) = e := by
  unfold refusal? at h
  unfold Run.take
  split at h
  next hin =>
    rw [if_pos hin]
    cases read : Isa.decode code pc with
    | error e' =>
      rw [read] at h
      exact Option.some.inj h
    | ok i =>
      rw [read] at h
      dsimp only at h ⊢
      split at h
      next hcontrol =>
        rw [if_pos hcontrol]
        exact Option.some.inj h
      next hcontrol =>
        rw [if_neg hcontrol]
        -- An instruction that can be prepared is accepted, and then there is no refusal.
        cases hprepare : prepare i g with
        | error e' =>
          rw [hprepare] at h
          rw [ofInst_of_prepare_error hprepare]
          exact Option.some.inj h
        | ok ops =>
          rw [hprepare] at h
          cases h
  next hin =>
    rw [if_neg hin]
    exact Option.some.inj h

end

/-! ## Kinds -/

def Stop.kind? : Stop → Option FaultKind
  | .failure f => f.kind?
  | .abort _ => none

/-- The computation does not fail for want of memory. -/
def NeverShort {α : Type} (r : Except Stop α) : Prop := ∀ e, r = .error e → e.kind? ≠ some .resource

namespace NeverShort

variable {α β : Type}

theorem ok (a : α) : NeverShort (.ok a) := nofun

theorem fault {kind : FaultKind} (h : kind ≠ .resource) (pc : Int64) (message : String) :
    NeverShort (.error (.fault kind pc message) : Except Stop α) := by
  intro e' h'
  cases h'
  intro hkind
  exact h (Option.some.inj hkind)

theorem abort (reason : Option String) : NeverShort (.error (.abort reason) : Except Stop α) := by
  intro e' h'
  cases h'
  nofun

/-- A sequence of steps, none of which lacks memory, does not lack memory. -/
theorem bind {x : Except Stop α} {f : α → Except Stop β} (hx : NeverShort x)
    (hf : ∀ a, NeverShort (f a)) : NeverShort (x >>= f) := by
  intro e h
  rcases bind_eq_error.mp h with h | ⟨a, -, h⟩
  · exact hx e h
  · exact hf a e h

end NeverShort

theorem neverShort_decode (code : Array UInt8) (pc : Int64) : NeverShort (Isa.decode code pc) := by
  have hpeek : NeverShort (Isa.peek code pc) := by
    unfold Isa.peek
    split
    · exact .fault (by decide) _ _
    · split
      · unfold Isa.entry
        cases Isa.lookup _ with
        | none => exact .fault (by decide) _ _
        | some info => exact .ok info
      · exact .abort none
  refine hpeek.bind fun info => ?_
  dsimp only
  split
  · exact .fault (by decide) _ _
  · split
    · exact .abort none
    · exact .ok _

theorem neverShort_prepare (i : Inst) (g : Int64) : NeverShort (prepare i g) := by
  have hvalidate : NeverShort (validate i) := by
    unfold validate
    dsimp only
    split
    · split
      · exact .fault (by decide) _ _
      · split
        · exact .fault (by decide) _ _
        · exact .ok ()
    · split
      · exact .fault (by decide) _ _
      · exact .ok ()
  -- Each refusal names its kind, and none of the kinds is a lack of memory.
  have hone (slot : Nat) (a : Isa.Operand) : NeverShort (operandOf i slot a g) := by
    unfold operandOf
    cases a.kind
    case mem | byteMem | quadMem | fmem =>
      dsimp only
      split
      · exact .fault (by decide) _ _
      · exact .ok _
    case addr | disp => exact .fault (by decide) _ _
    all_goals exact .ok _
  have hall (args : List Isa.Operand) : ∀ slot, NeverShort (operandsFrom i g slot args) := by
    induction args with
    | nil => exact fun _ => .ok []
    | cons a args ih => exact fun slot => (hone slot a).bind fun _ =>
      (ih (slot + 1)).bind fun _ => .ok _
  exact hvalidate.bind fun _ => hall i.args 0

/-! ## Refusals -/

section

variable {code : Array UInt8} {g start : Int64} {e : Stop}

/-- A refusal is never one for lack of memory: this tells a refused program from a refused
mapping. -/
theorem kind_of_refusal (h : refusal? code g start = some e) : e.kind? ≠ some .resource := by
  have hnothing : (nothingToCompile start).kind? ≠ some .resource := by
    intro hkind
    cases hkind
  unfold refusal? at h
  split at h
  · split at h
    next e' read =>
      cases h
      exact neverShort_decode code start _ read
    next i read =>
      split at h
      · cases h
        exact hnothing
      · split at h
        next e' hprepare =>
          cases h
          exact neverShort_prepare i g _ hprepare
        · cases h
  · cases h
    exact hnothing

/-- An instruction inside the code is decoded or not, but decoding does not abort. -/
theorem faultsAt_inside (hcode : code.size + 16 ≤ 2 ^ 63) (hin : start < Int64.ofNat code.size) :
    FaultsAt start (Isa.decode code start) := by
  have hsize : (Int64.ofNat code.size).toInt = code.size := Int64.toInt_ofNat_of_lt (by omega)
  rw [Int64.lt_iff_toInt_lt, hsize] at hin
  exact faultsAt_decode (by omega) (by omega)

/-- Whatever is wrong with an instruction is reported at its own address. -/
theorem faultsAt_prepare (i : Inst) (g : Int64) : FaultsAt i.pc (prepare i g) :=
  (faultsAt_validate i).bind fun _ _ => faultsAt_operandsFrom i g 0 i.args

/-- What keeps a block from starting is a fault at its start. -/
theorem fault_of_refusal (hcode : code.size + 16 ≤ 2 ^ 63) (h : refusal? code g start = some e) :
    e.IsFaultAt start := by
  unfold refusal? at h
  split at h
  next hin =>
    split at h
    next e' read =>
      cases h
      exact faultsAt_inside hcode hin _ read
    next i read =>
      split at h
      · cases h
        rfl
      · split at h
        next e' hprepare =>
          cases h
          -- The fault names the address of the instruction, which is the start.
          have hfault := faultsAt_prepare i g _ hprepare
          rw [(Isa.decode_eq_ok read).pc_eq] at hfault
          exact hfault
        · cases h
  · cases h
    rfl

end

end BlockVM
