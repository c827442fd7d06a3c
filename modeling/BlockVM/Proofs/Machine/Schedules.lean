import BlockVM.Proofs.Machine.Determined
import Mathlib.Data.Fintype.Basic
import Mathlib.Logic.Function.Basic

/-!
# Schedules

The cores of a process take turns in some order, one dispatch at a time. `schedules_agree` says that
the order does not matter for cores that do not touch what another one writes: two schedules that
give each core the same number of turns lead to the same cores and to the same memory.

The proof compares a schedule with the runs in which a core has all its turns alone. As long as
nobody writes what the core reads, it does the same in both (`Follows`). So the runs alone tell what
each core reads and writes in any schedule, and it is enough that the cores are independent in one
of them.
-/

namespace BlockVM

/-- The cores of a process at work, each with the failure that stopped it. -/
structure Crew (n : Nat) where
  proc : Proc
  cores : Fin n → Core
  stops : Fin n → Option Stop

namespace Crew

variable {n : Nat}

def machine (s : Crew n) (i : Fin n) : Machine := ⟨s.cores i, s.proc⟩

def memory (s : Crew n) : Memory := s.proc.host.memory

def isRunning (s : Crew n) (i : Fin n) : Bool := (s.stops i).isNone && !decide ((s.cores i).pc < 0)

def turn (s : Crew n) (i : Fin n) : Crew n :=
  if s.isRunning i then
    let r := (s.machine i).dispatch
    { proc := r.1.proc
      cores := Function.update s.cores i r.1.core
      stops := Function.update s.stops i r.2 }
  else s

def run (s : Crew n) (σ : List (Fin n)) : Crew n := σ.foldl turn s

/-- The addresses that a core touches in its next turn, as `f` tells for a dispatch. -/
def touches (f : Machine → List UInt64) (s : Crew n) (i : Fin n) : List UInt64 :=
  if s.isRunning i then f (s.machine i) else []

/-- The addresses that a core touches in the course of a schedule. -/
def touchedBy (f : Machine → List UInt64) (i : Fin n) : List (Fin n) → Crew n → List UInt64
  | [], _ => []
  | j :: σ, s => (if j = i then s.touches f i else []) ++ touchedBy f i σ (s.turn j)

/-- The bytes that a core reads in the course of a schedule. -/
def read (s : Crew n) (σ : List (Fin n)) (i : Fin n) : List UInt64 := touchedBy Machine.reads i σ s

/-- The bytes that a core writes in the course of a schedule. -/
def written (s : Crew n) (σ : List (Fin n)) (i : Fin n) : List UInt64 :=
  touchedBy Machine.writes i σ s

/-- No core touches what another one writes. -/
def Independent (s : Crew n) (σ : List (Fin n)) : Prop :=
  ∀ i j, i ≠ j → ∀ x ∈ s.written σ i, x ∉ s.read σ j ∧ x ∉ s.written σ j

instance (s : Crew n) (σ : List (Fin n)) : Decidable (s.Independent σ) :=
  -- Only the bytes that are written need a look; an instance that tries all addresses is of no use.
  letI (i j : Fin n) : Decidable (∀ x ∈ s.written σ i, x ∉ s.read σ j ∧ x ∉ s.written σ j) :=
    List.decidableBAll (fun x => x ∉ s.read σ j ∧ x ∉ s.written σ j) (s.written σ i)
  inferInstanceAs (Decidable (∀ i j, i ≠ j → ∀ x ∈ s.written σ i,
    x ∉ s.read σ j ∧ x ∉ s.written σ j))

/-- Whether no turn of a schedule asks the host. -/
def isQuiet : List (Fin n) → Crew n → Bool
  | [], _ => true
  | i :: σ, s => (!s.isRunning i || (s.machine i).isQuiet) && isQuiet σ (s.turn i)

/-! ## Schedules that go on -/

variable {s : Crew n} {σ τ : List (Fin n)} {i j : Fin n} {f : Machine → List UInt64}

theorem run_append (s : Crew n) (σ τ : List (Fin n)) : s.run (σ ++ τ) = (s.run σ).run τ :=
  List.foldl_append

theorem run_snoc (s : Crew n) (σ : List (Fin n)) (i : Fin n) :
    s.run (σ ++ [i]) = (s.run σ).turn i :=
  run_append s σ [i]

/-- What a core touches in two schedules, one after the other. -/
theorem touchedBy_append (f : Machine → List UInt64) (i : Fin n) (σ τ : List (Fin n)) (s : Crew n) :
    touchedBy f i (σ ++ τ) s = touchedBy f i σ s ++ touchedBy f i τ (s.run σ) := by
  induction σ generalizing s with
  | nil => rfl
  | cons j σ ih =>
    rw [List.cons_append, touchedBy, ih, touchedBy, List.append_assoc]
    rfl

theorem touchedBy_self (f : Machine → List UInt64) (i : Fin n) (σ : List (Fin n)) (s : Crew n) :
    touchedBy f i (σ ++ [i]) s = touchedBy f i σ s ++ (s.run σ).touches f i := by
  rw [touchedBy_append, touchedBy, touchedBy, if_pos rfl, List.append_nil]

theorem touchedBy_other (f : Machine → List UInt64) (hne : j ≠ i) (σ : List (Fin n)) (s : Crew n) :
    touchedBy f i (σ ++ [j]) s = touchedBy f i σ s := by
  rw [touchedBy_append, touchedBy, touchedBy, if_neg hne, List.append_nil, List.append_nil]

/-- A schedule is quiet if its parts are, each from where it starts. -/
theorem isQuiet_append (σ τ : List (Fin n)) (s : Crew n) :
    isQuiet (σ ++ τ) s = (isQuiet σ s && isQuiet τ (s.run σ)) := by
  induction σ generalizing s with
  | nil => rfl
  | cons j σ ih =>
    rw [List.cons_append, isQuiet, ih, isQuiet, Bool.and_assoc]
    rfl

theorem isQuiet_snoc (σ : List (Fin n)) (i : Fin n) (s : Crew n) :
    isQuiet (σ ++ [i]) s = true ↔ isQuiet σ s = true ∧
      ((s.run σ).isRunning i = true → ((s.run σ).machine i).isQuiet = true) := by
  rw [isQuiet_append, isQuiet, isQuiet]
  cases (s.run σ).isRunning i <;> simp

/-- Cores that are independent in a schedule are so in its beginning. -/
theorem Independent.of_append (h : s.Independent (σ ++ τ)) : s.Independent σ := by
  intro i j hne x hx
  have written : ∀ i, s.written σ i ⊆ s.written (σ ++ τ) i := fun i => by
    rw [Crew.written, Crew.written, touchedBy_append]
    exact List.subset_append_left _ _
  have read : s.read σ j ⊆ s.read (σ ++ τ) j := by
    rw [Crew.read, Crew.read, touchedBy_append]
    exact List.subset_append_left _ _
  have apart := h i j hne x (written i hx)
  exact ⟨fun hr => apart.1 (read hr), fun hw => apart.2 (written j hw)⟩

/-! ## One turn -/

def around (s : Crew n) : Around := ⟨s.proc.program, s.proc.mode, s.proc.space, s.proc.global⟩

/-- A turn of a core does a deed. -/
structure Takes (s : Crew n) (i : Fin n) (c : Deed) (s' : Crew n) : Prop where
  cores : s'.cores = Function.update s.cores i c.core
  stops : s'.stops = Function.update s.stops i c.stop
  memory : s'.memory = s.memory.storeAll c.stores
  around : s'.around = s.around

def idle (s : Crew n) (i : Fin n) : Deed := { core := s.cores i, stop := s.stops i }

theorem takes_idle (s : Crew n) (i : Fin n) : s.Takes i (s.idle i) s :=
  ⟨(Function.update_eq_self i s.cores).symm, (Function.update_eq_self i s.stops).symm, rfl, rfl⟩

/-- A core that is running takes its turn by a dispatch. -/
theorem takes_dispatch {c : Deed} (running : s.isRunning i = true)
    (does : (s.machine i).Does (s.machine i).dispatch c) : s.Takes i c (s.turn i) := by
  unfold turn
  rw [if_pos running]
  exact ⟨by rw [← does.core], by rw [← does.stop], does.memory, does.around⟩

/-- A core is the same in two states, and it is about to read the same bytes. -/
structure InStep (s s' : Crew n) (i : Fin n) : Prop where
  core : s.cores i = s'.cores i
  stop : s.stops i = s'.stops i
  around : s.around = s'.around
  agree : s'.isRunning i = true → (s'.machine i).AgreesOn (s'.machine i).reads (s.machine i)

theorem InStep.alike {s s' : Crew n} (h : s.InStep s' i) : (s'.machine i).Alike (s.machine i) :=
  ⟨h.core, h.around⟩

theorem InStep.isRunning {s s' : Crew n} (h : s.InStep s' i) : s.isRunning i = s'.isRunning i := by
  unfold Crew.isRunning
  rw [h.core, h.stop]

/-- Crews that are in step at a core read the same there. -/
theorem InStep.reads {s s' : Crew n} (h : s.InStep s' i) :
    s.touches Machine.reads i = s'.touches Machine.reads i := by
  unfold touches
  rw [h.isRunning]
  split
  next running => exact Machine.reads_congr h.alike (h.agree running)
  · rfl

theorem InStep.writes {s s' : Crew n} (h : s.InStep s' i) (mode : s'.around.mode = .interpret)
    (quiet : s'.isRunning i = true → (s'.machine i).isQuiet = true) :
    s.touches Machine.writes i = s'.touches Machine.writes i := by
  unfold touches
  rw [h.isRunning]
  split
  next running => exact Machine.writes_congr mode (quiet running) h.alike (h.agree running)
  · rfl

theorem InStep.exists_deed {s s' : Crew n} (h : s.InStep s' i) (mode : s'.around.mode = .interpret)
    (quiet : s'.isRunning i = true → (s'.machine i).isQuiet = true) :
    ∃ c : Deed, addresses c.stores = s'.touches Machine.writes i ∧
      s.Takes i c (s.turn i) ∧ s'.Takes i c (s'.turn i) := by
  by_cases running : s'.isRunning i = true
  · obtain ⟨c, written, does⟩ := Machine.dispatch_does mode (quiet running)
    refine ⟨c, ?_, ?_, ?_⟩
    · rw [touches, if_pos running, written]
    · exact takes_dispatch (h.isRunning.trans running) (does _ h.alike (h.agree running))
    · exact takes_dispatch running (does _ (.refl _) (.refl _ _))
  · have still : s.turn i = s := if_neg (by rwa [h.isRunning])
    have still' : s'.turn i = s' := if_neg running
    refine ⟨s'.idle i, ?_, ?_, ?_⟩
    · rw [touches, if_neg running]
      rfl
    · have same : s.idle i = s'.idle i := by
        unfold idle
        rw [h.core, h.stop]
      rw [still, ← same]
      exact takes_idle s i
    · rw [still']
      exact takes_idle s' i

/-! ## Cores alone -/

/-- A core has some turns and the others have none. -/
abbrev alone (i : Fin n) (k : Nat) : List (Fin n) := List.replicate k i

theorem alone_succ (i : Fin n) (k : Nat) : alone i (k + 1) = alone i k ++ [i] :=
  List.replicate_succ'

theorem alone_count_self (σ : List (Fin n)) (i : Fin n) :
    alone i ((σ ++ [i]).count i) = alone i (σ.count i) ++ [i] := by
  rw [List.count_append, List.count_singleton_self, alone_succ]

/-- A turn of another core does not lengthen the run that a core has alone. -/
theorem alone_count_other (σ : List (Fin n)) (hne : j ≠ i) :
    alone j ((σ ++ [i]).count j) = alone j (σ.count j) := by
  rw [List.count_append, List.count_singleton, if_neg (by simpa using hne.symm)]
  rfl

/-- The state after the turns that a core has in a schedule, without those of the others. -/
def view (s : Crew n) (σ : List (Fin n)) (i : Fin n) : Crew n := s.run (alone i (σ.count i))

theorem view_self (s : Crew n) (σ : List (Fin n)) (i : Fin n) :
    s.view (σ ++ [i]) i = (s.view σ i).turn i := by
  rw [view, alone_count_self, run_snoc]
  rfl

/-- The view of a core is not changed by the turns of others. -/
theorem view_other (s : Crew n) (σ : List (Fin n)) (hne : j ≠ i) :
    s.view (σ ++ [i]) j = s.view σ j := by
  rw [view, alone_count_other σ hne]
  rfl

/-- In the course of a schedule a core is where it would be alone, and it has touched the same
bytes. The memory is as if it were alone, except where others have written. -/
structure Follows (s : Crew n) (σ : List (Fin n)) (i : Fin n) : Prop where
  core : (s.run σ).cores i = (s.view σ i).cores i
  stop : (s.run σ).stops i = (s.view σ i).stops i
  around : (s.run σ).around = s.around
  aroundAlone : (s.view σ i).around = s.around
  memory : ∀ x, (∀ j, j ≠ i → x ∉ s.written σ j) →
    (s.run σ).memory.load x = (s.view σ i).memory.load x
  read : s.read σ i = s.read (alone i (σ.count i)) i
  written : s.written σ i = s.written (alone i (σ.count i)) i
  quiet : isQuiet (alone i (σ.count i)) s = true

theorem follows_nil (s : Crew n) (i : Fin n) : s.Follows [] i :=
  ⟨rfl, rfl, rfl, rfl, fun _ _ => rfl, rfl, rfl, rfl⟩

/-- What the next turn of a core would do alone, it does in the schedule as well: nobody has written
what it reads, and it does not ask the host. -/
structure Free (s : Crew n) (σ : List (Fin n)) (i : Fin n) : Prop where
  mode : s.proc.mode = .interpret
  unwritten : (s.view σ i).isRunning i = true →
    ∀ x ∈ ((s.view σ i).machine i).reads, ∀ j, j ≠ i → x ∉ s.written σ j
  quiet : (s.view σ i).isRunning i = true → ((s.view σ i).machine i).isQuiet = true

/-- A core that follows its own run, and whose next turn is free, is in step with it. -/
theorem Follows.inStep (h : s.Follows σ i) (free : s.Free σ i) :
    (s.run σ).InStep (s.view σ i) i where
  core := h.core
  stop := h.stop
  around := h.around.trans h.aroundAlone.symm
  agree running x hx := h.memory x (free.unwritten running x hx)

theorem Follows.exists_deed (h : s.Follows σ i) (free : s.Free σ i) :
    ∃ c : Deed, addresses c.stores = (s.run σ).touches Machine.writes i ∧
      (s.run σ).touches Machine.writes i = (s.view σ i).touches Machine.writes i ∧
      (s.run σ).Takes i c (s.run (σ ++ [i])) ∧ (s.view σ i).Takes i c (s.view (σ ++ [i]) i) := by
  have mode : (s.view σ i).around.mode = .interpret := by
    rw [h.aroundAlone]
    exact free.mode
  obtain ⟨c, stored, takes, takesAlone⟩ := (h.inStep free).exists_deed mode free.quiet
  have same := (h.inStep free).writes mode free.quiet
  refine ⟨c, stored.trans same.symm, same, ?_, ?_⟩
  · rw [run_snoc]
    exact takes
  · rw [view_self]
    exact takesAlone

theorem written_snoc_subset (s : Crew n) (σ : List (Fin n)) (i j : Fin n) :
    s.written σ j ⊆ s.written (σ ++ [i]) j := by
  rw [Crew.written, Crew.written, touchedBy_append]
  exact List.subset_append_left _ _

/-- The core that has the turn goes on as it would alone. -/
theorem Follows.turn_self (h : s.Follows σ i) (free : s.Free σ i) : s.Follows (σ ++ [i]) i := by
  obtain ⟨c, -, writes, takes, takesAlone⟩ := h.exists_deed free
  constructor
  · rw [takes.cores, takesAlone.cores, Function.update_self, Function.update_self]
  · rw [takes.stops, takesAlone.stops, Function.update_self, Function.update_self]
  · rw [takes.around, h.around]
  · rw [takesAlone.around, h.aroundAlone]
  · intro x apart
    rw [takes.memory, takesAlone.memory]
    refine Memory.load_storeAll_congr (.inr (h.memory x fun j hj hx => ?_))
    exact apart j hj (written_snoc_subset s σ i j hx)
  · rw [alone_count_self, Crew.read, Crew.read, touchedBy_self, touchedBy_self,
      (h.inStep free).reads]
    exact congrArg (· ++ _) h.read
  · rw [alone_count_self, Crew.written, Crew.written, touchedBy_self, touchedBy_self, writes]
    exact congrArg (· ++ _) h.written
  · rw [alone_count_self, isQuiet_snoc]
    exact ⟨h.quiet, free.quiet⟩

/-- For any other core only bytes have changed that somebody else has written. -/
theorem Follows.turn_other (h : s.Follows σ j) (hi : s.Follows σ i) (free : s.Free σ i)
    (hne : j ≠ i) : s.Follows (σ ++ [i]) j := by
  obtain ⟨c, stored, -, takes, -⟩ := hi.exists_deed free
  -- What was done elsewhere is taken over by the shared state; this core keeps what it had alone.
  constructor
  · rw [view_other s σ hne, takes.cores, Function.update_of_ne hne, h.core]
  · rw [view_other s σ hne, takes.stops, Function.update_of_ne hne, h.stop]
  · rw [takes.around, h.around]
  · rw [view_other s σ hne, h.aroundAlone]
  · intro x apart
    rw [view_other s σ hne, takes.memory, Memory.load_storeAll_of_not_mem]
    · exact h.memory x fun l hl hx => apart l hl (written_snoc_subset s σ i l hx)
    · intro hx
      apply apart i (Ne.symm hne)
      rw [Crew.written, touchedBy_self, ← stored]
      exact List.mem_append_right _ hx
  · rw [alone_count_other σ hne, Crew.read, touchedBy_other _ (Ne.symm hne)]
    exact h.read
  · rw [alone_count_other σ hne, Crew.written, touchedBy_other _ (Ne.symm hne)]
    exact h.written
  · rw [alone_count_other σ hne]
    exact h.quiet

/-- The step lemma: a free turn leaves every core following its own run. -/
theorem follows_snoc (h : ∀ j, s.Follows σ j) (free : s.Free σ i) (j : Fin n) :
    s.Follows (σ ++ [i]) j := by
  by_cases hj : j = i
  · subst hj
    exact (h j).turn_self free
  · exact (h j).turn_other (h i) free hj

/-! ## Independent schedules -/

/-- In a schedule in which the cores are independent, every turn is free. -/
theorem free_of_independent (mode : s.proc.mode = .interpret) (h : s.Follows σ i)
    (quiet : isQuiet (σ ++ [i]) s = true) (independent : s.Independent (σ ++ [i])) :
    s.Free σ i := by
  have alike : ((s.run σ).machine i).Alike ((s.view σ i).machine i) :=
    ⟨h.core.symm, (h.around.trans h.aroundAlone.symm).symm⟩
  have running : (s.run σ).isRunning i = (s.view σ i).isRunning i := by
    unfold isRunning
    rw [h.core, h.stop]
  -- What the core reads in the schedule was not written by others, so it reads the same alone.
  have unwritten : (s.run σ).isRunning i = true →
      ∀ x ∈ ((s.run σ).machine i).reads, ∀ j, j ≠ i → x ∉ s.written σ j := by
    intro runs x hx j hj hw
    have apart := independent j i hj x (written_snoc_subset s σ i j hw)
    apply apart.1
    rw [Crew.read, touchedBy_self, touches, if_pos runs]
    exact List.mem_append_right _ hx
  have agree : (s.run σ).isRunning i = true →
      ((s.run σ).machine i).AgreesOn ((s.run σ).machine i).reads ((s.view σ i).machine i) :=
    fun runs x hx => (h.memory x (unwritten runs x hx)).symm
  refine ⟨mode, fun runs => ?_, fun runs => ?_⟩
  · rw [← running] at runs
    rw [Machine.reads_congr alike (agree runs)]
    exact unwritten runs
  · rw [← running] at runs
    rw [Machine.isQuiet_congr alike (agree runs)]
    exact ((isQuiet_snoc σ i s).mp quiet).2 runs

/-- The run lemma: in a schedule of independent cores every core follows its own run. -/
theorem follows_of_independent (mode : s.proc.mode = .interpret) (quiet : isQuiet σ s = true)
    (independent : s.Independent σ) : ∀ i, s.Follows σ i := by
  induction σ using List.reverseRecOn with
  | nil => exact follows_nil s
  | append_singleton σ i ih =>
    have before := ih ((isQuiet_snoc σ i s).mp quiet).1 independent.of_append
    exact follows_snoc before (free_of_independent mode (before i) quiet independent)

/-! ## The runs alone decide -/

theorem touchedBy_alone_mono (f : Machine → List UInt64) (s : Crew n) (i : Fin n) {k k' : Nat}
    (h : k ≤ k') : touchedBy f i (alone i k) s ⊆ touchedBy f i (alone i k') s := by
  obtain ⟨d, rfl⟩ := Nat.exists_eq_add_of_le h
  rw [alone, alone, List.replicate_add, touchedBy_append]
  exact List.subset_append_left _ _

theorem isQuiet_alone_mono (s : Crew n) (i : Fin n) {k k' : Nat} (h : k ≤ k')
    (quiet : isQuiet (alone i k') s = true) : isQuiet (alone i k) s = true := by
  obtain ⟨d, rfl⟩ := Nat.exists_eq_add_of_le h
  rw [alone, List.replicate_add, isQuiet_append, Bool.and_eq_true] at quiet
  exact quiet.1

/-- The cores do not touch what another one writes when each has its turns alone. -/
structure Apart (s : Crew n) (turns : Fin n → Nat) : Prop where
  quiet : ∀ i, isQuiet (alone i (turns i)) s = true
  independent : ∀ i j, i ≠ j → ∀ x ∈ s.written (alone i (turns i)) i,
    x ∉ s.read (alone j (turns j)) j ∧ x ∉ s.written (alone j (turns j)) j

/-- If all cores follow their own runs, independence in the schedule is independence of those
runs. -/
theorem apart_of_follows (follows : ∀ i, s.Follows σ i) (independent : s.Independent σ) :
    s.Apart fun i => σ.count i where
  quiet i := (follows i).quiet
  independent i j hne x hx := by
    rw [← (follows i).written] at hx
    rw [← (follows j).read, ← (follows j).written]
    exact independent i j hne x hx

/-- If the runs are apart, a turn is free in any schedule that gives no core more turns than they
have. -/
theorem free_of_apart {turns : Fin n → Nat} (mode : s.proc.mode = .interpret)
    (apart : s.Apart turns) (follows : ∀ j, s.Follows σ j)
    (enough : ∀ j, (σ ++ [i]).count j ≤ turns j) : s.Free σ i := by
  have next : σ.count i + 1 ≤ turns i := by simpa using enough i
  have before : ∀ j, σ.count j ≤ turns j := fun j => by
    have := enough j
    rw [List.count_append] at this
    omega
  refine ⟨mode, fun runs x hx j hj hw => ?_, fun runs => ?_⟩
  · rw [(follows j).written] at hw
    apply (apart.independent j i hj x (touchedBy_alone_mono _ s j (before j) hw)).1
    apply touchedBy_alone_mono _ s i next
    rw [alone_succ, touchedBy_self]
    apply List.mem_append_right
    show x ∈ (s.view σ i).touches Machine.reads i
    rw [touches, if_pos runs]
    exact hx
  · have quiet := isQuiet_alone_mono s i next (apart.quiet i)
    rw [alone_succ, isQuiet_snoc] at quiet
    exact quiet.2 runs

theorem follows_of_apart {turns : Fin n → Nat} (mode : s.proc.mode = .interpret)
    (apart : s.Apart turns) (enough : ∀ j, σ.count j ≤ turns j) : ∀ i, s.Follows σ i := by
  induction σ using List.reverseRecOn with
  | nil => exact follows_nil s
  | append_singleton σ i ih =>
    have before : ∀ j, s.Follows σ j := by
      apply ih
      intro j
      have := enough j
      rw [List.count_append] at this
      omega
    exact follows_snoc before (free_of_apart mode apart before enough)

/-- A schedule that every core follows leads to the memory that the runs alone tell. -/
theorem load_eq_of_follows (hσ : ∀ i, s.Follows σ i) (hτ : ∀ i, s.Follows τ i)
    (same : ∀ i, σ.count i = τ.count i) (independent : s.Independent σ) (x : UInt64) :
    (s.run σ).memory.load x = (s.run τ).memory.load x := by
  have written : ∀ i, s.written τ i = s.written σ i := fun i => by
    rw [(hτ i).written, (hσ i).written, same i]
  -- The memory of the core that writes the byte, or of any core if nobody does, tells what it is.
  have decides : ∀ i, (∀ j, j ≠ i → x ∉ s.written σ j) →
      (s.run σ).memory.load x = (s.run τ).memory.load x := by
    intro i others
    rw [(hσ i).memory x others, (hτ i).memory x fun j hj => written j ▸ others j hj, view, view,
      same i]
  by_cases writer : ∃ i, x ∈ s.written σ i
  · obtain ⟨i, hx⟩ := writer
    exact decides i fun j hj => (independent i j (Ne.symm hj) x hx).2
  · cases isEmpty_or_nonempty (Fin n) with
    | inl _ => rw [Subsingleton.elim σ τ]
    | inr someCore =>
      obtain ⟨i⟩ := someCore
      exact decides i fun j _ hx => writer ⟨j, hx⟩

theorem bytes_of_load_eq {m m' : Memory} (h : ∀ x, m.load x = m'.load x) (a : Arena) :
    a.bytes m = a.bytes m' :=
  Memory.loadBytes_congr fun x _ => h x

/-- The order of the turns does not matter for the cores, for their failures or for the bytes of any
arena, as long as no turn asks the host and no core touches what another one writes. It is enough
that this is so in the first of the two schedules. -/
theorem schedules_agree (s : Crew n) (mode : s.proc.mode = .interpret)
    (same : ∀ i, σ.count i = τ.count i) (quiet : isQuiet σ s = true)
    (independent : s.Independent σ) :
    (∀ i, (s.run σ).cores i = (s.run τ).cores i ∧ (s.run σ).stops i = (s.run τ).stops i) ∧
      ∀ a : Arena, a.bytes (s.run σ).memory = a.bytes (s.run τ).memory := by
  have hσ := follows_of_independent mode quiet independent
  have hτ : ∀ i, s.Follows τ i :=
    follows_of_apart mode (apart_of_follows hσ independent) fun i => Nat.le_of_eq (same i).symm
  refine ⟨fun i => ⟨?_, ?_⟩, bytes_of_load_eq (load_eq_of_follows hσ hτ same independent)⟩
  · rw [(hσ i).core, (hτ i).core, view, view, same i]
  · rw [(hσ i).stop, (hτ i).stop, view, view, same i]

/-- A program that pushes a register and pops it into another one. -/
def pushAndPop : Program where
  header := ⟨64, 64, 0, 0⟩
  code := #[0x91, 0x00, 0xff, 0x92, 0x00, 0x01]
  global := [1, 2, 3, 4]

def pair (p : Proc) (a b : Core) : Crew 2 := ⟨p, fun i => if i = 0 then a else b, fun _ => none⟩

/-- Two cores that run the program write their own stacks only. -/
theorem pair_pushAndPop :
    ∃ p p₁ p₂ a b, Proc.new pushAndPop { mode := .interpret } = .ok p ∧
      p.newCore 0 0 = (p₁, .ok a) ∧ p₁.newCore 0 0 = (p₂, .ok b) ∧
      p₂.mode = .interpret ∧ isQuiet [0, 0, 1, 1] (pair p₂ a b) = true ∧
      (pair p₂ a b).Independent [0, 0, 1, 1] ∧ ∀ i, (pair p₂ a b).written [0, 0, 1, 1] i ≠ [] := by
  refine ⟨_, _, _, _, _, rfl, Prod.ext rfl rfl, Prod.ext rfl rfl, rfl, ?_⟩
  decide +kernel

/-- Two cores that push and pop on their own stacks, in either order. -/
theorem schedules_agree_pushAndPop :
    ∃ p p₁ p₂ a b, Proc.new pushAndPop { mode := .interpret } = .ok p ∧
      p.newCore 0 0 = (p₁, .ok a) ∧ p₁.newCore 0 0 = (p₂, .ok b) ∧
      (∀ i, (pair p₂ a b).written [0, 0, 1, 1] i ≠ []) ∧
      (∀ i, ((pair p₂ a b).run [0, 0, 1, 1]).cores i = ((pair p₂ a b).run [0, 1, 0, 1]).cores i ∧
        ((pair p₂ a b).run [0, 0, 1, 1]).stops i = ((pair p₂ a b).run [0, 1, 0, 1]).stops i) ∧
      ∀ x : Arena, x.bytes ((pair p₂ a b).run [0, 0, 1, 1]).memory =
        x.bytes ((pair p₂ a b).run [0, 1, 0, 1]).memory := by
  obtain ⟨p, p₁, p₂, a, b, hp, ha, hb, mode, quiet, independent, written⟩ := pair_pushAndPop
  exact ⟨p, p₁, p₂, a, b, hp, ha, hb, written,
    schedules_agree (pair p₂ a b) mode (by decide) quiet independent⟩

end Crew

end BlockVM
