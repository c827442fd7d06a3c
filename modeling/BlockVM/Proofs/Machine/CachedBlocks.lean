import BlockVM.Proofs.Block.Extent
import BlockVM.Proofs.Machine.Checks
import BlockVM.Proofs.Machine.Modes
import BlockVM.Proofs.Machine.Simulation

/-!
# Cached blocks

`grew` says what a dispatch can do to the cache of its core: nothing, or it adds the block that was
just compiled, at an address that had none. `cache_stays_coherent` follows from it for a core that
is dispatched again and again, also after failures. Every cached block fills the code from its
address to the next barrier and is what a compilation gives there, no block is cached twice, and
none is ever dropped or exchanged.
-/

namespace BlockVM

open Isa (Inst)

/-! ## What blocks depend on -/

/-- What a process compiles, and with which memory. -/
structure Build where
  program : Program
  mode : Mode
  global : Arena
  increment : Int64
  exec : ExecMemory

namespace Proc

def build (p : Proc) : Build where
  program := p.program
  mode := p.mode
  global := p.global
  increment := p.increment
  exec := p.exec

/-- The process compiles the same program in the same way. -/
def SameBuild (p p' : Proc) : Prop := p'.build = p.build

theorem SameBuild.sameProgram {p p' : Proc} (h : SameBuild p p') : SameProgram p p' where
  program := congrArg Build.program h
  mode := congrArg Build.mode h
  global := congrArg Build.global h

theorem build_makeHeap (p : Proc) (size : UInt64) : (p.makeHeap size).1.build = p.build := by
  unfold makeHeap
  split
  · rfl
  · dsimp only
    split <;> rfl

theorem build_destroyHeap (p : Proc) (base : UInt64) : (p.destroyHeap base).build = p.build := by
  unfold destroyHeap
  split <;> rfl

/-- A new core leaves the build of its process alone. -/
theorem build_newCore (p : Proc) (start : Int64) (param : UInt64) :
    (p.newCore start param).1.build = p.build := by
  unfold newCore
  dsimp only
  split <;> rfl

theorem build_spawn (p : Proc) (start : Int64) (param : UInt64) :
    (p.spawn start param).1.build = p.build := by
  have made := build_newCore p start param
  unfold spawn
  split
  · split
    all_goals
      next heq =>
        rw [heq] at made
        exact made
  · rfl

end Proc

namespace Machine

/-- The core has the same blocks, and it would compile the same ones. -/
structure SameBlocks (m m' : Machine) : Prop where
  build : m'.proc.build = m.proc.build
  stack : m'.core.stack = m.core.stack
  cache : m'.core.cache = m.core.cache

theorem SameBlocks.refl (m : Machine) : SameBlocks m m := ⟨rfl, rfl, rfl⟩

theorem SameBlocks.trans {m₁ m₂ m₃ : Machine} (h : SameBlocks m₁ m₂) (h' : SameBlocks m₂ m₃) :
    SameBlocks m₁ m₃ :=
  ⟨h'.build.trans h.build, h'.stack.trans h.stack, h'.cache.trans h.cache⟩

theorem Effect.sameBlocks {m m' : Machine} (h : Effect m m') : SameBlocks m m' := by
  induction h with
  | refl m => exact .refl m
  | trans _ _ ih ih' => exact ih.trans ih'
  | int | float | memory | grow | shrink | ports | devices | clock | random =>
    exact ⟨rfl, rfl, rfl⟩
  | makeHeap m size => exact ⟨m.proc.build_makeHeap size, rfl, rfl⟩
  | destroyHeap m base => exact ⟨m.proc.build_destroyHeap base, rfl, rfl⟩
  | spawn m start param => exact ⟨m.proc.build_spawn start param, rfl, rfl⟩

theorem Jumped.sameBlocks {m m' : Machine} {i : Inst} {e : Option Stop} (h : Jumped m i m' e) :
    SameBlocks m m' := by
  cases h <;> exact ⟨rfl, rfl, rfl⟩

/-! ## Executions -/

/-- The result leaves the blocks as they are and breaks no check. -/
structure Passes (m : Machine) (r : Machine × Option Stop) : Prop where
  blocks : SameBlocks m r.1
  quiet : Quiet r.2

/-- A passing result stays one when something with the same blocks came first. -/
theorem Passes.after {m m' : Machine} {r : Machine × Option Stop} (h' : Passes m' r)
    (h : SameBlocks m m') : Passes m r :=
  ⟨h.trans h'.blocks, h'.quiet⟩

/-- Goes on where nothing failed. -/
theorem Passes.andThen {m : Machine} {r : Machine × Option Stop}
    {next : Machine → Machine × Option Stop} : Passes m r → (∀ m', Passes m' (next m')) →
      Passes m (match r with
        | (m, some e) => (m, some e)
        | (m, none) => next m) := by
  intro h hnext
  obtain ⟨m', e⟩ := r
  cases e with
  | some e => exact h
  | none => exact (hnext m').after h.blocks

theorem passes_setPc (m : Machine) (pc : Int64) : Passes m (m.setPc pc, none) :=
  ⟨⟨rfl, rfl, rfl⟩, quiet_none⟩

theorem passes_step {code : Array UInt8} {pc : Int64} {i : Inst}
    (read : Isa.decode code pc = .ok i) (m : Machine) : Passes m (m.step i) :=
  ⟨(effect_step (Isa.decode_eq_ok read) m).sameBlocks, quiet_step m i⟩

theorem passes_serviceAt (m : Machine) (pc : Int64) : Passes m (m.serviceAt pc) := by
  unfold serviceAt
  split
  next e failed => exact ⟨.refl m, (keepsChecks_decode _ _).quiet failed⟩
  next i read => exact (passes_step read (Machine.notify _ _)).after ⟨rfl, rfl, rfl⟩

/-- Machine code gets by without the cache, by induction on the fuel. -/
theorem passes_resume (b : Block) (fuel : Nat) (offset : UInt32) (m : Machine) :
    Passes m (resume b fuel offset m) := by
  induction fuel generalizing offset m with
  | zero => exact ⟨.refl m, quiet_abort_none⟩
  | succ fuel ih =>
    unfold resume
    split
    · exact ⟨.refl m, quiet_abort_none⟩
    next token v called =>
      have adopted : SameBlocks m (m.adopt v) := ⟨rfl, rfl, rfl⟩
      dsimp only
      split
      · exact ⟨adopted, quiet_none⟩
      · split
        · exact ⟨adopted, quiet_failure _⟩
        · refine Passes.after ?_ adopted
          exact (passes_serviceAt _ _).andThen fun m' => ih _ m'

theorem passes_runBlock (b : Block) (m : Machine) : Passes m (runBlock b m) :=
  passes_resume b _ 0 m

section Executor

variable {exec : Executor} (hexec : ∀ b m, Passes m (exec b m)) (b : Block) (m : Machine)

include hexec

theorem passes_execute : Passes m (m.execute exec b) :=
  (hexec b _).after ⟨rfl, rfl, rfl⟩

variable {b m} in
theorem passes_of_execute {m₀ m' : Machine} {e : Option Stop}
    (h : m₀.execute exec b = (m', e)) (same : SameBlocks m m₀) : Passes m (m', e) := by
  rw [← h]
  exact (passes_execute hexec b m₀).after same

theorem passes_executeCached : Passes m (m.executeCached exec b) :=
  ((passes_execute hexec b _).andThen fun m' => passes_setPc m' b.stop).after ⟨rfl, rfl, rfl⟩

end Executor

theorem passes_control {i : Inst} (h : i.info.isControl = true) (m : Machine) :
    Passes m (m.control i) := by
  have moved : Passes m (m.jump i) := ⟨(jumped m h).sameBlocks, (jumped m h).quiet⟩
  exact moved.andThen fun m' => ⟨⟨rfl, rfl, rfl⟩, quiet_none⟩

theorem passes_interpret {code : Array UInt8} {pc : Int64} {i : Inst}
    (read : Isa.decode code pc = .ok i) (m : Machine) : Passes m (m.interpret i) := by
  unfold interpret
  dsimp only
  refine Passes.after ?_ (⟨rfl, rfl, rfl⟩ : SameBlocks m m.countInterpreted)
  exact (passes_step read _).andThen fun m' => passes_setPc m' i.next

/-! ## Dispatches -/

def caching (m : Machine) (b : Block) : Machine :=
  { m with core := { m.core with cache := ⟨Cache.insertInto b.start b m.core.cache.entries⟩ } }

/-- The core with a block compiled that was not executed yet. -/
def announcing (m : Machine) (b : Block) : Machine :=
  (m.count fun s => { s with compiled := s.compiled + 1 }).notify
    (.compiled m.core.id b.insts b.code.size)

/-- What is left to do once the block is compiled: announce it, execute it, and keep it if nothing
failed. -/
theorem executeNew_eq {exec : Executor} {m : Machine} {b : Block}
    (compiled : m.compileHere = .ok b) :
    m.executeNew exec = match (m.announcing b).execute exec b with
      | (m, some e) => (m, some e)
      | (m, none) => m.keep b := by
  unfold executeNew
  rw [compiled]
  rfl

/-- What a dispatch can do to the cache. -/
inductive Grew (m : Machine) : Machine × Option Stop → Prop
  | passed {r : Machine × Option Stop} (h : Passes m r) : Grew m r
  | stored {b : Block} {m' : Machine} (missing : m.core.cache.find? m.core.pc = none)
      (compiled : m.compileHere = .ok b) (blocks : SameBlocks (m.caching b) m') :
      Grew m (m', none)

theorem SameBlocks.caching {m m' : Machine} (h : SameBlocks m m') (b : Block) :
    SameBlocks (m.caching b) (m'.caching b) := by
  refine ⟨h.build, h.stack, ?_⟩
  unfold Machine.caching
  dsimp only
  rw [h.cache]

theorem keep_of_missing {m : Machine} {b : Block} (missing : m.core.cache.find? b.start = none) :
    ∃ m', m.keep b = (m', none) ∧ SameBlocks (m.caching b) m' := by
  unfold keep Cache.insert
  rw [missing]
  exact ⟨_, rfl, rfl, rfl, rfl⟩

section Executor

variable {exec : Executor} (hexec : ∀ b m, Passes m (exec b m)) (m : Machine)

include hexec

/-- A block is kept under the address that it was compiled for, so the cache has none there yet. -/
theorem grew_executeNew (missing : m.core.cache.find? m.core.pc = none) :
    Grew m (m.executeNew exec) := by
  unfold executeNew
  split
  next e failed => exact .passed ⟨.refl m, (keepsChecks_compile _ _ _ _ _).quiet failed⟩
  next b compiled =>
    dsimp only
    split
    next m' e executed =>
      exact .passed (passes_of_execute hexec executed ⟨rfl, rfl, rfl⟩)
    next m' executed =>
      have passed : Passes m (m', none) := passes_of_execute hexec executed ⟨rfl, rfl, rfl⟩
      have hstart : b.start = m.core.pc := (isRun_of_compile compiled).start_eq
      have missing' : m'.core.cache.find? b.start = none := by
        rw [passed.blocks.cache, hstart]
        exact missing
      obtain ⟨m'', hkeep, kept⟩ := keep_of_missing missing'
      rw [hkeep]
      exact .stored missing compiled ((passed.blocks.caching b).trans kept)

/-- A dispatch grows the cache by at most the block that it compiled, whatever executes blocks. -/
theorem grew : Grew m (m.dispatchWith exec) := by
  unfold dispatchWith
  split
  next b _ _ => exact .passed (passes_executeCached hexec b m)
  next other =>
    unfold dispatchFresh
    split
    next e failed => exact .passed ⟨.refl m, (keepsChecks_decode _ _).quiet failed⟩
    next i read =>
      split
      next hc => exact .passed (passes_control hc m)
      · split
        · exact .passed (passes_interpret read m)
        next hmode =>
          refine grew_executeNew hexec m ?_
          exact Option.eq_none_iff_forall_ne_some.mpr fun b found => other b hmode found

end Executor

/-! ## Entries -/

/-- What stands in front of the other entries hides those with its own key. -/
theorem lookup_entry (k a : Int64) (x : Block) (es : List (Int64 × Block)) :
    ((a, x) :: es).lookup k = if k = a then some x else es.lookup k := by
  rw [List.lookup_cons]
  by_cases h : k = a
  · simp [h]
  · simp [beq_false_of_ne h, h]

/-- A block at an address that had none is found there, and the others where they were. -/
theorem lookup_insertInto {pc : Int64} {b : Block} {es : List (Int64 × Block)}
    (missing : es.lookup pc = none) (k : Int64) :
    (Cache.insertInto pc b es).lookup k = if k = pc then some b else es.lookup k := by
  induction es with
  | nil => exact lookup_entry k pc b []
  | cons e es ih =>
    obtain ⟨a, x⟩ := e
    rw [lookup_entry] at missing
    have apart : pc ≠ a := by
      intro h
      rw [if_pos h] at missing
      cases missing
    rw [if_neg apart] at missing
    unfold Cache.insertInto
    split
    · exact lookup_entry k pc b _
    · rw [lookup_entry, lookup_entry, ih missing]
      by_cases ha : k = a
      · rw [if_pos ha, if_neg (by rw [ha]; exact apart.symm), if_pos ha]
      · rw [if_neg ha, if_neg ha]

namespace Grew

variable {m : Machine} {r : Machine × Option Stop}

theorem build (h : Grew m r) : r.1.proc.build = m.proc.build := by
  cases h with
  | passed h => exact h.blocks.build
  | stored _ _ blocks => exact blocks.build

theorem stack (h : Grew m r) : r.1.core.stack = m.core.stack := by
  cases h with
  | passed h => exact h.blocks.stack
  | stored _ _ blocks => exact blocks.stack

theorem quiet (h : Grew m r) : Quiet r.2 := by
  cases h with
  | passed h => exact h.quiet
  | stored => exact quiet_none

/-- A block that was found is found again. -/
theorem find? (h : Grew m r) {k : Int64} {b : Block} (found : m.core.cache.find? k = some b) :
    r.1.core.cache.find? k = some b := by
  cases h with
  | passed h =>
    rw [h.blocks.cache]
    exact found
  | stored missing compiled blocks =>
    have hstart := (isRun_of_compile compiled).start_eq
    rw [blocks.cache]
    show (Cache.insertInto _ _ m.core.cache.entries).lookup k = some b
    rw [hstart, lookup_insertInto missing, if_neg]
    · exact found
    · rintro rfl
      rw [missing] at found
      cases found

/-- A block that is new was compiled just now. -/
theorem entries (h : Grew m r) {e : Int64 × Block} (he : e ∈ r.1.core.cache.entries) :
    e ∈ m.core.cache.entries ∨
      (m.setPc e.1).compileHere = .ok e.2 ∧ r.1.core.cache.find? e.1 = some e.2 := by
  cases h with
  | passed h =>
    rw [h.blocks.cache] at he
    exact .inl he
  | @stored b _ missing compiled blocks =>
    have hstart : b.start = m.core.pc := (isRun_of_compile compiled).start_eq
    rw [blocks.cache] at he
    rcases mem_insertInto he with rfl | he
    · refine .inr ⟨?_, ?_⟩
      · show (m.setPc b.start).compileHere = .ok b
        rw [hstart]
        exact compiled
      · rw [blocks.cache]
        show (Cache.insertInto b.start b m.core.cache.entries).lookup b.start = some b
        rw [hstart, lookup_insertInto missing, if_pos rfl]
    · exact .inl he

end Grew

/-! ## Coherence -/

/-- A dispatch that compiles a block and executes it to its end keeps the block. -/
theorem dispatch_stores {m m' : Machine} {i : Inst} {b : Block} (mode : m.proc.mode = .jit)
    (missing : m.core.cache.find? m.core.pc = none)
    (read : Isa.decode m.proc.program.code m.core.pc = .ok i) (hc : i.info.isControl = false)
    (compiled : m.compileHere = .ok b)
    (executed : (m.announcing b).execute runBlock b = (m', none)) :
    SameBlocks (m.caching b) m.dispatch.1 := by
  have fresh : m.dispatch = m.executeNew runBlock := by
    rw [show m.dispatch = m.dispatchFresh runBlock from dispatch_missing missing]
    unfold dispatchFresh
    rw [read]
    dsimp only
    rw [hc, mode]
    rfl
  have passed := passes_of_execute (m := m) passes_runBlock executed ⟨rfl, rfl, rfl⟩
  have missing' : m'.core.cache.find? b.start = none := by
    rw [passed.blocks.cache, (isRun_of_compile compiled).start_eq]
    exact missing
  obtain ⟨m'', hkeep, kept⟩ := keep_of_missing missing'
  rw [fresh, executeNew_eq compiled, executed]
  dsimp only
  rw [hkeep]
  exact (passed.blocks.caching b).trans kept

theorem grew_dispatch (m : Machine) : Grew m m.dispatch := grew passes_runBlock m

/-- Every entry is the run at its address, and is found there. -/
def InPlace (m : Machine) : Prop :=
  ∀ e ∈ m.core.cache.entries, e.2.IsRun m.proc.program.code m.codeTarget e.1 ∧
    m.core.cache.find? e.1 = some e.2

/-- What blocks are compiled for depends on the global data and on the stack of the core. -/
theorem codeTarget_eq (m m' : Machine) (global : m'.proc.global = m.proc.global)
    (stack : m'.core.stack = m.core.stack) : m'.codeTarget = m.codeTarget := by
  unfold codeTarget
  rw [global, stack]

theorem InPlace.dispatch {m : Machine} (h : m.InPlace) : m.dispatch.1.InPlace := by
  have grew := grew_dispatch m
  have program : m.dispatch.1.proc.program = m.proc.program := congrArg Build.program grew.build
  have target := codeTarget_eq m m.dispatch.1 (congrArg Build.global grew.build) grew.stack
  intro e he
  rw [program, target]
  rcases grew.entries he with he | ⟨compiled, found⟩
  · exact ⟨(h e he).1, grew.find? (h e he).2⟩
  · exact ⟨isRun_of_compile compiled, found⟩

theorem InPlace.setProc {m : Machine} {p : Proc} (h : m.InPlace) (same : m.proc.SameProgram p) :
    (m.setProc p).InPlace := by
  intro e he
  rw [codeTarget_eq m (m.setProc p) same.global rfl]
  show e.2.IsRun p.program.code m.codeTarget e.1 ∧ _
  rw [same.program]
  exact h e he

theorem Reachable.inPlace {start m : Machine} (h : Reachable Proc.SameProgram start m)
    (initially : start.InPlace) : m.InPlace :=
  h.invariant initially (fun _ => InPlace.dispatch) fun _ _ => InPlace.setProc

theorem Reachable.sameProgram {start m : Machine} (h : Reachable Proc.SameProgram start m) :
    start.proc.SameProgram m.proc := by
  apply h.invariant
  · exact .refl _
  · intro m ih
    exact ih.trans (Proc.SameBuild.sameProgram (grew_dispatch m).build)
  · intro m proc ih allowed
    exact ih.trans allowed

/-- A block that is found once is found in all later states. -/
theorem Reachable.find? {env : Proc → Proc → Prop} {start m : Machine} (h : Reachable env start m)
    {k : Int64} {b : Block} (found : start.core.cache.find? k = some b) :
    m.core.cache.find? k = some b :=
  h.invariant found (fun m => (grew_dispatch m).find?) fun _ _ ih _ => ih

/-- Compiled again with the same memory, every entry comes out the same. -/
theorem Reachable.compileHere {start m : Machine} (h : Reachable Proc.SameBuild start m)
    (initially : start.core.cache = {}) :
    ∀ e ∈ m.core.cache.entries, (m.setPc e.1).compileHere = .ok e.2 := by
  -- What is compiled at an address depends on the build and on the stack, which never change.
  have again (m m' : Machine) (build : m'.proc.build = m.proc.build)
      (stack : m'.core.stack = m.core.stack) (k : Int64) :
      (m'.setPc k).compileHere = (m.setPc k).compileHere := by
    unfold Machine.compileHere
    rw [codeTarget_eq (m.setPc k) (m'.setPc k) (congrArg Build.global build) stack]
    show compile m'.proc.build.exec m'.proc.build.program.code _ m'.proc.build.increment k = _
    rw [build]
    rfl
  apply h.invariant
  · intro e he
    rw [initially] at he
    cases he
  · intro m ih e he
    have grew := grew_dispatch m
    rw [again m m.dispatch.1 grew.build grew.stack]
    rcases grew.entries he with he | ⟨compiled, -⟩
    · exact ih e he
    · exact compiled
  · intro m proc ih same e he
    rw [again m (m.setProc proc) same rfl]
    exact ih e he

/-- A cached block: it holds the instructions from its address to the next barrier, at least one of
them, and a compilation gives it again unless memory is short. -/
structure Cached (m : Machine) (k : Int64) (b : Block) : Prop where
  start : b.start = k
  nonneg : 0 ≤ k
  some : 1 ≤ b.insts
  filled : ∃ is, is.length = b.insts ∧
    Extent m.proc.program.code (Int64.ofNat m.proc.global.size) k is b.stop
  fresh : ∀ x increment, compile x m.proc.program.code m.codeTarget increment k = .ok b ∨
    ∃ e, IsCodeMemoryFailure e ∧
      compile x m.proc.program.code m.codeTarget increment k = .error e

/-- A block of the run at its key is what the cache should have there. -/
theorem cached_of_isRun {m : Machine} {k : Int64} {b : Block}
    (hcode : m.proc.program.code.size < 2 ^ 63)
    (run : b.IsRun m.proc.program.code m.codeTarget k) : m.Cached k b := by
  obtain ⟨nonneg, extent⟩ := extent_at hcode run.steps_ne
  rw [← run.stop_eq] at extent
  refine ⟨run.start_eq, nonneg, ?_, ⟨_, ?_, extent⟩, run.compile⟩
  · rw [run.insts_eq]
    exact List.length_pos_iff.mpr run.steps_ne
  · rw [List.length_map, run.insts_eq]

/-- However often a core is dispatched, and whether its dispatches fail or not, its cache agrees
with its program: every entry is the block at its address, an entry stays as it is in all later
states, and no dispatch ever tries to cache a second block at one address. As long as nothing else
changes how the process compiles, compiling again gives every entry exactly. -/
theorem cache_stays_coherent {p p' : Proc} {c : Core} {start : Int64} {param : UInt64}
    {m : Machine} (made : p.newCore start param = (p', .ok c))
    (hcode : p.program.code.size < 2 ^ 63) (h : Reachable Proc.SameProgram ⟨c, p'⟩ m) :
    (∀ e ∈ m.core.cache.entries, m.Cached e.1 e.2) ∧
    (∀ m', Reachable Proc.SameProgram m m' → ∀ e ∈ m.core.cache.entries,
      m'.core.cache.find? e.1 = some e.2) ∧
    (∀ (cache : Cache) k b e, cache.insert k b = .error e → m.dispatch.2 ≠ some e) ∧
    (Reachable Proc.SameBuild ⟨c, p'⟩ m →
      ∀ e ∈ m.core.cache.entries, (m.setPc e.1).compileHere = .ok e.2) := by
  have empty : c.cache = {} := (newCore_eq_ok made).2.2.2.2
  have same := p.sameProgram_newCore start param
  rw [made] at same
  have program : m.proc.program = p.program := h.sameProgram.program.trans same.program
  have inPlace : m.InPlace := by
    refine h.inPlace fun e he => ?_
    rw [show (⟨c, p'⟩ : Machine).core.cache = {} from empty] at he
    cases he
  refine ⟨fun e he => ?_, fun m' later e he => ?_, fun cache k b e refused => ?_, fun h => ?_⟩
  · exact cached_of_isRun (by rw [program]; exact hcode) (inPlace e he).1
  · exact later.find? (inPlace e he).2
  · intro stopped
    unfold Cache.insert at refused
    split at refused
    · cases refused
      exact (grew_dispatch m).quiet _ stopped trivial
    · cases refused
  · exact h.compileHere empty

/-- A program that does nothing, for ever: one block and a jump back to it. -/
def idles : Program where
  header := ⟨64, 64, 0, 0⟩
  code := #[0x7d, 0x01, 0x81, 0x01, 0x00, 0x00, 0x00, 0x00]
  global := [1, 2, 3, 4]

def onlyNop : Inst := ⟨0, Isa.Definition.info ⟨.nop, 0, []⟩ 381, []⟩

def jumpBack : Inst := ⟨2, Isa.Definition.info ⟨.jmp, 0, [.plain .addr]⟩ 385, [⟨.addr, 0⟩]⟩

theorem decode_idles : Isa.decode idles.code 0 = .ok onlyNop ∧
    Isa.decode idles.code 2 = .ok jumpBack := by
  have hnop : Isa.peek idles.code 0 = .ok (Isa.Definition.info ⟨.nop, 0, []⟩ 381) :=
    @Isa.entry_eq_ok 0 381 _ rfl
  have hjump : Isa.peek idles.code 2 = .ok (Isa.Definition.info ⟨.jmp, 0, [.plain .addr]⟩ 385) :=
    @Isa.entry_eq_ok 2 385 _ rfl
  constructor
  · unfold Isa.decode
    rw [hnop]
    rfl
  · unfold Isa.decode
    rw [hjump]
    rfl

theorem step_onlyNop (m : Machine) : m.step onlyNop = (m, none) := by
  have action : Action.ofInst onlyNop (Int64.ofNat m.proc.global.size) = .ok .nop := rfl
  rw [step, action]
  rfl

theorem run_idles : Run.at idles.code 4 0 = ⟨[(onlyNop, .nop)], 2, none⟩ := by
  have stop : Run.take idles.code 4 8 2 = ⟨[], 2, none⟩ := by
    rw [Run.take, if_pos (by decide), decode_idles.2]
    rfl
  have next : onlyNop.next = 2 := rfl
  have action : Action.ofInst onlyNop 4 = .ok .nop := rfl
  show Run.take idles.code 4 9 0 = _
  rw [take_of_decode (by decide) decode_idles.1 rfl action, next, stop]

theorem compile_idles :
    ∃ b, compile .unlimited idles.code ⟨4, 0x6d3f9a584000, 64⟩ 0 0 = .ok b ∧
      b.code.size ≤ 4096 := by
  have hok : ((compile .unlimited idles.code ⟨4, 0x6d3f9a584000, 64⟩ 0 0).toOption.any
      fun b => b.code.size ≤ 4096) = true := by
    unfold compile
    rw [show Run.at idles.code 4 0 = _ from run_idles]
    decide +kernel
  obtain ⟨b, hb, hsize⟩ := exists_of_any hok
  exact ⟨b, hb, of_decide_eq_true hsize⟩

/-- The first dispatch of `idles` leaves one block in the cache. -/
theorem dispatch_idles : ∃ p p' c b, Proc.new idles { mode := .jit } = .ok p ∧
    p.newCore 0 0 = (p', .ok c) ∧
    (⟨c, p'⟩ : Machine).dispatch.1.core.cache.entries = [(0, b)] := by
  obtain ⟨p, p', c, hp, made, arenas, hprogram, htarget, hplace, hglobal, hsp⟩ :=
    Native.newCore_of_code idles.code
  obtain ⟨hmode, hpc, hcache, hexec, hincrement⟩ : p'.mode = .jit ∧ c.pc = 0 ∧ c.cache = {} ∧
      p'.exec = .unlimited ∧ p'.increment = 0 := by
    cases hp
    cases made
    exact ⟨rfl, rfl, rfl, rfl, rfl⟩
  obtain ⟨b, compiled, hsize⟩ := compile_idles
  rw [← hprogram, ← htarget] at compiled
  let m : Machine := ⟨c, p'⟩
  have compiledHere : m.compileHere = .ok b := by
    show compile p'.exec p'.program.code (codeTarget ⟨c, p'⟩) p'.increment c.pc = _
    rw [hexec, hincrement, hpc]
    exact compiled
  have missing : m.core.cache.find? m.core.pc = none := by
    show c.cache.find? c.pc = none
    rw [hcache]
    rfl
  have read : Isa.decode m.proc.program.code m.core.pc = .ok onlyNop := by
    show Isa.decode p'.program.code c.pc = _
    rw [hprogram, hpc]
    exact decode_idles.1
  have hrun : (m.runAt 0).steps = [(onlyNop, .nop)] := by
    show (Run.at p'.program.code (codeTarget ⟨c, p'⟩).globalSize 0).steps = _
    rw [hprogram, htarget, run_idles]
  -- The block is executed on a core that has counted it and told of it.
  let m' : Machine := ((m.announcing b).count fun s => { s with executed := s.executed + 1 }).notify
    (.executed m.core.id)
  have compiled' : compile .unlimited m'.proc.program.code m'.codeTarget 0 0 = .ok b := compiled
  have hrun' : (m'.runAt 0).steps = [(onlyNop, .nop)] := hrun
  have plain : ∀ q ∈ (m'.runAt 0).steps, q.1.family.isPlain = true := by
    intro q hq
    rw [hrun', List.mem_singleton] at hq
    subst hq
    rfl
  have hosts : (Native.Site.standard b.code).Hosts m' :=
    Native.Site.hosts_core (by omega) arenas hplace
  have hzero : m'.core.regs.sp.toInt = 0 := congrArg Int64.toInt hsp
  have on : Native.OnStack m' := by
    constructor
    · omega
    · rw [hzero]
      exact Int.natCast_nonneg _
  have done : stepAll ((m'.runAt 0).steps.map (·.1)) m' = (m', none) := by
    rw [hrun', List.map_singleton, stepAll, step_onlyNop]
    rfl
  obtain ⟨v, ran, -⟩ := Native.runBlock_of_done compiled' plain hosts on hglobal done
  have executed : (m.announcing b).execute runBlock b = (m'.adopt v, none) := by
    unfold execute
    exact ran
  have stored := dispatch_stores hmode missing read rfl compiledHere executed
  refine ⟨p, p', c, b, hp, made, ?_⟩
  rw [stored.cache]
  show Cache.insertInto b.start b c.cache.entries = _
  rw [hcache, (isRun_of_compile compiled).start_eq]
  rfl

/-- The block that `idles` has cached is the one at its start, and the jump back to it finds it. -/
theorem cache_stays_coherent_idles :
    ∃ p p' c b, Proc.new idles { mode := .jit } = .ok p ∧ p.newCore 0 0 = (p', .ok c) ∧
      (let m := (⟨c, p'⟩ : Machine).dispatch.1
       m.core.cache.entries = [(0, b)] ∧ m.Cached 0 b ∧
         m.dispatch.1.dispatch.1.core.cache.find? 0 = some b ∧
         (m.setPc 0).compileHere = .ok b ∧
         ∀ (cache : Cache) k b e, cache.insert k b = .error e → m.dispatch.2 ≠ some e) := by
  obtain ⟨p, p', c, b, hp, made, entries⟩ := dispatch_idles
  have hcode : p.program.code.size < 2 ^ 63 := by
    rw [(new_eq_ok hp).1]
    decide
  have held : ((0, b) : Int64 × Block) ∈ (⟨c, p'⟩ : Machine).dispatch.1.core.cache.entries := by
    rw [entries]
    exact .head _
  obtain ⟨cached, kept, unbroken, exactly⟩ := cache_stays_coherent made hcode (.dispatch .start)
  exact ⟨p, p', c, b, hp, made, entries, cached _ held,
    kept _ (.dispatch (.dispatch .start)) _ held, exactly (.dispatch .start) _ held, unbroken⟩

end Machine

end BlockVM
