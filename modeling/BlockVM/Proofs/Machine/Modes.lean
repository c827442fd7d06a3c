import BlockVM.Proofs.Block.Compiled
import BlockVM.Proofs.Machine.Blocks
import BlockVM.Proofs.Machine.StackPointer
import BlockVM.Proofs.Numeric.Signed

/-!
# The two modes agree

One core interprets a program and another one runs it block by block, where a block means its
instructions. `Twin` relates the two between dispatches: they differ only in how they run. One block
of the second core is as many dispatches of the first as the block has instructions, so the
simulation stutters; `Twin.dispatch` is its step. `modes_agree` puts the runs together: one of them
halts or stops if and only if the other does, in the same state and for the same reason.
-/

namespace BlockVM

open Isa (Inst)

namespace Guise

/-- The guises of machines that agree. -/
structure Agree (g g' : Guise) : Prop where
  controls : g'.stats.controls = g.stats.controls
  transfers : g'.transfers = g.transfers
  cancelAfter : g'.cancelAfter = g.cancelAfter
  canceled : g'.canceled = g.canceled

theorem Agree.trans {g₁ g₂ g₃ : Guise} (h : g₁.Agree g₂) (h' : g₂.Agree g₃) : g₁.Agree g₃ :=
  ⟨h'.1.trans h.1, h'.2.trans h.2, h'.3.trans h.3, h'.4.trans h.4⟩

theorem Onward.agree {g g' : Guise} (h : g.Onward g') : g'.Agree g := by
  have heq := h.eq
  refine ⟨h.controls.symm, ?_, ?_, ?_⟩ <;> rw [heq]

/-- The guise of a core that found its block in the cache. -/
def hit (g : Guise) : Guise :=
  { g with stats := { g.stats with hits := g.stats.hits + 1 } }

/-- The guise of a core that keeps a block and goes on behind it. -/
def keeping (g : Guise) (b : Block) : Guise :=
  { g with
    pc := b.stop
    cache := ⟨Cache.insertInto b.start b g.cache.entries⟩
    stats := { g.stats with
      blocks := g.stats.blocks + 1
      codeBytes := g.stats.codeBytes + UInt64.ofNat b.code.size } }

end Guise

namespace Machine

/-! ## Machines that differ in how they run -/

/-- The machines differ only in their addresses, their caches, statistics and modes and in what
their observers were told. -/
structure Agree (a b : Machine) : Prop where
  core : b.core = { a.core with pc := b.core.pc, cache := b.core.cache, stats := b.core.stats }
  proc : b.proc = { a.proc with mode := b.proc.mode, events := b.proc.events }
  controls : b.core.stats.controls = a.core.stats.controls

/-- Machines that agree differ in their guises only. -/
theorem Agree.eq_wearing {a b : Machine} (h : Agree a b) : b = a.wearing b.guise := by
  obtain ⟨core, proc⟩ := b
  have hcore := h.core
  have hproc := h.proc
  dsimp only at hcore hproc
  show Machine.mk core proc =
    ⟨{ a.core with pc := core.pc, cache := core.cache, stats := core.stats }, { a.proc with
      mode := proc.mode
      events := proc.events
      transfers := proc.transfers
      cancelAfter := proc.cancelAfter
      canceled := proc.canceled }⟩
  rw [← hcore]
  congr 1
  rw [hproc]

theorem agree_wearing (m : Machine) {g g' : Guise} (h : g.Agree g') :
    Agree (m.wearing g) (m.wearing g') := by
  refine ⟨rfl, ?_, h.controls⟩
  show Proc.wearing m.proc g' = { m.proc.wearing g with mode := g'.mode, events := g'.events }
  unfold Proc.wearing
  rw [h.transfers, h.cancelAfter, h.canceled]

theorem Agree.guise {a b : Machine} (h : Agree a b) : a.guise.Agree b.guise := by
  refine ⟨h.controls, ?_, ?_, ?_⟩
  · show b.proc.transfers = a.proc.transfers
    rw [h.proc]
  · show b.proc.cancelAfter = a.proc.cancelAfter
    rw [h.proc]
  · show b.proc.canceled = a.proc.canceled
    rw [h.proc]

/-! ## Blocks -/

/-- The block is the run at its start. -/
structure Compiled (m : Machine) (pc : Int64) (b : Block) : Prop where
  start : b.start = pc
  stop : b.stop = (m.runAt pc).stop
  steps : (m.runAt pc).steps ≠ []

/-- Every cached block is the run at its address. -/
def Coherent (m : Machine) : Prop := ∀ e ∈ m.core.cache.entries, m.Compiled e.1 e.2

/-- What the cache has after an insertion is the new block or was there. -/
theorem mem_insertInto {pc : Int64} {b : Block} {es : List (Int64 × Block)} {e : Int64 × Block}
    (h : e ∈ Cache.insertInto pc b es) : e = (pc, b) ∨ e ∈ es := by
  induction es with
  | nil => simpa [Cache.insertInto] using h
  | cons x es ih =>
    unfold Cache.insertInto at h
    split at h
    · simpa using h
    · rcases List.mem_cons.mp h with rfl | h
      · exact .inr (List.mem_cons_self ..)
      · rcases ih h with h | h
        · exact .inl h
        · exact .inr (List.mem_cons_of_mem _ h)

/-- A block that is found in a coherent cache was compiled where it is found. -/
theorem Coherent.find? {m : Machine} {pc : Int64} {b : Block} (h : m.Coherent)
    (hb : m.core.cache.find? pc = some b) : m.Compiled pc b := by
  obtain ⟨before, after, hentries, -⟩ := List.lookup_eq_some_iff.mp hb
  apply h (pc, b)
  rw [hentries]
  simp

def executing (m : Machine) (g : Guise) : Guise :=
  { g with
    stats := { g.stats with executed := g.stats.executed + 1 }
    events := g.events.push (.executed m.core.id) }

/-- The execution of a block is its instructions in order, whatever the guise. -/
theorem execute_wearing (m : Machine) (g : Guise) {pc : Int64} {b : Block}
    (hb : b.start = pc) :
    (m.wearing g).execute stepBlock b
      = dress (m.executing g) (stepAll ((m.runAt pc).steps.map (·.1)) m) := by
  subst hb
  exact stepAll_wearing m (m.executing g) _

/-- The block stays what it is in every state of the same program. -/
theorem Compiled.same {m m' : Machine} {pc : Int64} {b : Block} (h : m.Compiled pc b)
    (program : m'.proc.program = m.proc.program) (global : m'.proc.global = m.proc.global) :
    m'.Compiled pc b := by
  have hrun : m'.runAt pc = m.runAt pc := by
    unfold runAt
    rw [program, global]
  exact ⟨h.start, by rw [hrun]; exact h.stop, by rw [hrun]; exact h.steps⟩

/-- The guise of a core that has executed a block. -/
structure Worked (g g' : Guise) : Prop where
  mode : g'.mode = g.mode
  agree : g.Agree g'

/-- What a core that runs blocks does where a run of instructions begins. -/
structure Executes (m : Machine) (g : Guise) : Prop where
  done : ∀ m', stepAll ((m.runAt g.pc).steps.map (·.1)) m = (m', none) →
    ∃ g', Worked g g' ∧ g'.pc = (m.runAt g.pc).stop ∧ (m'.wearing g').Coherent ∧
      (m.wearing g).dispatchWith stepBlock = (m'.wearing g', none)
  failed : ∀ m' e, stepAll ((m.runAt g.pc).steps.map (·.1)) m = (m', some e) →
    ∃ g', Worked g g' ∧ (m.wearing g).dispatchWith stepBlock = (m'.wearing g', some e)

/-- A dispatch that finds its block steps through the instructions of the run. -/
theorem dispatch_cached {m : Machine} {g : Guise} {b : Block} (hmode : g.mode = .jit)
    (hb : b.start = g.pc) (found : g.cache.find? g.pc = some b) :
    (m.wearing g).dispatchWith stepBlock =
      match stepAll ((m.runAt g.pc).steps.map (·.1)) m with
      | (m', some e) => (m'.wearing (m.executing g.hit), some e)
      | (m', none) => (m'.wearing { m.executing g.hit with pc := b.stop }, none) := by
  unfold dispatchWith
  rw [show (m.wearing g).proc.mode = .jit from hmode,
    show (m.wearing g).core.cache.find? (m.wearing g).core.pc = some b from found]
  show (match (m.wearing g.hit).execute stepBlock b with
    | (m, some e) => (m, some e)
    | (m, none) => (m.setPc b.stop, none)) = _
  rw [execute_wearing m g.hit hb]
  generalize stepAll ((m.runAt g.pc).steps.map (·.1)) m = r
  obtain ⟨m', e⟩ := r
  cases e <;> rfl

/-- A block from the cache executes its instructions as an interpreting core does, one after the
other. -/
theorem executes_cached {m : Machine} {g : Guise} {b : Block} (hmode : g.mode = .jit)
    (coherent : (m.wearing g).Coherent) (found : g.cache.find? g.pc = some b) : Executes m g := by
  have hb : (m.wearing g).Compiled g.pc b := coherent.find? found
  have kept := kept_runAt m g.pc
  have hdispatch := dispatch_cached (m := m) hmode hb.start found
  constructor
  · intro m' h
    rw [h] at hdispatch kept
    refine ⟨{ m.executing g.hit with pc := b.stop }, ⟨rfl, ⟨rfl, rfl, rfl, rfl⟩⟩, hb.stop, ?_,
      hdispatch⟩
    intro e he
    exact (coherent e he).same kept.proc.program kept.proc.global
  · intro m' e h
    rw [h] at hdispatch
    exact ⟨m.executing g.hit, ⟨rfl, ⟨rfl, rfl, rfl, rfl⟩⟩, hdispatch⟩

/-- The guise of a core that has compiled a block. -/
def compiling (m : Machine) (g : Guise) (b : Block) : Guise :=
  { g with
    stats := { g.stats with compiled := g.stats.compiled + 1 }
    events := g.events.push (.compiled m.core.id b.insts b.code.size) }

/-- A block that is not there yet is kept in the guise. -/
theorem keep_wearing (m : Machine) {g : Guise} {b : Block} (h : g.cache.find? b.start = none) :
    keep b (m.wearing g) = (m.wearing (g.keeping b), none) := by
  unfold keep Cache.insert
  rw [show (m.wearing g).core.cache.find? b.start = none from h]
  rfl

/-- A dispatch that compiles its block announces it, steps through the run and keeps the block. -/
theorem dispatch_new {m : Machine} {g : Guise} {b : Block} {i : Inst} (hmode : g.mode = .jit)
    (hb : b.start = g.pc) (missing : g.cache.find? g.pc = none)
    (read : Isa.decode m.proc.program.code g.pc = .ok i) (hc : i.info.isControl = false)
    (made : (m.wearing g).compileHere = .ok b) :
    (m.wearing g).dispatchWith stepBlock =
      match stepAll ((m.runAt g.pc).steps.map (·.1)) m with
      | (m', some e) => (m'.wearing (m.executing (m.compiling g b)), some e)
      | (m', none) => (m'.wearing ((m.executing (m.compiling g b)).keeping b), none) := by
  unfold dispatchWith
  rw [show (m.wearing g).proc.mode = .jit from hmode,
    show (m.wearing g).core.cache.find? (m.wearing g).core.pc = none from missing]
  dsimp only
  unfold dispatchFresh
  rw [show Isa.decode (m.wearing g).proc.program.code (m.wearing g).core.pc = .ok i from read]
  simp only [hc, Bool.false_eq_true, ↓reduceIte, show (m.wearing g).proc.mode = .jit from hmode]
  unfold executeNew
  rw [made]
  show (match (m.wearing (m.compiling g b)).execute stepBlock b with
    | (m, some e) => (m, some e)
    | (m, none) => m.keep b) = _
  -- The block is run step by step, and what the modes count
  -- differently is put on again at the end.
  rw [execute_wearing m _ hb]
  generalize stepAll ((m.runAt g.pc).steps.map (·.1)) m = r
  obtain ⟨m', e⟩ := r
  cases e with
  | some e => rfl
  | none => exact keep_wearing m' (by rw [hb]; exact missing)

/-- A block that is compiled first executes them no differently, and is kept. -/
theorem executes_new {m : Machine} {g : Guise} {b : Block} {i : Inst} (hmode : g.mode = .jit)
    (coherent : (m.wearing g).Coherent) (hb : (m.wearing g).Compiled g.pc b)
    (missing : g.cache.find? g.pc = none)
    (read : Isa.decode m.proc.program.code g.pc = .ok i) (hc : i.info.isControl = false)
    (made : (m.wearing g).compileHere = .ok b) : Executes m g := by
  have kept := kept_runAt m g.pc
  have hdispatch := dispatch_new hmode hb.start missing read hc made
  constructor
  · intro m' h
    rw [h] at hdispatch kept
    refine ⟨(m.executing (m.compiling g b)).keeping b, ⟨rfl, ⟨rfl, rfl, rfl, rfl⟩⟩, hb.stop, ?_,
      hdispatch⟩
    intro e he
    rcases mem_insertInto he with rfl | he
    · rw [hb.start]
      exact hb.same kept.proc.program kept.proc.global
    · exact (coherent e he).same kept.proc.program kept.proc.global
  · intro m' e h
    rw [h] at hdispatch
    exact ⟨m.executing (m.compiling g b), ⟨rfl, ⟨rfl, rfl, rfl, rfl⟩⟩, hdispatch⟩

/-! ## The simulation -/

/-- Two cores at the same place of the same program: `a` interprets it and `b` runs blocks. -/
structure Twin (a b : Machine) : Prop where
  agree : Agree a b
  pc : b.core.pc = a.core.pc
  interprets : a.proc.mode = .interpret
  compiles : b.proc.mode = .jit
  coherent : b.Coherent
  code : a.proc.program.code.size < 2 ^ 63
  canceled : a.proc.canceled = false
  cancelAfter : a.proc.cancelAfter = 0

/-- What one dispatch of `b` means for `a`. -/
inductive TwinStep (exec : Executor) (a b : Machine) : Prop
  | advance {n : Nat} {a' b' : Machine} (some : 0 < n) (interpreted : Advances exec n a a')
      (executed : b.dispatchWith stepBlock = (b', none)) (twin : Twin a' b') : TwinStep exec a b
  | stop {n : Nat} {a' b' : Machine} {e : Stop} (interpreted : Ends exec n a a' (.stopped e))
      (executed : b.dispatchWith stepBlock = (b', some e)) (agree : Agree a' b') :
      TwinStep exec a b
  | memory {b' : Machine} {e : Stop} (executed : b.dispatchWith stepBlock = (b', some e))
      (failure : IsCodeMemoryFailure e) : TwinStep exec a b

/-- A block is its instructions, for both cores. -/
theorem Twin.block {exec : Executor} {a b : Machine} (h : Twin a b)
    (executes : Executes a b.guise) (steps : (a.runAt a.core.pc).steps ≠ []) :
    TwinStep exec a b := by
  have hb := h.agree.eq_wearing
  have hpc : b.guise.pc = a.core.pc := h.pc
  have interprets := interpret_run exec (a.proc.program.code.size + 1) h.interprets
  have kept := kept_runAt a a.core.pc
  cases hs : stepAll ((a.runAt a.core.pc).steps.map (·.1)) a with
  | mk m e =>
    rw [hs] at kept
    cases e with
    | none =>
      -- One core takes as many dispatches as the block has instructions, the other takes one.
      obtain ⟨g, hg, hgpc, hadv⟩ := interprets.done m hs
      obtain ⟨g', hw, hg'pc, hcoh, hdispatch⟩ := executes.done m (by rw [hpc]; exact hs)
      rw [← hb] at hdispatch
      refine .advance (List.length_pos_iff.mpr steps) hadv hdispatch ?_
      have hagree : g.Agree g' := (hg.agree.trans h.agree.guise).trans hw.agree
      refine ⟨agree_wearing m hagree, ?_, ?_, ?_, hcoh, ?_, ?_, ?_⟩
      · show g'.pc = g.pc
        rw [hg'pc, hgpc, hpc]
        rfl
      · show g.mode = .interpret
        rw [hg.eq]
        exact h.interprets
      · exact hw.mode.trans h.compiles
      · show m.proc.program.code.size < 2 ^ 63
        rw [kept.proc.program]
        exact h.code
      · show g.canceled = false
        rw [hg.eq]
        exact h.canceled
      · show g.cancelAfter = 0
        rw [hg.eq]
        exact h.cancelAfter
    | some e =>
      obtain ⟨g, n, hg, hends⟩ := interprets.failed m e hs
      obtain ⟨g', hw, hdispatch⟩ := executes.failed m e (by rw [hpc]; exact hs)
      rw [← hb] at hdispatch
      exact .stop hends hdispatch
        (agree_wearing m ((hg.agree.trans h.agree.guise).trans hw.agree))

/-- The guise of a core that has made a control transfer. -/
def accounting (m : Machine) (g : Guise) (i : Inst) : Guise :=
  { g with
    stats := { g.stats with controls := g.stats.controls + 1 }
    events := g.events.push (.control m.core.id i.family)
    transfers := g.transfers + 1
    canceled := g.canceled || g.transfers + 1 == g.cancelAfter }

theorem account_wearing (m : Machine) (g : Guise) (i : Inst) :
    (m.wearing g).account i = m.wearing (m.accounting g i) := rfl

/-- Accounting for a transfer keeps machines in agreement. -/
theorem agree_accounting (m : Machine) {g g' : Guise} (h : g.Agree g') (i : Inst) :
    (m.accounting g i).Agree (m.accounting g' i) := by
  unfold accounting
  refine ⟨?_, ?_, h.cancelAfter, ?_⟩
  · show g'.stats.controls + 1 = g.stats.controls + 1
    rw [h.controls]
  · show g'.transfers + 1 = g.transfers + 1
    rw [h.transfers]
  · show (g'.canceled || g'.transfers + 1 == g'.cancelAfter)
      = (g.canceled || g.transfers + 1 == g.cancelAfter)
    rw [h.canceled, h.transfers, h.cancelAfter]

/-- Both cores make the same control transfer. -/
theorem Twin.control {exec : Executor} {a b : Machine} {i : Inst} (h : Twin a b)
    (running : 0 ≤ a.core.pc) (hc : i.info.isControl = true)
    (ha : a.dispatchWith exec = a.control i) (hb : b.dispatchWith stepBlock = b.control i) :
    TwinStep exec a b := by
  have heq := h.agree.eq_wearing
  have hown := jump_wearing a a.guise i
  have hother := jump_wearing a b.guise i
  have kept := (jumped a hc).kept
  rw [wearing_guise] at hown
  rw [← heq] at hother
  unfold Machine.control at ha hb
  cases hj : a.jump i with
  | mk m e =>
    rw [hj] at ha kept
    rw [hj] at hown hother
    cases e with
    | some e =>
      -- A jump that fails stops both cores with the same fault.
      rw [hother] at hb
      refine .stop (.stopped running ha) hb ?_
      rw [show m = m.wearing a.guise from congrArg Prod.fst hown]
      exact agree_wearing m h.agree.guise
    | none =>
      rw [hother] at hb
      refine .advance Nat.one_pos (.single running ha) hb ?_
      have hm : m = m.wearing { a.guise with pc := m.core.pc } := congrArg Prod.fst hown
      have hagree : ({ a.guise with pc := m.core.pc } : Guise).Agree
          { b.guise with pc := m.core.pc } :=
        ⟨h.agree.guise.1, h.agree.guise.2, h.agree.guise.3, h.agree.guise.4⟩
      rw [account_wearing]
      rw [hm, account_wearing]
      refine ⟨agree_wearing _ (agree_accounting _ hagree i), rfl, h.interprets, h.compiles, ?_, ?_,
        ?_, h.cancelAfter⟩
      · intro e he
        refine (h.coherent e he).same ?_ ?_
        · rw [h.agree.proc]
          exact kept.proc.program
        · rw [h.agree.proc]
          exact kept.proc.global
      · show m.proc.program.code.size < 2 ^ 63
        rw [kept.proc.program]
        exact h.code
      · show (a.proc.canceled || a.proc.transfers + 1 == a.proc.cancelAfter) = false
        rw [h.canceled, h.cancelAfter]
        rfl

/-- A core that runs blocks looks at an instruction that is in no cached block. -/
theorem dispatch_missing {exec : Executor} {b : Machine}
    (missing : b.core.cache.find? b.core.pc = none) :
    b.dispatchWith exec = b.dispatchFresh exec := by
  unfold dispatchWith
  rw [missing]
  cases b.proc.mode <;> rfl

theorem dispatch_interpreting {exec : Executor} {a : Machine} (h : a.proc.mode = .interpret) :
    a.dispatchWith exec = a.dispatchFresh exec := by
  unfold dispatchWith
  rw [h]

/-- Where a decoded instruction gives no run, its preparation failed. -/
theorem reason_of_empty {a : Machine} {i : Inst} (hcode : a.proc.program.code.size < 2 ^ 63)
    (read : Isa.decode a.proc.program.code a.core.pc = .ok i) (hc : i.info.isControl = false)
    (empty : (a.runAt a.core.pc).steps = []) :
    ∃ e, Action.ofInst i (Int64.ofNat a.proc.global.size) = .error e ∧
      (a.runAt a.core.pc).reason = some e := by
  have hi := Isa.decode_eq_ok read
  have hlo := toInt_nonneg_iff.mp hi.nonneg
  have hin : a.core.pc.toInt.toNat + 2 ≤ a.proc.program.code.size := hi.inside
  have hlt : a.core.pc < Int64.ofNat a.proc.program.code.size := by
    rw [Int64.lt_iff_toInt_lt, Int64.toInt_ofNat_of_lt hcode]
    omega
  unfold runAt Run.at Run.take at empty ⊢
  rw [if_pos hlt] at empty ⊢
  simp only [read, hc, Bool.false_eq_true, ↓reduceIte] at empty ⊢
  cases ha : Action.ofInst i (Int64.ofNat a.proc.global.size) with
  | error e => exact ⟨e, rfl, rfl⟩
  | ok action =>
    rw [ha] at empty
    cases empty

/-- One dispatch of the core that runs blocks. -/
theorem Twin.dispatch {a b : Machine} (h : Twin a b) (exec : Executor)
    (running : 0 ≤ a.core.pc) : TwinStep exec a b := by
  have heq := h.agree.eq_wearing
  have hprogram : b.proc.program = a.proc.program := by rw [h.agree.proc]
  have hglobal : b.proc.global = a.proc.global := by rw [h.agree.proc]
  have hcoherent : (a.wearing b.guise).Coherent := heq ▸ h.coherent
  have hrun : b.runAt b.core.pc = a.runAt a.core.pc := by
    unfold runAt
    rw [hprogram, hglobal, h.pc]
  cases found : b.core.cache.find? b.core.pc with
  | some blk =>
    -- A block from the cache is the run that starts here, however long ago it was compiled.
    refine h.block (executes_cached h.compiles hcoherent found) ?_
    rw [← hrun]
    exact (h.coherent.find? found).steps
  | none =>
    have ha : a.dispatchWith exec = a.dispatchFresh exec := dispatch_interpreting h.interprets
    have hb : b.dispatchWith stepBlock = b.dispatchFresh stepBlock := dispatch_missing found
    unfold dispatchFresh at ha hb
    rw [hprogram, h.pc] at hb
    cases read : Isa.decode a.proc.program.code a.core.pc with
    | error e =>
      rw [read] at ha hb
      exact .stop (.stopped running ha) hb h.agree
    | ok i =>
      simp only [read] at ha hb
      cases hc : i.info.isControl with
      | true =>
        rw [if_pos hc] at ha hb
        exact h.control running hc ha hb
      | false =>
        rw [if_neg (by rw [hc]; decide)] at ha hb
        rw [h.compiles] at hb
        have hat : Run.at b.proc.program.code b.codeTarget.globalSize b.core.pc
            = a.runAt a.core.pc := hrun
        rcases compile_cases b.proc.exec b.proc.program.code b.codeTarget b.proc.increment
          b.core.pc with ⟨blk, made, hblk⟩ | ⟨empty, failed⟩ | ⟨e, failure, failed⟩
        · have made' : (a.wearing b.guise).compileHere = .ok blk := heq ▸ made
          have hcompiled : b.Compiled b.core.pc blk := ⟨hblk.start_eq, hblk.stop_eq, hblk.steps_ne⟩
          refine h.block (executes_new h.compiles hcoherent ?_ found ?_ hc made') ?_
          · exact hcompiled.same hprogram.symm hglobal.symm
          · show Isa.decode a.proc.program.code b.core.pc = .ok i
            rw [h.pc]
            exact read
          · rw [← hrun]
            exact hblk.steps_ne
        -- Nothing could be compiled: the reason is the error that a step ends with.
        · rw [hat] at empty failed
          obtain ⟨e, he, hreason⟩ := reason_of_empty h.code read hc empty
          have hstep := dispatch_interpret exec h.interprets read hc
          unfold step at hstep
          rw [he] at hstep
          unfold executeNew compileHere at hb
          rw [failed, hreason] at hb
          refine .stop (.stopped running hstep) hb ?_
          rw [heq]
          exact agree_wearing a ⟨h.agree.guise.1, h.agree.guise.2, h.agree.guise.3, h.agree.guise.4⟩
        · unfold executeNew compileHere at hb
          rw [failed] at hb
          exact .memory hb failure

/-! ## Whole runs -/

/-- Machines at the end of two runs: they agree, and if they have halted they do so in the same
place. -/
structure EndAgree (o : Outcome) (a b : Machine) : Prop where
  agree : Agree a b
  pc : o = .halted → b.core.pc = a.core.pc

/-- The run of blocks never ends for want of executable memory. -/
def Supplied (b : Machine) : Prop :=
  ∀ n b' e, Ends stepBlock n b b' (.stopped e) → ¬ IsCodeMemoryFailure e

/-- As long as no mapping is refused, the next step finds code memory too. -/
theorem Supplied.step {b b' : Machine} (h : b.Supplied) (running : 0 ≤ b.core.pc)
    (done : b.dispatchWith stepBlock = (b', none)) : b'.Supplied :=
  fun n x e hends => h (n + 1) x e (.step running done hends)

/-- If the interpreting core ends, so does the one that runs blocks. The induction is on the
dispatches that the interpreting core has left: a block uses up at least one of them. -/
theorem Twin.executes {exec : Executor} {a b a' : Machine} {n : Nat} {o : Outcome}
    (h : Twin a b) (supplied : b.Supplied) (ends : Ends exec n a a' o) :
    ∃ k b', Ends stepBlock k b b' o ∧ EndAgree o a' b' := by
  -- One dispatch of the compiled side may stand for many steps of the interpreted one.
  induction n using Nat.strongRecOn generalizing a b with
  | _ n ih =>
    by_cases running : 0 ≤ a.core.pc
    · have running' : 0 ≤ b.core.pc := h.pc ▸ running
      cases h.dispatch exec running with
      | @advance m a₁ b₁ some interpreted executed twin =>
        obtain ⟨r, rfl, hrest⟩ := ends.split interpreted
        obtain ⟨k, b', hk, hagree⟩ := ih r (by omega) twin (supplied.step running' executed) hrest
        exact ⟨k + 1, b', .step running' executed hk, hagree⟩
      | @stop m x y e interpreted executed agree =>
        obtain ⟨-, rfl, rfl⟩ := ends.unique interpreted
        refine ⟨0, y, .stopped running' executed, agree, ?_⟩
        intro ho
        cases ho
      | memory executed failure =>
        exact absurd failure (supplied 0 _ _ (.stopped running' executed))
    · have halted := Int64.not_le.mp running
      obtain ⟨-, rfl, rfl⟩ := ends.unique (.halted halted)
      exact ⟨0, b, .halted (h.pc ▸ halted), h.agree, fun _ => h.pc⟩

/-- If the core that runs blocks ends, so does the interpreting one. -/
theorem Twin.interprets_of_ends {exec : Executor} {a b b' : Machine} {n : Nat} {o : Outcome}
    (h : Twin a b) (supplied : b.Supplied) (ends : Ends stepBlock n b b' o) :
    ∃ k a', Ends exec k a a' o ∧ EndAgree o a' b' := by
  induction ends generalizing a with
  | halted halted => exact ⟨0, a, .halted (h.pc ▸ halted), h.agree, fun _ => h.pc⟩
  | stopped running failed =>
    cases h.dispatch exec (h.pc ▸ running) with
    | advance _ _ executed _ =>
      rw [failed] at executed
      cases executed
    | stop interpreted executed agree =>
      rw [failed] at executed
      cases executed
      refine ⟨_, _, interpreted, agree, ?_⟩
      intro ho
      cases ho
    -- The host supplies code memory, so this way to stop is ruled out.
    | memory executed failure =>
      exact absurd failure (supplied 0 _ _ (.stopped running executed))
  | step running done _ ih =>
    cases h.dispatch exec (h.pc ▸ running) with
    | advance _ interpreted executed twin =>
      rw [done] at executed
      cases executed
      obtain ⟨k, a', hk, hagree⟩ := ih twin (supplied.step running done)
      exact ⟨_, a', interpreted.ends hk, hagree⟩
    | stop _ executed _ =>
      rw [done] at executed
      cases executed
    | memory executed _ =>
      rw [done] at executed
      cases executed

/-! ## Runs from the start -/

/-- Another mode makes the same process in that mode. -/
theorem new_mode {program : Program} {o : Options} {p : Proc} (mode : Mode)
    (h : Proc.new program o = .ok p) :
    Proc.new program { o with mode := mode } = .ok { p with mode := mode } := by
  unfold Proc.new at h ⊢
  dsimp only
  split at h
  · cases h
  · cases h
    rfl

theorem newCore_eq_ok {p p' : Proc} {c : Core} {start : Int64} {param : UInt64}
    (h : p.newCore start param = (p', .ok c)) :
    p'.transfers = p.transfers ∧ p'.cancelAfter = p.cancelAfter ∧ p'.canceled = p.canceled ∧
      p'.events = p.events ∧ c.cache = {} := by
  unfold Proc.newCore at h
  dsimp only at h
  split at h
  · cases h
  · cases h
    exact ⟨rfl, rfl, rfl, rfl, rfl⟩

/-- The first cores of a program in the two modes are twins. -/
theorem twin_boot {program : Program} {o : Options} {start : Int64} {param : UInt64} {a b : Machine}
    (hcode : program.code.size < 2 ^ 63) (hcancel : o.cancelAfter = 0)
    (ha : boot program { o with mode := .interpret } start param = .ok a)
    (hb : boot program { o with mode := .jit } start param = .ok b) : Twin a b := by
  obtain ⟨p, hp, made⟩ := boot_eq_ok ha
  obtain ⟨p', hp', made'⟩ := boot_eq_ok hb
  obtain ⟨hprogram, hmode, hcancelAfter, hcanceled⟩ := new_eq_ok hp
  obtain ⟨htransfers, hcancelAfter', hcanceled', hevents, hcache⟩ := newCore_eq_ok made
  have same := p.sameProgram_newCore start param
  rw [made] at same
  -- The second process is the first one in another guise, and so is its core.
  have hother : p' = p.wearing
      ⟨0, {}, {}, .jit, a.proc.events, a.proc.transfers, a.proc.cancelAfter, a.proc.canceled⟩ := by
    have hjit := new_mode .jit hp
    rw [hp'] at hjit
    rw [Except.ok.inj hjit]
    unfold Proc.wearing
    rw [htransfers, hcancelAfter', hcanceled', hevents]
  rw [hother, Proc.newCore_wearing, made] at made'
  obtain ⟨hproc, hcore⟩ := Prod.mk.inj made'
  have hcore := Except.ok.inj hcore
  refine ⟨⟨?_, ?_, ?_⟩, ?_, same.mode.trans hmode, ?_, ?_, ?_, hcanceled'.trans hcanceled,
    hcancelAfter'.trans (hcancelAfter.trans hcancel)⟩
  · rw [← hcore]
  · rw [← hproc]
    rfl
  · rw [← hcore]
  · rw [← hcore]
  · rw [← hproc]
    rfl
  · intro e he
    rw [← hcore, hcache] at he
    cases he
  · rw [same.program, hprogram]
    exact hcode

/-- A core that interprets and is never told to give up. -/
structure Calm (m : Machine) : Prop where
  interprets : m.proc.mode = .interpret
  canceled : m.proc.canceled = false
  cancelAfter : m.proc.cancelAfter = 0

/-- A transfer by itself keeps the calm; only its accounting could end it. -/
theorem Jumped.calm {m m' : Machine} {i : Inst} {e : Option Stop} (h : Jumped m i m' e)
    (hm : m.Calm) : m'.Calm := by
  cases h <;> exact ⟨hm.1, hm.2, hm.3⟩

/-- A dispatch keeps the calm: no cancellation is due at any transfer. -/
theorem Calm.dispatch {exec : Executor} {m m' : Machine} (h : m.Calm)
    (done : m.dispatchWith exec = (m', none)) : m'.Calm := by
  have hd := dispatched h.interprets exec
  rw [done] at hd
  cases hd with
  | @jumped i m₁ read made =>
    have hm := made.calm h
    refine ⟨hm.interprets, ?_, hm.cancelAfter⟩
    show (m₁.proc.canceled || m₁.proc.transfers + 1 == m₁.proc.cancelAfter) = false
    rw [hm.canceled, hm.cancelAfter]
    rfl
  | @stepped i m₁ read made =>
    have hguise := guise_step m.countInterpreted i
    rw [made] at hguise
    exact ⟨(congrArg Guise.mode hguise).trans h.interprets,
      (congrArg Guise.canceled hguise).trans h.canceled,
      (congrArg Guise.cancelAfter hguise).trans h.cancelAfter⟩

/-- Machines that agree still do so in guises that agree. -/
theorem Agree.wearing {a b : Machine} (h : Agree a b) (g g' : Guise) (hg : g.Agree g') :
    Agree (a.wearing g) (b.wearing g') := by
  rw [h.eq_wearing]
  exact agree_wearing a hg

theorem Agree.begin {a b : Machine} (h : Agree a b) : Agree a.begin b.begin :=
  h.wearing a.begin.guise b.begin.guise ⟨h.guise.1, h.guise.2, h.guise.3, h.guise.4⟩

theorem Agree.finish {a b : Machine} (h : Agree a b) (error : Option Stop) :
    Agree (a.finish error) (b.finish error) :=
  h.wearing (a.finish error).guise (b.finish error).guise
    ⟨h.guise.1, h.guise.2, h.guise.3, h.guise.4⟩

theorem Twin.begin {a b : Machine} (h : Twin a b) : Twin a.begin b.begin :=
  ⟨h.agree.begin, h.pc, h.interprets, h.compiles, fun e he => (h.coherent e he).same rfl rfl,
    h.code, h.canceled, h.cancelAfter⟩

/-- Runs that end in agreement are concluded in agreement. -/
theorem EndAgree.concluded {o : Outcome} {a b : Machine} (h : EndAgree o a b) :
    EndAgree o (a.concluded o) (b.concluded o) := by
  cases o with
  | halted => exact ⟨h.agree.finish none, fun _ => h.pc rfl⟩
  | stopped e => exact ⟨h.agree.finish (some e), fun ho => by cases ho⟩
  | unfinished => exact h

/-- The ends of an interpreted run with a bound are the ends of the run. -/
theorem runFor_interpret_iff {exec : Executor} {a a' : Machine} {o : Outcome} (h : a.Calm)
    (ho : o ≠ .unfinished) :
    (∃ fuel, a.runFor exec fuel = (a', o)) ↔
      ∃ k x, Ends exec k a.begin x o ∧ a' = x.concluded o :=
  runFor_iff_ends (P := Calm) (fun _ hm => hm.canceled) (fun _ _ hm _ done => hm.dispatch done)
    ⟨h.interprets, h.canceled, h.cancelAfter⟩ ho

/-- The ends of a run of blocks with a bound are the ends of the run: a twin is never told to give
up. -/
theorem runFor_stepBlock_iff {a b b' : Machine} {o : Outcome} (h : Twin a b)
    (ho : o ≠ .unfinished) :
    (∃ fuel, b.runFor stepBlock fuel = (b', o)) ↔
      ∃ k x, Ends stepBlock k b.begin x o ∧ b' = x.concluded o := by
  refine runFor_iff_ends (P := fun b => ∃ a, Twin a b) ?_ ?_ ⟨a.begin, h.begin⟩ ho
  · rintro b ⟨a, h⟩
    rw [h.agree.proc]
    exact h.canceled
  · rintro b b₁ ⟨a, h⟩ running done
    cases h.dispatch stepBlock (h.pc ▸ running) with
    | advance _ _ executed twin =>
      rw [done] at executed
      cases executed
      exact ⟨_, twin⟩
    | stop _ executed _ =>
      rw [done] at executed
      cases executed
    | memory executed _ =>
      rw [done] at executed
      cases executed

/-- The two modes agree. Take the execution of a block to be its instructions, and a program and
options with which no run of blocks ends for want of executable memory and nothing is told to give
up. Then a run in one mode ends if and only if the run in the other one does, for the same reason;
the machines then differ only in how they ran, and in their addresses only if they failed. -/
theorem modes_agree {program : Program} {o : Options} {start : Int64} {param : UInt64}
    {a b : Machine} {r : Outcome} (hcode : program.code.size < 2 ^ 63)
    (hcancel : o.cancelAfter = 0)
    (ha : boot program { o with mode := .interpret } start param = .ok a)
    (hb : boot program { o with mode := .jit } start param = .ok b)
    (hmemory : ∀ fuel b' e, b.runFor stepBlock fuel = (b', .stopped e) → ¬ IsCodeMemoryFailure e)
    (hr : r ≠ .unfinished) :
    (∀ fuel a', a.runFor runBlock fuel = (a', r) →
      ∃ fuel' b', b.runFor stepBlock fuel' = (b', r) ∧ EndAgree r a' b') ∧
    (∀ fuel b', b.runFor stepBlock fuel = (b', r) →
      ∃ fuel' a', a.runFor runBlock fuel' = (a', r) ∧ EndAgree r a' b') := by
  have twin := twin_boot hcode hcancel ha hb
  have calm : a.Calm := ⟨twin.interprets, twin.canceled, twin.cancelAfter⟩
  -- A lack of code memory anywhere in the run would be its end.
  have supplied : b.begin.Supplied := by
    intro n b' e hends
    have hne : Outcome.stopped e ≠ .unfinished := by
      intro h
      cases h
    obtain ⟨fuel, hrun⟩ := (runFor_stepBlock_iff twin hne).mpr ⟨n, b', hends, rfl⟩
    exact hmemory fuel _ e hrun
  constructor
  · intro fuel a' h
    obtain ⟨k, x, hends, rfl⟩ := (runFor_interpret_iff calm hr).mp ⟨fuel, h⟩
    obtain ⟨k', y, hends', agree⟩ := twin.begin.executes supplied hends
    obtain ⟨fuel', hrun⟩ := (runFor_stepBlock_iff twin hr).mpr ⟨k', y, hends', rfl⟩
    exact ⟨fuel', _, hrun, agree.concluded⟩
  · intro fuel b' h
    obtain ⟨k, y, hends, rfl⟩ := (runFor_stepBlock_iff twin hr).mp ⟨fuel, h⟩
    obtain ⟨k', x, hends', agree⟩ := twin.begin.interprets_of_ends supplied hends
    obtain ⟨fuel', hrun⟩ := (runFor_interpret_iff calm hr).mpr ⟨k', x, hends', rfl⟩
    exact ⟨fuel', _, hrun, agree.concluded⟩

/-- A program that counts down from 3: a subtraction, a jump out of the loop and one back into
it. -/
def countsDown : Program where
  header := ⟨64, 64, 0, 0⟩
  code := #[0x09, 0x00, 0x00, 0x03, 0x00, 0x00, 0x00, 0x22, 0x00, 0x00, 0x01, 0x00, 0x00, 0x00,
    0x84, 0x01, 0x00, 0x06, 0x00, 0x00, 0x00, 0x82, 0x01, 0xec, 0xff, 0xff, 0xff, 0x86, 0x01]
  global := []

/-- The block at the start of `countsDown` and the one inside the loop overlap, and the second one
is executed twice. -/
theorem run_countsDown : ∃ b b', boot countsDown { mode := .jit } 0 0 = .ok b ∧
    b.runFor stepBlock 10 = (b', .halted) ∧ b'.core.cache.entries.map (·.1) = [0, 7] ∧
    b'.core.stats.hits = 1 := by
  have run : ((boot countsDown { mode := .jit } 0 0).toOption.any fun b =>
      let (b', o) := b.runFor stepBlock 10
      o = .halted ∧ b'.core.cache.entries.map (·.1) = [0, 7] ∧ b'.core.stats.hits = 1) = true := by
    decide +kernel
  obtain ⟨b, hb, run⟩ := exists_of_any run
  obtain ⟨halted, entries, hits⟩ := of_decide_eq_true run
  exact ⟨b, _, hb, Prod.ext rfl halted, entries, hits⟩

/-- The run of blocks of `countsDown` is that of its instructions. -/
theorem modes_agree_countsDown :
    ∃ a b fuel a' fuel' b', boot countsDown { mode := .interpret } 0 0 = .ok a ∧
      boot countsDown { mode := .jit } 0 0 = .ok b ∧ a.runFor runBlock fuel = (a', .halted) ∧
      b.runFor stepBlock fuel' = (b', .halted) ∧ b'.core.cache.entries.map (·.1) = [0, 7] ∧
      b'.core.stats.hits = 1 ∧ EndAgree .halted a' b' := by
  obtain ⟨b, b', hb, hrun, hentries, hhits⟩ := run_countsDown
  obtain ⟨a, ha⟩ : ∃ a, boot countsDown { mode := .interpret } 0 0 = .ok a := ⟨_, rfl⟩
  have twin := @twin_boot countsDown {} 0 0 a b (by decide) rfl ha hb
  have halts : Outcome.halted ≠ .unfinished := by
    intro h
    cases h
  obtain ⟨_, y, hy, -⟩ := (runFor_stepBlock_iff twin halts).mp ⟨10, hrun⟩
  -- The run has one end, and that one is not for want of memory.
  have hmemory : ∀ fuel b' e, b.runFor stepBlock fuel = (b', .stopped e) →
      ¬ IsCodeMemoryFailure e := by
    intro fuel b' e h
    obtain ⟨_, z, hz, -⟩ := (runFor_stepBlock_iff twin (by intro h; cases h)).mp ⟨fuel, h⟩
    cases (hz.unique hy).2.2
  obtain ⟨fuel, a', hrun', agree⟩ := (@modes_agree countsDown {} 0 0 a b .halted (by decide) rfl
    ha hb hmemory halts).2 10 b' hrun
  exact ⟨a, b, fuel, a', 10, b', ha, hb, hrun', hrun, hentries, hhits, agree⟩

end Machine

end BlockVM
