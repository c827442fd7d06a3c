import BlockVM.Proofs.Machine.Faults

/-!
# Failed dispatches change nothing

A dispatch that fails reports a fault at the address of the core and leaves the machine as it was,
but for the statistics of the core and the history of the calls that devices got: a device that
refuses a request has been asked. `interpret_fails_atomically` says so for every state that an
interpreting core can reach.

Several instructions have effects before their last check, so this is no property of the single
instruction: on a sound machine the checks that come late never fail.
-/

namespace BlockVM

open Isa (Inst)

namespace Machine

/-- Nothing changed but the statistics of the core and the history of device calls. -/
structure Untouched (m m' : Machine) : Prop where
  core : m'.core = { m.core with stats := m'.core.stats }
  proc : m'.proc = { m.proc with
    devices := { m.proc.devices with
      recorder := { m.proc.devices.recorder with calls := m'.proc.devices.recorder.calls } } }

theorem Untouched.refl (m : Machine) : Untouched m m := ⟨rfl, rfl⟩

/-- What failed is a fault at `pc` and left the machine untouched. -/
def FailsCleanly (pc : Int64) (m : Machine) (r : Machine × Option Stop) : Prop :=
  ∀ e, r.2 = some e → e.IsFaultAt pc ∧ Untouched m r.1

variable {m : Machine} {i : Inst}

namespace FailsCleanly

/-- Nothing is said of what does not fail. -/
theorem done {pc : Int64} {r : Machine × Option Stop} (h : r.2 = none) : FailsCleanly pc m r := by
  intro e he
  rw [h] at he
  cases he

/-- Nothing was done before the check that fails. -/
theorem refused {pc : Int64} {e : Stop} (h : e.IsFaultAt pc) : FailsCleanly pc m (m, some e) := by
  intro e' he
  cases he
  exact ⟨h, .refl m⟩

/-- A request of the instruction is refused. -/
theorem request {pc : Int64} {r : Machine × Option Failure} {fault : Failure → Stop}
    (hfault : ∀ f, (fault f).IsFaultAt pc) (h : ∀ f, r.2 = some f → Untouched m r.1) :
    FailsCleanly pc m (r.1, r.2.map fault) := by
  intro e he
  obtain ⟨f, hf, rfl⟩ := Option.map_eq_some_iff.mp he
  exact ⟨hfault f, h f hf⟩

end FailsCleanly

/-- A step that is committed as a whole fails without a trace. -/
theorem failsCleanly_commit {r : Except Stop Machine} (h : FaultsAt i.pc r) :
    FailsCleanly i.pc m (m.commit r) := by
  cases r with
  | ok m' => exact .done rfl
  | error e => exact .refused (h e rfl)

/-! ## The stack -/

/-- A push writes register after register, but a range that does not fit is refused before the
first. -/
theorem failsCleanly_push {r : RegRange} (hs : m.OnSlot) (small : m.core.stack.size < 2 ^ 32)
    (hr : r.first.toNat + r.count ≤ 256) : FailsCleanly i.pc m (m.push i r) := by
  by_cases room : m.core.stack.inBounds m.core.regs.sp (Int64.ofNat r.bytes) = true
  · exact .done
      (push_snd room (storeRange_snd _ _ _ _ (by omega) hs.nonneg (hs.room small hr room)))
  · unfold push
    dsimp only
    rw [if_neg room]
    exact .refused rfl

theorem failsCleanly_pop {r : RegRange} (hs : m.OnSlot) (small : m.core.stack.size < 2 ^ 32)
    (hr : r.first.toNat + r.count ≤ 256) : FailsCleanly i.pc m (m.pop i r) := by
  by_cases held : m.core.stack.inBounds (m.core.regs.sp - Int64.ofNat r.bytes)
      (Int64.ofNat r.bytes) = true
  · obtain ⟨hstart, hfit⟩ := hs.held small hr held
    exact .done (pop_snd held (loadRange_snd _ _ _ _ (by omega) hstart hfit))
  · unfold pop
    dsimp only
    rw [if_neg held]
    exact .refused rfl

/-! ## Services -/

/-- The ports that answer a request exist. -/
theorem reply_snd (m : Machine) {p : UInt32} {w : Int64} (v : UInt64)
    (h : Bank.span p w = .ok ()) : (m.reply p w v).2 = none := by
  unfold reply Bank.store
  rw [h]
  rfl

/-- A refused request to the device leaves the memory untouched. -/
theorem request_refused {r : GpuRequest} {f : Failure} (h : (m.request r).2 = some f) :
    Untouched m (m.request r).1 := by
  unfold request Devices.request at h ⊢
  dsimp only at h ⊢
  split
  · exact ⟨rfl, rfl⟩
  next hnone =>
    rw [hnone] at h
    cases h

/-- A handler that fails has changed nothing: one case for each handler. -/
theorem serve_failed {h : CorePort} {v : UInt64} {f : Failure} (hf : (m.serve h v).2 = some f) :
    Untouched m (m.serve h v).1 := by
  unfold serve at hf ⊢
  -- Only the requests to the graphics device can fail, and a refused one changes nothing.
  cases h with
  | framebufferIn => exact request_refused hf
  | framebufferOut => exact request_refused hf
  | gpuCommand => exact request_refused hf
  | keyboard =>
    dsimp only at hf
    rw [reply_snd _ _ rfl] at hf
    cases hf
  | makeHeap =>
    dsimp only at hf
    rw [reply_snd _ _ rfl] at hf
    cases hf
  | destroyHeap => cases hf
  | threadCreate =>
    dsimp only at hf ⊢
    split
    · exact .refl m
    next param hread =>
      rw [hread] at hf
      dsimp only at hf
      rw [reply_snd _ _ rfl] at hf
      cases hf

theorem output_failed {p : UInt32} {w : Nat} {v : UInt64} {f : Failure}
    (hf : (m.output p w v).2 = some f) : Untouched m (m.output p w v).1 := by
  unfold output at hf ⊢
  split
  · exact .refl m
  next hw =>
    rw [hw] at hf
    cases hf
  next h value hw =>
    rw [hw] at hf
    dsimp only at hf ⊢
    obtain ⟨f', hf', -⟩ := Option.map_eq_some_iff.mp hf
    exact serve_failed hf'

theorem failsCleanly_service (hp : m.proc.Sound) (s : Service) :
    FailsCleanly i.pc m (m.service i s) := by
  cases s with
  | output port value width =>
    unfold service
    dsimp only
    cases hargs : m.outputArgs i port value with
    | error e => exact .refused (faultsAt_outputArgs hp i port value e hargs)
    | ok pv => exact .request (fun _ => rfl) fun _ => output_failed
  | input dst port width =>
    apply failsCleanly_commit
    refine (faultsAt_port hp i port).bind fun p _ => ?_
    exact FaultsAt.bind (.portFault _) fun v _ => faultsAt_write hp i dst v
  | foutput port value =>
    apply failsCleanly_commit
    refine (faultsAt_port hp i port).bind fun p _ => ?_
    refine (faultsAt_readF hp i value).bind fun bits _ => ?_
    exact FaultsAt.bind (.portFault _) fun ports _ => .ok _
  | finput dst port =>
    apply failsCleanly_commit
    refine (faultsAt_port hp i port).bind fun p _ => ?_
    exact FaultsAt.bind (.portFault _) fun bits _ => faultsAt_writeF hp i dst bits
  | draw x y image =>
    unfold service draw
    dsimp only
    cases hcall : m.drawCall i x y image with
    | error e => exact .refused (faultsAt_drawCall i x y image e hcall)
    | ok call => exact .request (fun _ => rfl) fun _ => request_refused
  | time | sleep | rand => exact .done rfl

/-! ## Steps -/

theorem failsCleanly_perform {a : Action} (hp : m.proc.Sound) (hs : m.OnSlot)
    (small : m.core.stack.size < 2 ^ 32) (ha : a.Lawful) :
    FailsCleanly i.pc m (m.perform i a) := by
  cases a with
  | move dst src =>
    apply failsCleanly_commit
    exact (faultsAt_read hp i src).bind fun v _ => faultsAt_write hp i dst v
  | arith op dst src =>
    apply failsCleanly_commit
    refine (faultsAt_read hp i dst).bind fun a _ => ?_
    refine (faultsAt_read hp i src).bind fun b _ => ?_
    exact (faultsAt_arith i op dst.width a b).bind fun v _ => faultsAt_write hp i dst v
  | compare rel dst src =>
    apply failsCleanly_commit
    refine (faultsAt_read hp i dst).bind fun a _ => ?_
    exact (faultsAt_read hp i src).bind fun b _ => faultsAt_write hp i dst _
  | fcompare rel dst a b => exact failsCleanly_commit (faultsAt_write hp i dst _)
  | fmove dst src =>
    apply failsCleanly_commit
    exact (faultsAt_readF hp i src).bind fun v _ => faultsAt_writeF hp i dst v
  | farith op dst src =>
    apply failsCleanly_commit
    refine (faultsAt_readF hp i dst).bind fun a _ => ?_
    exact (faultsAt_readF hp i src).bind fun b _ => faultsAt_writeF hp i dst _
  | push r => exact failsCleanly_push hs small (ha.pushed r rfl).2
  | pop r => exact failsCleanly_pop hs small (ha.popped r rfl).2
  | pushRange r => exact failsCleanly_push hs small (ha.pushed r rfl).2
  | popRange r => exact failsCleanly_pop hs small (ha.popped r rfl).2
  | nop => exact .done rfl
  | service s => exact failsCleanly_service hp s

/-- A decoded instruction fails cleanly, because its action is lawful. -/
theorem failsCleanly_step (hm : m.Sound)
    (read : Isa.decode m.proc.program.code m.core.pc = .ok i) :
    FailsCleanly i.pc m (m.step i) := by
  unfold step
  split
  next e he =>
    intro e' he'
    cases he'
    exact ⟨faultsAt_ofInst i _ e he, .refl m⟩
  next a ha =>
    exact failsCleanly_perform hm.proc (hm.sp.onSlot read) hm.small
      (Action.lawful_of_ofInst (Isa.decode_eq_ok read) ha)

/-! ## Dispatches -/

/-- A call fails before it stores anything, and a return never fails: its address is on the
stack. -/
theorem Jumped.failed {m' : Machine} {e : Stop} (h : Jumped m i m' (some e)) (hm : m.Sound)
    (read : Isa.decode m.proc.program.code m.core.pc = .ok i) : e.IsFaultAt i.pc ∧ m' = m := by
  have hs := hm.sp.onSlot read
  have hlo := hs.nonneg
  have hhi := hs.le_size
  have hsmall := hm.small
  have hfour : returnSize.toInt = 4 := rfl
  cases h with
  | overflowed refused =>
    rw [Arena.write_error (by omega) rfl refused]
    exact ⟨rfl, rfl⟩
  | underflowed held refused =>
    rw [Arena.read_of_within (by omega) (hs.within_ret hsmall held) rfl] at refused
    cases refused

/-- Counting an instruction touches neither the registers nor the memory. -/
theorem Untouched.of_countInterpreted {m' : Machine} (h : Untouched m.countInterpreted m') :
    Untouched m m' := by
  refine ⟨h.core.trans ?_, h.proc⟩
  rw [h.core]
  rfl

/-- A dispatch that fails does so in one of the ways of `Dispatched`, each of them clean. -/
theorem Dispatched.failsCleanly {m' : Machine} {e : Stop} (h : Dispatched m m' (some e))
    (hm : m.Sound) : e.IsFaultAt m.core.pc ∧ Untouched m m' := by
  have hcode := hm.code
  have hpc := hm.pc
  unfold addressBound at hpc
  cases h with
  | undecoded read =>
    exact ⟨faultsAt_decode (by omega) (by omega) e read, .refl m⟩
  | stuck read failed =>
    obtain ⟨hfault, rfl⟩ := failed.failed hm read
    rw [(Isa.decode_eq_ok read).pc_eq] at hfault
    exact ⟨hfault, .refl m'⟩
  | @failed i _ _ read failed =>
    have hclean := failsCleanly_step hm.countInterpreted read e
    rw [failed] at hclean
    obtain ⟨hfault, huntouched⟩ := hclean rfl
    rw [(Isa.decode_eq_ok read).pc_eq] at hfault
    exact ⟨hfault, huntouched.of_countInterpreted⟩

/-! ## Reachable states -/

/-- In every state that an interpreting core can reach, a dispatch that fails reports a fault at the
address of the core and changes nothing, and no arena is closed, so that none of the host's own
checks can fail either. -/
theorem interpret_fails_atomically {program : Program} {o : Options} {p p' : Proc} {c : Core}
    {start : Int64} {param : UInt64} {m : Machine} (hcode : program.code.size < 2 ^ 62)
    (hmode : o.mode = .interpret) (hp : Proc.Unstarted program o p)
    (hstart : 0 ≤ start.toInt ∧ start.toInt < 2 ^ 32)
    (made : p.newCore start param = (p', .ok c))
    (h : Reachable Proc.DeviceChange ⟨c, p'⟩ m) :
    (∀ a ∈ m.proc.space.arenas, a.isOpen = true) ∧
      ∀ m' e, m.dispatch = (m', some e) → e.IsFaultAt m.core.pc ∧ Untouched m m' := by
  obtain ⟨hm, hmode'⟩ := h.sound hcode hmode hp made hstart.2
  refine ⟨fun a ha => (hm.proc.space a ha).isOpen, ?_⟩
  intro m' e he
  have hd := dispatched hmode' runBlock
  rw [show m.dispatchWith runBlock = (m', some e) from he] at hd
  exact hd.failsCleanly hm

/-- A program that pushes a register and draws an image whose address it reads from its data. -/
def pushesAndDraws : Program where
  header := ⟨64, 64, 0, 0⟩
  code := #[0x09, 0x00, 0x01, 0x05, 0x00, 0x00, 0x00, 0x91, 0x00, 0x01, 0x7c, 0x01, 0x01, 0x01,
    0x00, 0x00, 0x00, 0x00]
  global := [1, 2, 3, 4, 5, 6, 7, 8]

def unwilling : Devices := { refuses := fun _ _ => some "busy" }

/-- Two instructions of `pushesAndDraws` are performed, and the third one fails. -/
theorem fails_pushesAndDraws :
    ∃ m, boot pushesAndDraws { mode := .interpret, devices := unwilling } 0 7 = .ok m ∧
      (let m' := m.dispatch.1.dispatch.1
       m'.core.regs.sp = 8 ∧ m'.core.pc = 10 ∧ m'.dispatch.2.isSome = true ∧
         m'.dispatch.1.proc.devices.recorder.calls.length = 1) := by
  have run : ((boot pushesAndDraws { mode := .interpret, devices := unwilling } 0 7).toOption.any
      fun m =>
        let m' := m.dispatch.1.dispatch.1
        m'.core.regs.sp = 8 ∧ m'.core.pc = 10 ∧ m'.dispatch.2.isSome = true ∧
          m'.dispatch.1.proc.devices.recorder.calls.length = 1) = true := by
    decide +kernel
  obtain ⟨m, hm, run⟩ := exists_of_any run
  exact ⟨m, hm, of_decide_eq_true run⟩

/-- The device is asked when all else has been checked, and refuses: what the instruction before has
pushed stays where it is, and all that is left of the draw is the call. -/
theorem interpret_fails_atomically_pushesAndDraws :
    ∃ m, boot pushesAndDraws { mode := .interpret, devices := unwilling } 0 7 = .ok m ∧
      (let m' := m.dispatch.1.dispatch.1
       m'.core.regs.sp = 8 ∧ (∃ e, m'.dispatch.2 = some e ∧ e.IsFaultAt 10) ∧
         Untouched m' m'.dispatch.1 ∧ m'.dispatch.1.proc.devices.recorder.calls.length = 1) := by
  obtain ⟨m, hm, hsp, hpc, hfails, hcalls⟩ := fails_pushesAndDraws
  obtain ⟨p, hp, made⟩ := boot_eq_ok hm
  obtain ⟨e, he⟩ := Option.isSome_iff_exists.mp hfails
  have clean := (interpret_fails_atomically (by decide) rfl (.new hp) (by decide) made
    (.dispatch (.dispatch .start))).2 _ e (Prod.ext rfl he)
  rw [hpc] at clean
  exact ⟨m, hm, hsp, ⟨e, he, clean.1⟩, clean.2, hcalls⟩

end Machine

end BlockVM
