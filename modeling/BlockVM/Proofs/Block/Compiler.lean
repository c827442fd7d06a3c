import BlockVM.Block.Compiler
import BlockVM.Proofs.Block.Emitted
import BlockVM.Proofs.Block.Refusals

/-!
# What a call of the compiler does

A call that gets a buffer lowers the run at its start. `run_body` says that the instructions of the
run are written one after the other, whether the buffer takes them or not, and `compile_ends` what
comes of it: the call has no buffer, or no instruction, or not enough memory, or a block. The buffer
then went through the appends of the block's layout, and it holds that layout unless an append
failed.
-/

namespace BlockVM

open Isa (Inst)
open Emission (Wrote)

/-- A writable buffer without a failure can be finalized. -/
theorem CodeBuffer.finalize_eq_ok {b : CodeBuffer} (h : b.Writable) (hnone : b.error = none) :
    b.finalize = .ok { b with final := true } := by
  obtain ⟨bytes, capacity, increment, error, final, mapped⟩ := b
  obtain ⟨rfl, rfl⟩ := h
  obtain rfl := hnone
  rfl

namespace Emission

/-- A block that nothing has been written to. -/
structure Fresh (e : Emission) : Prop where
  ready : e.Ready
  size_eq : e.size = 0
  floats_eq : e.floats = []
  bytes_eq : e.region.buffer.bytes = #[]

/-- The address of the instruction does not matter for what was written. -/
theorem Wrote.congr_pc {items : List Item} {e e' : Emission} {pc : Int64}
    (h : Wrote items { e with pc := pc } e') : Wrote items e e' :=
  ⟨h.ready, h.size_eq, h.floats_eq, h.region, h.bytes⟩

end Emission

namespace Emit

variable {code : Array UInt8} {t : Target} {start pc : Int64}

/-! ## Instructions -/

/-- An accepted instruction is lowered to its action. -/
theorem run_lower {i : Inst} {ops : List Operand} {a : Action} {e : Emission}
    (hi : Isa.Decoded code pc i) (hprepare : prepare i t.globalSize = .ok ops)
    (ha : Action.ofInst i t.globalSize = .ok a) (hready : e.Ready) :
    ∃ e', lower t i ops e = .ok () e' ∧ e.Wrote (a.lower t i.pc) e' := by
  have hof : Action.of? i.family i.info.width ops = some a := by
    obtain ⟨hv, ops', hops', hof⟩ := Action.ofInst_eq_ok ha
    have hsame : prepare i t.globalSize = .ok ops' := bind_eq_ok.mpr ⟨(), hv, hops'⟩
    rw [hprepare] at hsame
    rw [Except.ok.inj hsame]
    exact hof
  have hready' : Emission.Ready { e with pc := i.pc } :=
    ⟨hready.writable, hready.roomy, hready.counted⟩
  obtain ⟨e', hrun, hwrote, -⟩ :=
    Action.writes_emit (Action.suited_of_ofInst hi ha) t i.pc { e with pc := i.pc } hready' rfl
  have hset : (modify fun e : Emission => { e with pc := i.pc } : Emit Unit) e =
      .ok () { e with pc := i.pc } := rfl
  refine ⟨e', ?_, hwrote.congr_pc⟩
  unfold lower
  rw [bind_eq hset, hof]
  exact hrun

/-- What a run of the body gives: where the block ends, its instructions and the refusal of the
first. -/
def bodyResult (run : Run) (n : Nat) : Int64 × Nat × Option Stop :=
  (run.stop, n + run.steps.length, if n + run.steps.length = 0 then run.reason else none)

theorem bodyResult_nil (pc : Int64) (n : Nat) : bodyResult ⟨[], pc, none⟩ n = (pc, n, none) := by
  simp [bodyResult]

theorem bodyResult_cons (run : Run) (step : Inst × Action) (n : Nat) :
    bodyResult { run with steps := step :: run.steps } n = bodyResult run (n + 1) := by
  have hcount : n + (run.steps.length + 1) = n + 1 + run.steps.length := by omega
  simp only [bodyResult, List.length_cons, hcount]

/-- The instructions of a run are written in a row. -/
theorem run_body (hcode : code.size + 16 ≤ 2 ^ 63) (fuel : Nat) (pc : Int64) (n : Nat)
    {e : Emission} (hready : e.Ready) :
    ∃ e', body code t fuel pc n e = .ok (bodyResult (Run.take code t.globalSize fuel pc) n) e' ∧
      e.Wrote
      ((Run.take code t.globalSize fuel pc).steps.flatMap fun (i, a) => a.lower t i.pc) e' := by
  -- The recursion is that of the run, with the instructions so far behind it.
  induction fuel generalizing pc n e with
  | zero =>
    refine ⟨e, ?_, .nil hready⟩
    rw [Run.take, bodyResult_nil]
    rfl
  | succ fuel ih =>
    unfold body Run.take
    by_cases hin : pc < Int64.ofNat code.size
    · rw [if_pos hin, if_pos hin]
      have hdecode := faultsAt_inside hcode hin
      cases read : Isa.decode code pc with
      | error stop =>
        have hfault := hdecode stop read
        cases stop with
        | abort reason => cases hfault
        | failure f => exact ⟨e, rfl, .nil hready⟩
      | ok i =>
        dsimp only
        by_cases hcontrol : i.info.isControl = true
        · rw [if_pos hcontrol, if_pos hcontrol]
          refine ⟨e, ?_, .nil hready⟩
          rw [bodyResult_nil]
          rfl
        · rw [if_neg hcontrol, if_neg hcontrol]
          have hi := Isa.decode_eq_ok read
          cases hprepare : prepare i t.globalSize with
          | error stop =>
            have hfault := faultsAt_prepare i t.globalSize stop hprepare
            rw [ofInst_of_prepare_error hprepare]
            cases stop with
            | abort reason => cases hfault
            | failure f => exact ⟨e, rfl, .nil hready⟩
          | ok ops =>
            obtain ⟨a, ha⟩ := Action.ofInst_of_prepare hi (Bool.eq_false_iff.mpr hcontrol) hprepare
            obtain ⟨e₁, hlower, hwrote⟩ := run_lower hi hprepare ha hready
            obtain ⟨e₂, hbody, hrest⟩ := ih i.next (n + 1) hwrote.ready
            rw [ha]
            refine ⟨e₂, ?_, hwrote.append hrest⟩
            dsimp only
            rw [bind_eq hlower, hbody, bodyResult_cons]
    · rw [if_neg hin, if_neg hin]
      refine ⟨e, ?_, .nil hready⟩
      rw [bodyResult_nil]
      rfl

/-! ## Blocks -/

/-- The code at the end of a block, as the calls that write it. -/
theorem writes_finish : Writes pc Lower.finish
    (calls [.addRegImm32 .rsp Lower.frameSize, .xorRegReg32 Lower.acc Lower.acc, .ret]) () :=
  writes_calls (.cons rfl (.cons rfl (.cons rfl .nil)))

/-- Items are appended as pieces of the same lengths, whatever their fields. -/
theorem forall₂_drafts (off const : Nat) (items : List Item) :
    List.Forall₂ (fun p p' : List UInt8 => p'.length = p.length)
      ((Layout.resolve off const items).map X86.Inst.encode) (Layout.drafts items) := by
  induction items generalizing off const with
  | nil => exact .nil
  | cons i rest ih =>
    refine .cons ?_ (ih _ _)
    rw [i.length_blank]
    exact (i.length_resolve off const).symm

/-- The end of a block completes its layout. -/
theorem run_finish {items : List Item} {e e₁ : Emission} (fresh : e.Fresh)
    (hwrote : e.Wrote items e₁) : ∃ e', finish e₁ = .ok () e' ∧ e'.region.buffer.Writable ∧
      (e.region.fillAll (Layout.pieces (items ++ Lower.finish))).Alike e'.region ∧
      (e'.region.buffer.error = none →
        e'.region.buffer.bytes = (Layout.pieces (items ++ Lower.finish)).flatten.toArray) := by
  obtain ⟨e₂, hcalls, hfinish, -⟩ := writes_finish e₁ hwrote.ready rfl
  obtain ⟨hready, hsize, hfloats, hregion, hbytes⟩ := hwrote.append hfinish
  -- From here on it does not matter which items were written by the body and which by the finish.
  generalize items ++ Lower.finish = all at *
  rw [fresh.size_eq] at hfloats hbytes
  rw [fresh.floats_eq, List.nil_append] at hfloats
  obtain ⟨e₃, hrun, hwritable, halike, hlaid⟩ :=
    @run_emitFloats all e₂ [] [] hready.writable hready.roomy
    (by
      intro hnone
      rw [hbytes hnone, fresh.bytes_eq]
      simp)
  have hget : (get : Emit Emission) e₂ = .ok e₂ e₂ := rfl
  refine ⟨e₃, ?_, hwritable, ?_, fun hnone => ?_⟩
  · unfold finish
    rw [bind_eq hcalls, bind_eq hget, hfloats]
    exact hrun
  · have hpieces :=
      CodeRegion.fillAll_alike (.refl e.region) (forall₂_drafts 0 (Layout.sizeOf all) all)
    rw [Layout.pieces, CodeRegion.fillAll_append]
    exact (CodeRegion.fillAll_alike (hpieces.trans hregion)
      (List.forall₂_same.mpr fun _ _ => rfl)).trans halike
  · rw [hlaid hnone, Layout.flatten_pieces_eq]
    simp

/-- Without an instruction the buffer is given up after the entry. -/
theorem run_block_of_refusal (hcode : code.size + 16 ≤ 2 ^ 63) {stop : Stop} {e : Emission}
    (hready : e.Ready) (hrefused : refusal? code t.globalSize start = some stop) :
    ∃ e', block code t start e = .ok (.error stop) { e' with region := e'.region.release } ∧
      e.Wrote Lower.enter e' := by
  have hsome : (refusal? code t.globalSize start).isSome = true := by rw [hrefused]; rfl
  have hsteps : (Run.take code t.globalSize (code.size + 1) start).steps = [] :=
    steps_take_eq_nil_iff.mpr hsome
  have hreason : (Run.take code t.globalSize (code.size + 1) start).reason.getD
      (nothingToCompile start) = stop := getD_reason_take hrefused
  obtain ⟨e₁, henter, hwrote, -⟩ := writes_enter e hready rfl
  obtain ⟨e₂, hbody, hrest⟩ := run_body (t := t) hcode (code.size + 1) start 0 hwrote.ready
  generalize Run.take code t.globalSize (code.size + 1) start = run at hsteps hreason hbody hrest
  obtain ⟨steps, last, reason⟩ := run
  dsimp only at hsteps hreason hrest
  subst hsteps hreason
  refine ⟨e₂, ?_, hwrote.append hrest⟩
  unfold block
  rw [bind_eq henter, bind_eq hbody]
  cases reason <;> rfl

/-- A run of instructions is laid out in the buffer, as far as the buffer takes it. -/
theorem run_block (hcode : code.size + 16 ≤ 2 ^ 63) {e : Emission} (fresh : e.Fresh)
    (haccepted : refusal? code t.globalSize start = none) :
    ∃ e', block code t start e = close start (Run.at code t.globalSize start).stop
        (Run.at code t.globalSize start).steps.length e' ∧ e'.region.buffer.Writable ∧
      (e.region.fillAll (Layout.pieces ((Run.at code t.globalSize start).items t))).Alike
      e'.region ∧ (e'.region.buffer.error = none → e'.region.buffer.bytes =
        (Layout.pieces ((Run.at code t.globalSize start).items t)).flatten.toArray) := by
  have hnone : (refusal? code t.globalSize start).isSome = false := by rw [haccepted]; rfl
  -- The body can only report a refusal of its first instruction, and this one is accepted.
  have hsteps : (Run.at code t.globalSize start).steps ≠ [] := by
    intro hempty
    rw [steps_take_eq_nil_iff.mp hempty] at hnone
    cases hnone
  obtain ⟨e₁, henter, hwrote, -⟩ := writes_enter e fresh.ready rfl
  obtain ⟨e₂, hbody, hrest⟩ := run_body (t := t) hcode (code.size + 1) start 0 hwrote.ready
  obtain ⟨e₃, hfinish, hlaid⟩ := run_finish fresh (hwrote.append hrest)
  refine ⟨e₃, ?_, hlaid⟩
  rw [Run.at] at hsteps ⊢
  generalize Run.take code t.globalSize (code.size + 1) start = run at hsteps hbody ⊢
  obtain ⟨_ | ⟨step, steps⟩, last, reason⟩ := run
  · exact absurd rfl hsteps
  · have hresult : bodyResult ⟨step :: steps, last, reason⟩ 0 = (last, steps.length + 1, none) := by
      simp [bodyResult]
    rw [hresult] at hbody
    unfold block
    rw [bind_eq henter, bind_eq hbody]
    exact bind_eq hfinish

/-- A block whose buffer could not grow is given up, and its mapping with it. -/
theorem close_of_error {e : Emission} {f : Failure} (h : e.region.buffer.error = some f)
    (last : Int64) (n : Nat) : close start last n e =
      .ok (.error (outOfCodeMemory start "growing code buffer" f))
        { e with region := e.region.release } := by
  have hget : (get : Emit Emission) e = .ok e e := rfl
  unfold close
  rw [bind_eq hget]
  dsimp only
  rw [h]
  rfl

/-- A buffer that has grown as needed is finished. -/
theorem close_of_none {e : Emission} (h : e.region.buffer.error = none)
    (hwritable : e.region.buffer.Writable) (last : Int64) (n : Nat) : close start last n e =
      .ok (.ok ⟨⟨start, last, n, e.region.buffer.bytes⟩, { e.region.buffer with final := true },
        e.region.mapping⟩)
        { e with region :=
          { e.region with buffer := { e.region.buffer with final := true } } } := by
  have hget : (get : Emit Emission) e = .ok e e := rfl
  have hfinal := CodeBuffer.finalize_eq_ok hwritable h
  unfold close
  rw [bind_eq hget]
  dsimp only
  rw [hfinal]
  simp only [h]
  rfl

end Emit

/-! ## Calls -/

namespace Compiler

open Layout (pieces)

def layout (c : Compiler) (start : Int64) : List (List UInt8) :=
  pieces ((Run.at c.code c.target.globalSize start).items c.target)

/-- How a call at `start` can end on the host `h`: its result and the host that it leaves. -/
inductive Ends (c : Compiler) (h : ExecHost) (start : Int64) :
    Except Stop Compiled → ExecHost → Prop
  /-- There is no buffer. -/
  | unmapped {f : Failure} {h' : ExecHost}
      (refused : CodeRegion.new h c.increment = .error (f, h')) :
      Ends c h start (.error (outOfCodeMemory start "allocating code buffer" f)) h'
  /-- There is no first instruction. -/
  | empty {r : CodeRegion} {e : Stop} (new : CodeRegion.new h c.increment = .ok r)
      (refused : refusal? c.code c.target.globalSize start = some e) :
      Ends c h start (.error e) (r.fillAll (Layout.drafts Lower.enter)).release.host
  /-- The buffer cannot grow. -/
  | short {r : CodeRegion} {f : Failure} (new : CodeRegion.new h c.increment = .ok r)
      (accepted : refusal? c.code c.target.globalSize start = none)
      (failed : (r.fillAll (c.layout start)).buffer.error = some f) :
      Ends c h start (.error (outOfCodeMemory start "growing code buffer" f))
        (r.fillAll (c.layout start)).release.host
  /-- There is a block. -/
  | block {r : CodeRegion} (new : CodeRegion.new h c.increment = .ok r)
      (accepted : refusal? c.code c.target.globalSize start = none)
      (grown : (r.fillAll (c.layout start)).buffer.error = none) :
      Ends c h start
        (.ok ⟨⟨start, (Run.at c.code c.target.globalSize start).stop,
            (Run.at c.code c.target.globalSize start).steps.length,
            (c.layout start).flatten.toArray⟩,
          { (r.fillAll (c.layout start)).buffer with final := true },
          (r.fillAll (c.layout start)).mapping⟩)
        (r.fillAll (c.layout start)).host

/-- Every call ends in one of these ways. -/
theorem compile_ends (c : Compiler) (h : ExecHost) (start : Int64)
    (hcode : c.code.size + 16 ≤ 2 ^ 63) :
    c.Ends h start (c.compile h start).result (c.compile h start).host := by
  unfold compile
  cases hnew : CodeRegion.new h c.increment with
  | error refused =>
    obtain ⟨f, h'⟩ := refused
    exact .unmapped hnew
  | ok r =>
    obtain ⟨hsince, hroomy, hnone, hempty, -⟩ := CodeRegion.new_eq_ok hnew
    have hready : Emission.Ready { region := r, pc := c.pc } := by
      refine ⟨hsince.writable, hroomy, fun _ => ?_⟩
      rw [CodeBuffer.size, hempty]
      rfl
    dsimp only
    cases hrefused : refusal? c.code c.target.globalSize start with
    | some e =>
      -- What was emitted before the refusal is dropped with its region.
      obtain ⟨e₁, hrun, hwrote⟩ := Emit.run_block_of_refusal (t := c.target) hcode hready hrefused
      have hrelease := hwrote.region.release_eq (hsince.fillAll _).writable.mapped
      rw [EStateM.run, hrun]
      dsimp only
      rw [hrelease]
      exact .empty hnew hrefused
    | none =>
      obtain ⟨e₁, hrun, hwritable, halike, hbytes⟩ :=
        Emit.run_block hcode ⟨hready, rfl, rfl, hempty⟩ hrefused
      change (r.fillAll (c.layout start)).Alike _ at halike
      -- Emission and the layout grow the region alike, so they run out of memory together.
      rw [EStateM.run, hrun]
      cases herror : e₁.region.buffer.error with
      | some f =>
        rw [Emit.close_of_error herror]
        dsimp only
        rw [halike.release_eq (hsince.fillAll _).writable.mapped]
        exact .short hnew hrefused (halike.error_eq ▸ herror)
      | none =>
        rw [Emit.close_of_none herror hwritable]
        dsimp only
        have hgrown : (r.fillAll (c.layout start)).buffer.error = none := halike.error_eq ▸ herror
        have hlaid := (CodeRegion.bytes_fillAll hgrown).2
        rw [hempty, Array.empty_append] at hlaid
        have hsame : e₁.region = r.fillAll (c.layout start) :=
          halike.eq_of_bytes ((hbytes herror).trans hlaid.symm)
        have hends := Ends.block hnew hrefused hgrown
        rw [← hlaid] at hends
        rw [hsame]
        exact hends

end Compiler

end BlockVM
