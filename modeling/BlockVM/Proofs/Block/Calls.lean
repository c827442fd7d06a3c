import BlockVM.Proofs.Block.Compiler

/-!
# What calls of the compiler leave behind

A call ends with a block or with a fault at its start, and never aborts (`compile_settles`). The
mapping of the block is the only one that the call leaves; a fault leaves none. The fault is one of
memory exactly if a mapping was refused that the call needed.

A compiler keeps parts of its latest block between calls, and its growth decides when the buffer
moves. Neither shows in a block: while no mapping is refused, the program and the start decide what
a call gives (`compile_of_served`), whatever was compiled before (`compile_determined`).
-/

namespace BlockVM

/-! ## Requests -/

/-- The requests that were made since an earlier state of the host. -/
def ExecHost.askedSince (later earlier : ExecHost) : List ExecRequest :=
  later.requests.take (later.requests.length - earlier.requests.length)

/-- Requests are recorded newest first, so those since an earlier host stand in front of the ones it
had. -/
theorem ExecHost.askedSince_eq {later earlier : ExecHost} {growth : List ExecRequest}
    {first : ExecRequest} (h : later.requests = growth ++ first :: earlier.requests) :
    later.askedSince earlier = growth ++ [first] := by
  have hsplit : later.requests = (growth ++ [first]) ++ earlier.requests := by simp [h]
  rw [askedSince, hsplit, List.length_append, Nat.add_sub_cancel, List.take_left]

def Outcome.IsShort (o : Outcome) : Prop := ∃ e, o.result = .error e ∧ e.kind? = some .resource

/-- What a call at `start` leaves on the host `h`. -/
structure Outcome.Settled (c : Compiler) (h : ExecHost) (start : Int64) (o : Outcome) : Prop where
  /-- A block stands in a finished buffer without a failure, and its mapping is the only new one. -/
  block : ∀ b, o.result = .ok b → b.buffer.final = true ∧ b.buffer.error = none ∧
    b.buffer.mapped = true ∧ b.buffer.bytes = b.block.code ∧ o.host.live = b.mapping :: h.live
  /-- Without a block there is a fault at the start, and no new mapping. -/
  fault : ∀ e, o.result = .error e → e.IsFaultAt start ∧ o.host.live = h.live
  /-- Memory is short if there is no buffer, or if the buffer of a block cannot grow. -/
  short : ∃ growth first, o.host.askedSince h = growth ++ [first] ∧
    (o.IsShort ↔ first.granted = false ∨
      refusal? c.code c.target.globalSize start = none ∧ ∃ q ∈ growth, q.granted = false)
  /-- Otherwise the first instruction decides whether there is a block, and what is wrong if not. -/
  refused : ¬ o.IsShort → ∀ e, refusal? c.code c.target.globalSize start = some e →
    o.result = .error e
  accepted : ¬ o.IsShort → refusal? c.code c.target.globalSize start = none → ∃ b, o.result = .ok b

namespace Compiler

open Layout (pieces)

variable {c : Compiler} {h : ExecHost} {start : Int64}

/-- A call that fails for want of memory. -/
theorem settled_of_short {o : Outcome} {what : String} {f : Failure} {growth : List ExecRequest}
    {first : ExecRequest} (hresult : o.result = .error (outOfCodeMemory start what f))
    (hlive : o.host.live = h.live) (hasked : o.host.requests = growth ++ first :: h.requests)
    (hcause : first.granted = false ∨
      refusal? c.code c.target.globalSize start = none ∧ ∃ q ∈ growth, q.granted = false) :
    o.Settled c h start := by
  have hshort : o.IsShort := ⟨_, hresult, rfl⟩
  refine ⟨?_, ?_, ⟨growth, first, ExecHost.askedSince_eq hasked, fun _ => hcause, fun _ => hshort⟩,
    fun hnot => absurd hshort hnot, fun hnot => absurd hshort hnot⟩
  · intro b hb
    rw [hresult] at hb
    cases hb
  · intro e he
    rw [hresult] at he
    cases he
    exact ⟨rfl, hlive⟩

/-- A call whose first instruction keeps it from making a block. -/
theorem settled_of_refusal (hcode : c.code.size + 16 ≤ 2 ^ 63) {o : Outcome} {e : Stop}
    {growth : List ExecRequest} {first : ExecRequest}
    (hrefused : refusal? c.code c.target.globalSize start = some e) (hresult : o.result = .error e)
    (hlive : o.host.live = h.live) (hasked : o.host.requests = growth ++ first :: h.requests)
    (hfirst : first.granted = true) : o.Settled c h start := by
  have hshort : ¬ o.IsShort := by
    rintro ⟨e', he', hkind⟩
    rw [hresult] at he'
    cases he'
    -- What tells this case from a lack of memory is the kind of the failure alone.
    exact kind_of_refusal hrefused hkind
  refine ⟨?_, ?_,
    ⟨growth, first, ExecHost.askedSince_eq hasked, fun hs => absurd hs hshort, ?_⟩, ?_, ?_⟩
  · intro b hb
    rw [hresult] at hb
    cases hb
  · intro e' he'
    rw [hresult] at he'
    cases he'
    exact ⟨fault_of_refusal hcode hrefused, hlive⟩
  · rintro (hf | ⟨hnone, -⟩)
    · rw [hfirst] at hf
      cases hf
    · rw [hrefused] at hnone
      cases hnone
  · intro _ e' he'
    rw [hrefused] at he'
    cases he'
    exact hresult
  · intro _ hnone
    rw [hrefused] at hnone
    cases hnone

/-- A call that makes a block. -/
theorem settled_of_block {o : Outcome} {b : Compiled} {growth : List ExecRequest}
    {first : ExecRequest} (haccepted : refusal? c.code c.target.globalSize start = none)
    (hresult : o.result = .ok b)
    (hbuffer : b.buffer.final = true ∧ b.buffer.error = none ∧ b.buffer.mapped = true ∧
      b.buffer.bytes = b.block.code)
    (hlive : o.host.live = b.mapping :: h.live)
    (hasked : o.host.requests = growth ++ first :: h.requests)
    (hgranted : ∀ q ∈ first :: growth, q.granted = true) : o.Settled c h start := by
  -- A call that gives a block has not run out of memory, so nothing it asked for was refused.
  have hshort : ¬ o.IsShort := by
    rintro ⟨e, he, -⟩
    rw [hresult] at he
    cases he
  obtain ⟨hfirst, hgrowth⟩ := List.forall_mem_cons.mp hgranted
  refine ⟨?_, ?_,
    ⟨growth, first, ExecHost.askedSince_eq hasked, fun hs => absurd hs hshort, ?_⟩, ?_,
    fun _ _ => ⟨b, hresult⟩⟩
  · intro b' hb'
    rw [hresult] at hb'
    cases hb'
    obtain ⟨hfinal, herror, hmapped, hbytes⟩ := hbuffer
    exact ⟨hfinal, herror, hmapped, hbytes, hlive⟩
  · intro e he
    rw [hresult] at he
    cases he
  · rintro (hf | ⟨-, q, hq, hf⟩)
    · rw [hfirst] at hf
      cases hf
    · rw [hgrowth q hq] at hf
      cases hf
  · intro _ e he
    rw [haccepted] at he
    cases he

/-- Whatever the code, the start and the mappings that are refused, a call settles. -/
theorem compile_settles (c : Compiler) (h : ExecHost) (start : Int64)
    (hcode : c.code.size + 16 ≤ 2 ^ 63) : (c.compile h start).Settled c h start := by
  have hends := compile_ends c h start hcode
  generalize c.compile h start = o at hends
  obtain ⟨result, compiler, host⟩ := o
  dsimp only at hends
  cases hends with
  | unmapped refused =>
    obtain ⟨rfl, hgrant, -⟩ := CodeRegion.new_eq_error refused
    have hrefused : (h.memory.refusal? (CodeBuffer.incrementOf c.increment)).isNone = false := by
      rw [Option.isNone_eq_false_iff]
      exact hgrant
    have hlive : (h.ask (CodeBuffer.incrementOf c.increment)).live = h.live := by
      simp [ExecHost.ask, hrefused]
    have hasked : (h.ask (CodeBuffer.incrementOf c.increment)).requests =
        [] ++ ⟨CodeBuffer.incrementOf c.increment, false⟩ :: h.requests := by
      simp [ExecHost.ask, hrefused]
    exact settled_of_short rfl hlive hasked (.inl rfl)
  | @empty r _ new refused =>
    have hsince := (CodeRegion.new_eq_ok new).1.fillAll (Layout.drafts Lower.enter)
    generalize r.fillAll (Layout.drafts Lower.enter) = s at hsince ⊢
    obtain ⟨growth, first, hasked, hfirst, -⟩ := hsince.asked
    rw [← CodeRegion.requests_release] at hasked
    exact settled_of_refusal hcode refused rfl hsince.live_release hasked hfirst
  | @short r f new accepted failed =>
    have hsince := (CodeRegion.new_eq_ok new).1.fillAll (c.layout start)
    generalize r.fillAll (c.layout start) = s at failed hsince ⊢
    obtain ⟨growth, first, hasked, -, herror⟩ := hsince.asked
    rw [← CodeRegion.requests_release] at hasked
    -- The buffer has failed, so not every request was granted.
    have hnot : ¬ ∀ q ∈ growth, q.granted = true := by
      rw [← herror, failed]
      exact Option.some_ne_none f
    have hcause : ∃ q ∈ growth, q.granted = false := by simpa using hnot
    exact settled_of_short rfl hsince.live_release hasked (.inr ⟨accepted, hcause⟩)
  | @block r new accepted grown =>
    obtain ⟨hnew, -, -, hempty, -⟩ := CodeRegion.new_eq_ok new
    have hsince := hnew.fillAll (c.layout start)
    have hbytes := (CodeRegion.bytes_fillAll grown).2
    rw [hempty, Array.empty_append] at hbytes
    generalize r.fillAll (c.layout start) = s at grown hsince hbytes ⊢
    obtain ⟨growth, first, hasked, hfirst, herror⟩ := hsince.asked
    exact settled_of_block accepted rfl ⟨rfl, grown, hsince.writable.mapped, hbytes⟩
      hsince.live hasked
      (List.forall_mem_cons.mpr ⟨hfirst, herror.mp grown⟩)

/-- A compiler of a program that asks for the time and loads a constant, so that its block has an
exit and a constant. -/
def timer (increment : Int64) : Compiler where
  code := #[0x7e, 0x01, 0xc6, 0x00, 0x03, 0x00, 0x00, 0x80, 0x3f]
  target := ⟨0, 0x1000, 64⟩
  increment := increment

def hostRefusing (n : Nat) : ExecHost := { grants := fun k _ => k != n }

/-- The first growth is refused while the compiler still has the block to lower. -/
theorem compile_settles_timer : (timer 16).code.size + 16 ≤ 2 ^ 63 ∧
    ((timer 16).compile (hostRefusing 1) 0).Settled (timer 16) (hostRefusing 1) 0 :=
  ⟨by decide, compile_settles (timer 16) (hostRefusing 1) 0 (by decide)⟩

/-! ## A host that decides by size -/

theorem buffer_append {r s : CodeRegion} {bs : List UInt8} (happend : r.append bs = .ok s) :
    r.buffer.append r.host.memory bs = .ok s.buffer := by
  unfold CodeRegion.append at happend
  obtain ⟨buffer, hbuffer, hrest⟩ := bind_eq_ok.mp happend
  rw [hbuffer]
  split at hrest
  · cases hrest
    rfl
  · dsimp only at hrest
    split at hrest <;> cases hrest <;> rfl

/-- Such a host gives to appends one after the other what they get at once. -/
theorem appendAll_eq_fillAll {x : ExecMemory} {r : CodeRegion} {k : ExecHost} (hr : r.Since k)
    (huniform : k.grants = fun _ => x.grants) (ps : List (List UInt8)) :
    appendAll x r.buffer ps = .ok (r.fillAll ps).buffer := by
  induction ps generalizing r with
  | nil => rfl
  | cons bs ps ih =>
    have hmemory : r.host.memory = x := by rw [ExecHost.memory, hr.same, huniform]
    have hfirst := buffer_append (CodeRegion.append_eq_fill hr.writable bs)
    rw [hmemory] at hfirst
    rw [appendAll, hfirst, CodeRegion.fillAll_cons]
    exact ih (hr.fill bs)

theorem new_buffer {r : CodeRegion} {increment : Int64}
    (hnew : CodeRegion.new h increment = .ok r) :
    CodeBuffer.new h.memory increment = .ok r.buffer := by
  unfold CodeRegion.new at hnew
  cases hbuffer : CodeBuffer.new h.memory increment with
  | error f =>
    rw [hbuffer] at hnew
    cases hnew
  | ok b =>
    rw [hbuffer] at hnew
    cases hnew
    rfl

/-- A program that is not refused has a first instruction to compile. -/
theorem isEmpty_of_accepted (haccepted : refusal? c.code c.target.globalSize start = none) :
    (Run.at c.code c.target.globalSize start).steps.isEmpty = false := by
  rw [List.isEmpty_eq_false_iff]
  intro hnil
  have hsome := steps_take_eq_nil_iff.mp hnil
  rw [haccepted] at hsome
  cases hsome

/-- On such a host a call gives what a compilation gives that lays the code out at once. -/
theorem compile_uniform (c : Compiler) (x : ExecMemory) (start : Int64)
    (hcode : c.code.size + 16 ≤ 2 ^ 63) :
    (c.compile (.uniform x) start).result.map (·.block) =
      BlockVM.compile x c.code c.target c.increment start := by
  -- The compiler that writes step by step ends in one of four ways, and the one that lays the code
  -- out at once does so at the same point of the same four.
  have hends := compile_ends c (.uniform x) start hcode
  generalize (c.compile (.uniform x) start).result = result at hends ⊢
  generalize (c.compile (.uniform x) start).host = host at hends
  have hmemory : (ExecHost.uniform x).memory = x := rfl
  unfold BlockVM.compile
  cases hends with
  | unmapped refused =>
    obtain ⟨-, -, hnew⟩ := CodeRegion.new_eq_error refused
    rw [hmemory] at hnew
    rw [hnew]
    rfl
  | @empty r e new refused =>
    have hnew := new_buffer new
    rw [hmemory] at hnew
    have hempty : (Run.at c.code c.target.globalSize start).steps.isEmpty = true := by
      rw [Run.at, steps_take_eq_nil_iff.mpr (by rw [refused]; rfl)]
      rfl
    have hreason : (Run.at c.code c.target.globalSize start).reason.getD
        (.fault .codeBounds start "no instruction to compile") = e := getD_reason_take refused
    simp only [hnew, hempty, if_true, hreason]
    rfl
  | @short r f new accepted failed =>
    have hnew := new_buffer new
    rw [hmemory] at hnew
    have hall := appendAll_eq_fillAll (CodeRegion.new_eq_ok new).1 rfl (c.layout start)
    simp only [hnew, isEmpty_of_accepted accepted, Bool.false_eq_true, if_false]
    show _ = (appendAll x r.buffer (c.layout start) >>= fun buffer => _)
    rw [hall]
    simp only [bind, Except.bind, failed]
    rfl
  | @block r new accepted grown =>
    have hnew := new_buffer new
    rw [hmemory] at hnew
    obtain ⟨hsince, -, -, hempty, -⟩ := CodeRegion.new_eq_ok new
    have hall := appendAll_eq_fillAll hsince rfl (c.layout start)
    have hfinal := CodeBuffer.finalize_eq_ok (hsince.fillAll (c.layout start)).writable grown
    have hbytes := (CodeRegion.bytes_fillAll grown).2
    rw [hempty, Array.empty_append] at hbytes
    simp only [hnew, isEmpty_of_accepted accepted, Bool.false_eq_true, if_false]
    show _ = (appendAll x r.buffer (c.layout start) >>= fun buffer => _)
    rw [hall]
    simp only [bind, Except.bind, grown, hfinal, hbytes]
    rfl

/-! ## What a call depends on -/

/-- What the program gives at a start: its run, laid out. -/
def blockOf (code : Array UInt8) (t : Target) (start : Int64) : Except Stop Block :=
  match refusal? code t.globalSize start with
  | some e => .error e
  | none =>
    let run := Run.at code t.globalSize start
    .ok ⟨start, run.stop, run.steps.length, (pieces (run.items t)).flatten.toArray⟩

/-- A call that is granted what it asks for is not short of memory. -/
theorem not_isShort_of_served {o : Outcome} (settled : o.Settled c h start)
    (served : ∀ q ∈ o.host.askedSince h, q.granted = true) : ¬ o.IsShort := by
  intro hshort
  obtain ⟨growth, first, hasked, hiff⟩ := settled.short
  rw [hasked] at served
  rcases hiff.mp hshort with hf | ⟨-, q, hq, hf⟩
  · rw [served first (List.mem_append_right _ (List.mem_singleton_self _))] at hf
    cases hf
  · rw [served q (List.mem_append_left _ hq)] at hf
    cases hf

/-- While no mapping is refused, a call gives what the program gives. -/
theorem compile_of_served (hcode : c.code.size + 16 ≤ 2 ^ 63)
    (served : ∀ q ∈ (c.compile h start).host.askedSince h, q.granted = true) :
    (c.compile h start).result.map (·.block) = blockOf c.code c.target start := by
  have hshort := not_isShort_of_served (compile_settles c h start hcode) served
  have hends := compile_ends c h start hcode
  unfold Outcome.IsShort at hshort
  generalize (c.compile h start).result = result at hends hshort ⊢
  generalize (c.compile h start).host = host at hends
  unfold blockOf
  cases hends with
  | unmapped | short => exact absurd ⟨_, rfl, rfl⟩ hshort
  | empty new refused =>
    rw [refused]
    rfl
  | block new accepted grown =>
    rw [accepted]
    rfl

/-- A call changes neither the code nor the target of its compiler. -/
theorem program_compile (c : Compiler) (h : ExecHost) (start : Int64) :
    (c.compile h start).compiler.code = c.code ∧
    (c.compile h start).compiler.target = c.target := by
  unfold compile
  split
  · exact ⟨rfl, rfl⟩
  · split <;> exact ⟨rfl, rfl⟩

/-- A compiler keeps to its program. -/
theorem program_history (c : Compiler) (h : ExecHost) (past : List Int64) :
    (c.history h past).1.code = c.code ∧ (c.history h past).1.target = c.target := by
  induction past generalizing c h with
  | nil => exact ⟨rfl, rfl⟩
  | cons start past ih =>
    obtain ⟨hcode, htarget⟩ := program_compile c h start
    obtain ⟨hcode', htarget'⟩ := ih (c.compile h start).compiler (c.compile h start).host
    exact ⟨hcode'.trans hcode, htarget'.trans htarget⟩

def callAfter (c : Compiler) (h : ExecHost) (past : List Int64) (start : Int64) : Outcome :=
  (c.history h past).1.compile (c.history h past).2 start

/-- Two compilers of one program give the same, whatever their increments, their hosts and what they
compiled before, while no mapping is refused to the calls that are compared. -/
theorem compile_determined {c c' : Compiler} (h h' : ExecHost) (past past' : List Int64)
    (start : Int64) (code : c.code = c'.code) (target : c.target = c'.target)
    (hcode : c.code.size + 16 ≤ 2 ^ 63)
    (served : ∀ q ∈ (c.callAfter h past start).host.askedSince (c.history h past).2,
      q.granted = true)
    (served' : ∀ q ∈ (c'.callAfter h' past' start).host.askedSince (c'.history h' past').2,
      q.granted = true) :
    (c.callAfter h past start).result.map (·.block) =
      (c'.callAfter h' past' start).result.map (·.block) := by
  have hcompiled (d : Compiler) (k : ExecHost) (starts : List Int64)
      (hd : d.code.size + 16 ≤ 2 ^ 63)
      (hserved : ∀ q ∈ (d.callAfter k starts start).host.askedSince (d.history k starts).2,
        q.granted = true) :
      (d.callAfter k starts start).result.map (·.block) = blockOf d.code d.target start := by
    obtain ⟨hsame, htarget⟩ := program_history d k starts
    rw [← hsame, ← htarget]
    exact compile_of_served (hsame ▸ hd) hserved
  rw [hcompiled c h past hcode served, hcompiled c' h' past' (code ▸ hcode) served', code, target]

/-- A call after one that ran out of memory, and a first call with a larger increment. -/
theorem compile_determined_timer :
    ((timer 16).callAfter (hostRefusing 1) [0] 0).result.map (·.block) =
      ((timer 4096).callAfter (hostRefusing 1) [] 0).result.map (·.block) := by
  have served : (∀ q ∈ ((timer 16).callAfter (hostRefusing 1) [0] 0).host.askedSince
      ((timer 16).history (hostRefusing 1) [0]).2, q.granted = true) ∧
      ∀ q ∈ ((timer 4096).callAfter (hostRefusing 1) [] 0).host.askedSince
        ((timer 4096).history (hostRefusing 1) []).2, q.granted = true := by
    decide +kernel
  exact compile_determined (hostRefusing 1) (hostRefusing 1) [0] [] 0 rfl rfl
    (by decide) served.1 served.2

end Compiler

end BlockVM
