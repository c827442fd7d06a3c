import BlockVM.Proofs.Machine.Accounts
import BlockVM.Proofs.Machine.Modes
import Mathlib.Order.Bounds.Defs

/-!
# Cancelled runs

The loop of a core looks at its context before the first dispatch and after every 1024. Dispatches
look at nothing of it; they only count control transfers, and a context may get done at one of them
(`dispatch_withContext`). So a run whose context gets done makes the same dispatches as the run
without cancellation, up to the look that comes next, and ends there if it has not ended before
(`cancellation_cuts_runs`).
-/

namespace BlockVM

open Isa (Inst)

/-- The context of a run: the control transfers so far, the one at which it gets done (0 for none)
and whether it is done. -/
structure Context where
  transfers : Nat
  cancelAfter : Nat
  canceled : Bool

/-- What a dispatch that makes `t` control transfers, at most one, leaves of the context. -/
def Context.after (c : Context) (t : Nat) : Context :=
  ⟨c.transfers + t, c.cancelAfter, c.canceled || t == 1 && c.transfers + 1 == c.cancelAfter⟩

theorem Context.after_zero (c : Context) : c.after 0 = c := by simp [after]

def Guise.inContext (g : Guise) (c : Context) : Guise :=
  { g with transfers := c.transfers, cancelAfter := c.cancelAfter, canceled := c.canceled }

namespace Machine

variable {m x y : Machine} {n k i fuel : Nat} {d : Bool} {o : Outcome}

def context (m : Machine) : Context := ⟨m.proc.transfers, m.proc.cancelAfter, m.proc.canceled⟩

def inContext (m : Machine) (c : Context) : Machine :=
  { m with proc := { m.proc with
      transfers := c.transfers
      cancelAfter := c.cancelAfter
      canceled := c.canceled } }

@[simp] theorem inContext_context (m : Machine) : m.inContext m.context = m := rfl

/-! ## What does not look at the context -/

/-- An operation that neither reads nor changes the context. -/
def Unaware (f : Machine → Machine × Option Stop) : Prop :=
  ∀ m c, f (m.inContext c) = (f m).map (·.inContext c) id

namespace Unaware

variable {f g : Machine → Machine × Option Stop}

/-- One operation and, if it succeeds, another one. -/
theorem andThen (hf : Unaware f) (hg : Unaware g) :
    Unaware fun m => match f m with
      | (m, some e) => (m, some e)
      | (m, none) => g m := by
  intro m c
  dsimp only
  rw [hf m c]
  obtain ⟨m', e⟩ := f m
  cases e with
  | some e => rfl
  | none => exact hg m' c

end Unaware

/-- What a machine wears and the context it is in go together. -/
theorem wearing_context {m m' : Machine} (h : m'.guise = m.guise) (c : Context) :
    m'.wearing (m.guise.inContext c) = m'.inContext c := by
  rw [← h]
  rfl

/-- An instruction has nothing to do with the context. -/
theorem unaware_step (i : Inst) : Unaware fun m => m.step i := by
  intro m c
  have commutes := step_wearing m (m.guise.inContext c) i
  rw [wearing_context rfl, dress, wearing_context (guise_step m i)] at commutes
  exact commutes

theorem unaware_jump (i : Inst) : Unaware fun m => m.jump i := by
  intro m c
  have own := jump_wearing m m.guise i
  have commutes := jump_wearing m (m.guise.inContext c) i
  rw [wearing_guise] at own
  rw [wearing_context rfl] at commutes
  dsimp only
  rw [commutes, own]
  obtain ⟨m', e⟩ := m.jump i
  cases e <;> rfl

theorem unaware_serviceAt (pc : Int64) : Unaware fun m => m.serviceAt pc := by
  intro m c
  show (m.inContext c).serviceAt pc = (m.serviceAt pc).map _ _
  unfold serviceAt
  rw [show (m.inContext c).proc.program = m.proc.program from rfl]
  cases Isa.decode m.proc.program.code pc with
  | error e => rfl
  | ok i =>
    exact unaware_step i ((m.count fun s => { s with serviceExits := s.serviceExits + 1 }).notify
      (.service m.core.id i.family)) c

theorem unaware_resume (b : Block) (fuel : Nat) (offset : UInt32) :
    Unaware fun m => resume b fuel offset m := by
  induction fuel generalizing offset with
  | zero => exact fun m c => rfl
  | succ fuel ih =>
    intro m c
    show resume b (fuel + 1) offset (m.inContext c) = (resume b (fuel + 1) offset m).map _ _
    unfold resume
    rw [show (m.inContext c).view .standard b = m.view .standard b from rfl]
    cases Native.call (m.view .standard b) offset with
    | none => rfl
    | some result =>
      obtain ⟨token, v⟩ := result
      dsimp only
      rw [show (m.inContext c).adopt v = (m.adopt v).inContext c from rfl]
      split
      · rfl
      · split
        · rfl
        · exact (unaware_serviceAt (token >>> 32).toInt64).andThen (ih token.toUInt32) (m.adopt v) c

theorem unaware_execute (b : Block) : Unaware fun m => m.execute runBlock b := by
  intro m c
  show (m.inContext c).execute runBlock b = (m.execute runBlock b).map _ _
  unfold execute runBlock
  exact unaware_resume b (b.code.size + 1) 0
    ((m.count fun s => { s with executed := s.executed + 1 }).notify (.executed m.core.id)) c

theorem unaware_setPc (pc : Int64) : Unaware fun m => (m.setPc pc, none) := fun _ _ => rfl

/-- The core with one more block found in its statistics. -/
def countHit (m : Machine) : Machine := m.count fun s => { s with hits := s.hits + 1 }

theorem executeCached_eq (exec : Executor) (b : Block) (m : Machine) :
    m.executeCached exec b = match m.countHit.execute exec b with
      | (m, some e) => (m, some e)
      | (m, none) => (m.setPc b.stop, none) := rfl

theorem unaware_executeCached (b : Block) : Unaware fun m => m.executeCached runBlock b := by
  intro m c
  dsimp only
  rw [executeCached_eq, executeCached_eq,
    show (m.inContext c).countHit = m.countHit.inContext c from rfl]
  exact (unaware_execute b).andThen (unaware_setPc b.stop) m.countHit c

theorem unaware_keep (b : Block) : Unaware fun m => m.keep b := by
  intro m c
  show (m.inContext c).keep b = (m.keep b).map _ _
  unfold keep
  rw [show (m.inContext c).core = m.core from rfl]
  cases m.core.cache.insert b.start b <;> rfl

theorem unaware_executeNew : Unaware fun m => m.executeNew runBlock := by
  intro m c
  show (m.inContext c).executeNew runBlock = (m.executeNew runBlock).map _ _
  have same : (m.inContext c).compileHere = m.compileHere := rfl
  cases compiled : m.compileHere with
  | error e =>
    unfold executeNew
    rw [same, compiled]
    rfl
  | ok b =>
    rw [executeNew_eq compiled, executeNew_eq (same.trans compiled),
      show (m.inContext c).announcing b = (m.announcing b).inContext c from rfl]
    -- The context is not consulted inside a block, so it can be exchanged before or after.
    have commutes := unaware_execute b (m.announcing b) c
    dsimp only at commutes
    rw [commutes]
    generalize (m.announcing b).execute runBlock b = r
    obtain ⟨m', e⟩ := r
    cases e with
    | some e => rfl
    | none => exact unaware_keep b m' c

theorem unaware_interpret (i : Inst) : Unaware fun m => m.interpret i := fun m c =>
  (unaware_step i).andThen (unaware_setPc i.next) m.countInterpreted c

/-! ## Dispatches -/

/-- All that an operation has to do with the context is that it makes a control transfer here or
none. -/
def Heeds (f : Machine → Machine × Option Stop) (m : Machine) : Prop :=
  ∃ t ≤ 1, ∀ c, f (m.inContext c) = (f m).map (·.inContext (c.after t)) id

/-- What has nothing to do with the context makes no transfer. -/
theorem Unaware.heeds {f : Machine → Machine × Option Stop} (h : Unaware f) (m : Machine) :
    Heeds f m :=
  ⟨0, Nat.zero_le 1, fun c => by rw [h, c.after_zero]⟩

theorem Heeds.congr {f g : Machine → Machine × Option Stop} (h : Heeds g m)
    (same : ∀ c, f (m.inContext c) = g (m.inContext c)) : Heeds f m := by
  have here : f m = g m := same m.context
  obtain ⟨t, ht, commutes⟩ := h
  exact ⟨t, ht, fun c => by rw [same, here, commutes]⟩

theorem heeds_control (i : Inst) (m : Machine) : Heeds (·.control i) m := by
  have commutes (c : Context) : (m.inContext c).jump i = (m.jump i).map (·.inContext c) id :=
    unaware_jump i m c
  unfold control
  cases jumped : m.jump i with
  | mk m' e =>
    rw [jumped] at commutes
    cases e with
    | some e =>
      refine ⟨0, Nat.zero_le 1, fun c => ?_⟩
      dsimp only
      rw [commutes c, jumped, c.after_zero]
      rfl
    | none =>
      refine ⟨1, Nat.le_refl 1, fun c => ?_⟩
      dsimp only
      rw [commutes c, jumped]
      rfl

theorem heeds_dispatchFresh (m : Machine) : Heeds (dispatchFresh runBlock) m := by
  have read (c : Context) : Isa.decode (m.inContext c).proc.program.code (m.inContext c).core.pc
      = Isa.decode m.proc.program.code m.core.pc := rfl
  -- Only a transfer of control looks at the context; the other ways are unaware of it.
  cases decoded : Isa.decode m.proc.program.code m.core.pc with
  | error e =>
    have refuses : Unaware fun m => (m, some e) := fun _ _ => rfl
    refine (refuses.heeds m).congr fun c => ?_
    unfold dispatchFresh
    rw [read, decoded]
  | ok i =>
    cases control : i.info.isControl with
    | true =>
      refine (heeds_control i m).congr fun c => ?_
      unfold dispatchFresh
      rw [read, decoded]
      exact if_pos control
    | false =>
      cases mode : m.proc.mode with
      | interpret =>
        refine ((unaware_interpret i).heeds m).congr fun c => ?_
        unfold dispatchFresh
        rw [read, decoded, show (m.inContext c).proc.mode = .interpret from mode]
        exact if_neg (by simp [control])
      | jit =>
        refine (unaware_executeNew.heeds m).congr fun c => ?_
        unfold dispatchFresh
        rw [read, decoded, show (m.inContext c).proc.mode = .jit from mode]
        exact if_neg (by simp [control])

theorem heeds_dispatch (m : Machine) : Heeds dispatch m := by
  cases mode : m.proc.mode with
  | interpret =>
    refine (heeds_dispatchFresh m).congr fun c => ?_
    exact dispatch_interpreting mode
  | jit =>
    cases found : m.core.cache.find? m.core.pc with
    | none =>
      refine (heeds_dispatchFresh m).congr fun c => ?_
      exact dispatch_missing found
    | some b =>
      refine ((unaware_executeCached b).heeds m).congr fun c => ?_
      unfold dispatch dispatchWith
      rw [show (m.inContext c).proc.mode = .jit from mode,
        show (m.inContext c).core.cache.find? (m.inContext c).core.pc = some b from found]

/-! ## Runs in a context -/

/-- The machine, where the context gets done at the `n`-th control transfer and is done already if
`d` says so. -/
def withContext (m : Machine) (n : Nat) (d : Bool) : Machine := m.inContext ⟨m.proc.transfers, n, d⟩

def uncanceled (m : Machine) : Machine := m.withContext 0 false

/-- From `m` to `x`, no control transfer changes such a context. -/
def Steady (n : Nat) (d : Bool) (m x : Machine) : Prop :=
  d = true ∨ ¬ (m.proc.transfers < n ∧ n ≤ x.proc.transfers)

/-- A dispatch makes at most one control transfer. If that is the `n`-th, the context gets done. -/
theorem dispatch_withContext (m : Machine) :
    ∃ t ≤ 1, m.dispatch.1.proc.transfers = m.proc.transfers + t ∧ ∀ n d,
      (m.withContext n d).dispatch
        = m.dispatch.map (·.withContext n (d || t == 1 && m.proc.transfers + 1 == n)) id := by
  obtain ⟨t, ht, commutes⟩ := heeds_dispatch m
  -- In its own context the machine shows how many transfers the dispatch makes.
  have own := commutes m.context
  rw [inContext_context] at own
  generalize m.dispatch = r at commutes own ⊢
  have transfers : r.1.proc.transfers = m.proc.transfers + t := congrArg (·.1.proc.transfers) own
  refine ⟨t, ht, transfers, fun n d => (commutes _).trans (Prod.ext ?_ rfl)⟩
  show r.1.inContext _ = r.1.inContext _
  rw [transfers]
  rfl

/-- As long as its context is steady, a machine is dispatched as without one. -/
theorem dispatch_steady {e : Option Stop} (done : m.dispatch = (x, e)) (steady : Steady n d m x) :
    m.proc.transfers ≤ x.proc.transfers ∧
      (m.withContext n d).dispatch = (x.withContext n d, e) := by
  obtain ⟨t, ht, transfers, commutes⟩ := dispatch_withContext m
  rw [done] at transfers commutes
  dsimp only at transfers
  refine ⟨by omega, (commutes n d).trans ?_⟩
  have same : (d || t == 1 && m.proc.transfers + 1 == n) = d := by
    rcases steady with rfl | steady
    · rfl
    · have other : ¬ (t = 1 ∧ m.proc.transfers + 1 = n) := by omega
      simpa using fun ht hn => absurd ⟨ht, hn⟩ other
  rw [same]
  rfl

/-- The dispatch that makes the `n`-th control transfer. -/
theorem dispatch_last {e : Option Stop} (done : m.dispatch = (x, e))
    (before : m.proc.transfers + 1 = n) (after : x.proc.transfers = n) :
    (m.withContext n d).dispatch = (x.withContext n true, e) := by
  obtain ⟨t, -, transfers, commutes⟩ := dispatch_withContext m
  rw [done] at transfers commutes
  dsimp only at transfers
  obtain rfl : t = 1 := by omega
  refine (commutes n d).trans ?_
  rw [before]
  simp

theorem steady_done : Steady n true m x := .inl rfl

theorem steady_never : Steady 0 d m x := .inr fun h => Nat.not_lt_zero _ h.1

theorem transfers_mono (h : Advances runBlock i m x) : m.proc.transfers ≤ x.proc.transfers := by
  induction h with
  | refl => exact Nat.le_refl _
  | step _ done _ ih => exact Nat.le_trans (dispatch_steady done (steady_done (n := 0))).1 ih

/-- The loop makes dispatches that it does not look between, or in a context that is not done, as
the run without cancellation does. -/
theorem dispatchFor_advances (h : Advances runBlock i m x) (steady : Steady n d m x)
    (unseen : d = true → ∀ l, k ≤ l → l < k + i → l % cancelInterval ≠ 0) (fuel : Nat) :
    dispatchFor runBlock (i + fuel) k (m.withContext n d)
      = dispatchFor runBlock fuel (k + i) (x.withContext n d) := by
  -- Control transfers only add up, so a context that is steady up to `x` is so in every dispatch.
  induction h generalizing k with
  | refl => rw [Nat.zero_add, Nat.add_zero]
  | @step i m m₁ x running done rest ih =>
    have onward := transfers_mono rest
    have here : Steady n d m m₁ := steady.imp_right fun h => by omega
    obtain ⟨mono, dispatched⟩ := dispatch_steady done here
    have looks : ¬ (k % cancelInterval = 0 ∧ (m.withContext n d).proc.canceled = true) := by
      rintro ⟨multiple, canceled⟩
      exact unseen canceled k (Nat.le_refl k) (by omega) multiple
    rw [Nat.add_right_comm, dispatchFor, if_neg looks,
      if_neg (show ¬ (m.withContext n d).core.pc < 0 from Int64.not_lt.mpr running),
      show (m.withContext n d).dispatchWith runBlock = _ from dispatched]
    dsimp only
    rw [ih (steady.imp_right fun h => by omega) fun hd l hl hl' =>
      unseen hd l (by omega) (by omega), Nat.add_right_comm, Nat.add_assoc]

/-- A run that ends before the next look ends the same in a context that is done. -/
theorem dispatchFor_ends (h : Ends runBlock i m y o) (steady : Steady n d m y)
    (unseen : d = true → ∀ l, k ≤ l → l ≤ k + i → l % cancelInterval ≠ 0) (enough : i < fuel) :
    dispatchFor runBlock fuel k (m.withContext n d) = (y.withContext n d, o) := by
  obtain ⟨x, first, last⟩ := Ends.take (k := 0) h
  obtain ⟨rest, rfl⟩ : ∃ rest, fuel = i + (rest + 1) := ⟨fuel - i - 1, by omega⟩
  have looks : ¬ ((k + i) % cancelInterval = 0 ∧ (x.withContext n d).proc.canceled = true) := by
    rintro ⟨multiple, canceled⟩
    exact unseen canceled (k + i) (by omega) (Nat.le_refl _) multiple
  have before := transfers_mono first
  have unseen' : d = true → ∀ l, k ≤ l → l < k + i → l % cancelInterval ≠ 0 :=
    fun hd l hl hl' => unseen hd l hl (by omega)
  cases last with
  | halted halted =>
    rw [dispatchFor_advances first steady unseen', dispatchFor, if_neg looks,
      if_pos (show (y.withContext n d).core.pc < 0 from halted)]
  | stopped running failed =>
    have here : Steady n d x y := steady.imp_right fun h => by omega
    obtain ⟨mono, dispatched⟩ := dispatch_steady failed here
    rw [dispatchFor_advances first (steady.imp_right fun h => by omega) unseen', dispatchFor,
      if_neg looks, if_neg (show ¬ (x.withContext n d).core.pc < 0 from Int64.not_lt.mpr running),
      show (x.withContext n d).dispatchWith runBlock = _ from dispatched]

/-! ## The next look -/

def contextError : Stop := .failure (.cause .canceled)

/-- The dispatches after which a loop that has made `k` of them looks at its context. -/
def nextLook (k : Nat) : Nat := (k + (cancelInterval - 1)) / cancelInterval * cancelInterval

/-- The next look is at the least multiple of the interval that is not behind us. -/
theorem isLeast_nextLook (k : Nat) : IsLeast {j | cancelInterval ∣ j ∧ k ≤ j} (nextLook k) := by
  unfold nextLook cancelInterval
  refine ⟨⟨Nat.dvd_mul_left .., by omega⟩, ?_⟩
  rintro _ ⟨⟨q, rfl⟩, hk⟩
  omega

theorem nextLook_lt (k : Nat) : nextLook k < k + cancelInterval := by
  unfold nextLook cancelInterval
  omega

theorem not_look {l : Nat} (hk : k ≤ l) (hl : l < nextLook k) : l % cancelInterval ≠ 0 := by
  intro multiple
  have least := (isLeast_nextLook k).2 ⟨Nat.dvd_of_mod_eq_zero multiple, hk⟩
  exact absurd least (Nat.not_le.mpr hl)

theorem dispatchFor_look (look : k % cancelInterval = 0) (fuel : Nat) :
    dispatchFor runBlock (fuel + 1) k (m.withContext n true)
      = (m.withContext n true, .stopped contextError) := by
  rw [dispatchFor, if_pos ⟨look, rfl⟩]
  rfl

/-- A run whose context is done ends by itself before the next look, if the run without cancellation
does. -/
theorem dispatchFor_done_ends (h : Ends runBlock i m y o) (early : k + i < nextLook k)
    (enough : cancelInterval ≤ fuel) :
    dispatchFor runBlock fuel k (m.withContext n true) = (y.withContext n true, o) := by
  have near := nextLook_lt k
  exact dispatchFor_ends h steady_done (fun _ l hl hl' => not_look hl (by omega)) (by omega)

/-- Otherwise that look ends it. -/
theorem dispatchFor_done_look (h : Advances runBlock i m y) (look : k + i = nextLook k)
    (enough : cancelInterval ≤ fuel) :
    dispatchFor runBlock fuel k (m.withContext n true)
      = (y.withContext n true, .stopped contextError) := by
  have near := nextLook_lt k
  obtain ⟨rest, rfl⟩ : ∃ rest, fuel = i + (rest + 1) := ⟨fuel - i - 1, by omega⟩
  rw [dispatchFor_advances h steady_done fun _ l hl hl' => not_look hl (by omega), look]
  exact dispatchFor_look (Nat.mod_eq_zero_of_dvd (isLeast_nextLook k).1.1) rest

/-! ## What is told of a run -/

/-- One core, later on. What was told of it meanwhile were no starts and stops. -/
structure AtWork (m x : Machine) : Prop where
  id : x.core.id = m.core.id
  told : ∃ news, x.books.told = m.books.told ++ news ∧ ∀ e ∈ news, e.isMark = false

theorem AtWork.refl (m : Machine) : AtWork m m := ⟨rfl, [], (List.append_nil _).symm, by simp⟩

theorem AtWork.trans (h : AtWork m x) (h' : AtWork x y) : AtWork m y := by
  obtain ⟨news, told, unmarked⟩ := h.told
  obtain ⟨news', told', unmarked'⟩ := h'.told
  refine ⟨h'.id.trans h.id, news ++ news', ?_, ?_⟩
  · rw [told', told, List.append_assoc]
  · intro e he
    exact (List.mem_append.mp he).elim (unmarked e) (unmarked' e)

theorem atWork_dispatch (m : Machine) : AtWork m m.dispatch.1 := by
  have booked := booked m
  -- The books list what is told in a dispatch, and none of it is the mark of a run.
  refine ⟨booked.same.1, ?_⟩
  generalize m.dispatch = r at booked
  cases booked with
  | refused books | evaluated _ books =>
    refine ⟨[], ?_, by simp⟩
    rw [books]
    exact (List.append_nil _).symm
  | transferred f books => exact ⟨[.control m.core.id f], by rw [books]; rfl, by
      simp [Event.isMark]⟩
  | hit services _ books =>
    refine ⟨.executed m.core.id :: services.map (.service m.core.id), ?_, by simp [Event.isMark]⟩
    rw [books]
    exact List.append_assoc ..
  | lost b services _ books | kept b services _ books =>
    refine ⟨b.report m.core.id :: .executed m.core.id :: services.map (.service m.core.id), ?_,
      by simp [Event.isMark, Block.report]⟩
    rw [books]
    simp [Books.kept, Books.served, Books.executing, Books.compiled, Machine.books]

theorem Advances.atWork (h : Advances runBlock i m x) : AtWork m x := by
  induction h with
  | refl m => exact .refl m
  | @step _ m _ _ _ done _ ih =>
    have first := atWork_dispatch m
    rw [show m.dispatch = _ from done] at first
    exact first.trans ih

theorem Ends.atWork (h : Ends runBlock i m x o) : AtWork m x := by
  obtain ⟨y, first, last⟩ := Ends.take (k := 0) h
  refine first.atWork.trans ?_
  cases last with
  | halted => exact .refl _
  | stopped _ failed =>
    have last := atWork_dispatch y
    rwa [show y.dispatch = _ from failed] at last

/-! ## Runs that are cut off -/

/-- The machine, where the context is done from now on. -/
def cancel (m : Machine) : Machine := { m with proc := { m.proc with canceled := true } }

/-- The end of a run, with the core's statistics and its observer up to date. -/
def conclude (r : Machine × Outcome) : Machine × Outcome := (r.1.concluded r.2, r.2)

/-- A run whose context gets done during dispatch `k`, or right before the first one if `k` is 0.
After that it makes at most `fuel` dispatches. A dispatch does not look at the context, so it is all
one at which point of dispatch `k` that happens. -/
def runCanceledIn (k fuel : Nat) (m : Machine) : Machine × Outcome :=
  match dispatchFor runBlock k 0 m.uncanceled.begin with
  | (x, .unfinished) => conclude (dispatchFor runBlock fuel k x.cancel)
  | r => conclude r

/-- Dispatch `k` of the run without cancellation makes the `n`-th control transfer of the
process. -/
def TransfersIn (n k : Nat) (m : Machine) : Prop :=
  ∃ i x y, k = i + 1 ∧ Advances runBlock i m.uncanceled.begin x ∧ Advances runBlock 1 x y ∧
    x.proc.transfers + 1 = n ∧ y.proc.transfers = n

def Outcome.error : Outcome → Option Stop
  | .stopped e => some e
  | .halted | .unfinished => none

/-- The run `r` of a core is the run without cancellation, cut off after `j` dispatches: up to its
context it ends in the same state, and the observer is told once that it starts and stops. -/
structure CutOff (m : Machine) (j : Nat) (r : Machine × Outcome) : Prop where
  /-- A run that halts after fewer dispatches gives no error. -/
  halts : ∀ i y, i < j → Ends runBlock i m.uncanceled.begin y .halted →
    r.2 = .halted ∧ r.1.uncanceled = y.finish none
  /-- A run that fails in one of these dispatches gives its error. -/
  fails : ∀ i y e, i < j → Ends runBlock i m.uncanceled.begin y (.stopped e) →
    r.2 = .stopped e ∧ r.1.uncanceled = y.finish (some e)
  /-- A run that makes all of them gives the error of the context. -/
  cut : ∀ y, Advances runBlock j m.uncanceled.begin y →
    r.2 = .stopped contextError ∧ r.1.uncanceled = y.finish (some contextError)
  returns : r.2 ≠ .unfinished
  rests : r.1.core.stats.running = false
  reported : ∃ news, r.1.proc.told m.core.id = m.proc.told m.core.id ++
      [.started m.core.id] ++ news ++ [.stopped m.core.id r.2.error] ∧
    ∀ e ∈ news, e.isMark = false

section

variable {j : Nat} {r : Machine × Outcome}

theorem uncanceled_finish {e : Option Stop} (h : x.uncanceled = x) :
    (x.finish e).uncanceled = x.finish e := by
  show x.uncanceled.finish e = x.finish e
  rw [h]

/-- A run without cancellation stays in a context that is never done. -/
theorem Advances.uncanceled (h : Advances runBlock i m x) (hm : m.uncanceled = m) :
    x.uncanceled = x := by
  induction h with
  | refl => exact hm
  | @step _ m x _ _ done _ ih =>
    refine ih ?_
    have same := (dispatch_steady done (steady_never (d := false))).2
    rw [show m.withContext 0 false = m from hm, show m.dispatch = _ from done] at same
    exact (congrArg Prod.fst same).symm

/-- A run that starts without a context ends without one. -/
theorem Ends.uncanceled (h : Ends runBlock i m x o) (hm : m.uncanceled = m) :
    x.uncanceled = x := by
  obtain ⟨y, first, last⟩ := Ends.take (k := 0) h
  have hy := first.uncanceled hm
  cases last with
  | halted => exact hy
  | stopped _ failed =>
    have same := (dispatch_steady failed (steady_never (d := false))).2
    rw [show y.withContext 0 false = y from hy, show y.dispatch = _ from failed] at same
    exact (congrArg Prod.fst same).symm

/-- A run that ended is concluded with its own outcome. -/
theorem Ends.concluded (h : Ends runBlock i m x o) :
    o ≠ .unfinished ∧ x.concluded o = x.finish o.error := by
  induction h with
  | halted => exact ⟨Outcome.noConfusion, rfl⟩
  | stopped => exact ⟨Outcome.noConfusion, rfl⟩
  | step _ _ _ ih => exact ih

/-- What a run that is over leaves behind: a core at rest, and the observer told. -/
theorem over_finish {e : Option Stop} (work : AtWork m.uncanceled.begin x)
    (state : r.1.uncanceled = x.finish e) :
    r.1.core.stats.running = false ∧
      ∃ news, r.1.proc.told m.core.id = m.proc.told m.core.id ++
          [.started m.core.id] ++ news ++ [.stopped m.core.id e] ∧
        ∀ e ∈ news, e.isMark = false := by
  obtain ⟨news, told, unmarked⟩ := work.told
  have id : x.core.id = m.core.id := work.id
  have begun : m.uncanceled.begin.books.told = m.proc.told m.core.id ++ [.started m.core.id] :=
    congrArg Books.told (books_begin m.uncanceled)
  have ended : r.1.books = x.books.marked false (.stopped x.core.id e) :=
    (congrArg books state).trans (books_finish x e)
  have rid : r.1.core.id = m.core.id := (congrArg Books.id ended).trans id
  refine ⟨congrArg (·.stats.running) ended, news, ?_, unmarked⟩
  calc r.1.proc.told m.core.id
      = r.1.books.told := by rw [← rid]; rfl
    _ = x.books.told ++ [.stopped x.core.id e] := congrArg Books.told ended
    _ = _ := by rw [told, begun, id]

theorem CutOff.of_ends (hi : i < j) (h : Ends runBlock i m.uncanceled.begin y o)
    (outcome : r.2 = o) (state : r.1.uncanceled = (y.concluded o).uncanceled) : CutOff m j r := by
  obtain ⟨returns, concluded⟩ := h.concluded
  have state : r.1.uncanceled = y.finish o.error := by
    rw [state, concluded, uncanceled_finish (h.uncanceled rfl)]
  obtain ⟨rests, reported⟩ := over_finish h.atWork state
  rw [← outcome] at returns reported
  refine ⟨fun i' x h' he => ?_, fun i' x e h' he => ?_, fun x hx => ?_, returns, rests, reported⟩
  · obtain ⟨-, rfl, rfl⟩ := h.unique he
    exact ⟨outcome, state⟩
  · obtain ⟨-, rfl, rfl⟩ := h.unique he
    exact ⟨outcome, state⟩
  · obtain ⟨rest, hrest, -⟩ := h.split hx
    omega

/-- A run that goes on to the next look is cut off there. -/
theorem CutOff.of_advances (h : Advances runBlock j m.uncanceled.begin y)
    (outcome : r.2 = .stopped contextError)
    (state : r.1.uncanceled = (y.finish (some contextError)).uncanceled) : CutOff m j r := by
  rw [uncanceled_finish (h.uncanceled rfl)] at state
  obtain ⟨rests, reported⟩ := over_finish h.atWork state
  have late {i : Nat} {x : Machine} {o : Outcome} (hi : i < j)
      (he : Ends runBlock i m.uncanceled.begin x o) : False := by
    obtain ⟨rest, hrest, -⟩ := he.split h
    omega
  refine ⟨fun i x hi he => (late hi he).elim, fun i x e hi he => (late hi he).elim, fun x hx => ?_,
    ?_, rests, ?_⟩
  · rw [hx.unique h]
    exact ⟨outcome, state⟩
  · rw [outcome]
    exact Outcome.noConfusion
  · rw [outcome]
    exact reported

end

theorem conclude_withContext (x : Machine) (o : Outcome) (n : Nat) (d : Bool) :
    (conclude (x.withContext n d, o)).1.uncanceled = (x.concluded o).uncanceled := by
  cases o <;> rfl

/-- A run whose context is done after `k` dispatches is cut off at the next look. -/
theorem cutOff_done (first : Advances runBlock k m.uncanceled.begin x)
    (enough : cancelInterval ≤ fuel) :
    CutOff m (nextLook k) (conclude (dispatchFor runBlock fuel k (x.withContext n true))) := by
  have reached : k ≤ nextLook k := (isLeast_nextLook k).1.2
  rcases advances_or_ends runBlock (nextLook k - k) x with ⟨y, rest⟩ | ⟨i, y, o, hi, rest⟩
  · have whole := first.trans rest
    rw [Nat.add_sub_cancel' reached] at whole
    rw [dispatchFor_done_look rest (by omega) enough]
    exact .of_advances whole rfl (conclude_withContext y _ n true)
  · rw [dispatchFor_done_ends rest (by omega) enough]
    exact .of_ends (by omega) (first.ends rest) rfl (conclude_withContext y o n true)

/-- A run in a context that is done is cut off at the next look. -/
theorem cutOff_runCanceledIn (m : Machine) (k : Nat) (enough : cancelInterval ≤ fuel) :
    CutOff m (nextLook k) (m.runCanceledIn k fuel) := by
  have reached : k ≤ nextLook k := (isLeast_nextLook k).1.2
  unfold runCanceledIn
  rcases advances_or_ends runBlock k m.uncanceled.begin with ⟨x, first⟩ | ⟨i, y, o, hi, ends⟩
  · have before := dispatchFor_advances first (steady_never (d := false)) (k := 0) (by simp) 0
    rw [Nat.add_zero, Nat.zero_add] at before
    rw [show dispatchFor runBlock k 0 m.uncanceled.begin = _ from before]
    show CutOff m (nextLook k) (conclude (dispatchFor runBlock fuel k (x.withContext 0 true)))
    exact cutOff_done first enough
  · have before := dispatchFor_ends ends (steady_never (d := false)) (k := 0) (by simp) hi
    rw [show dispatchFor runBlock k 0 m.uncanceled.begin = _ from before]
    have ended : CutOff m (nextLook k) (conclude (y.withContext 0 false, o)) :=
      .of_ends (by omega) ends rfl (conclude_withContext y o 0 false)
    cases o with
    | halted | stopped => exact ended
    | unfinished => exact absurd rfl ends.concluded.1

/-- A run whose context gets done at its `n`-th control transfer. -/
theorem cutOff_transfersIn (transfer : m.TransfersIn n k) (enough : cancelInterval ≤ fuel) :
    CutOff m (nextLook k) ((m.withContext n false).runFor runBlock (k + fuel)) := by
  obtain ⟨i, x, y, rfl, first, last, before, after⟩ := transfer
  -- Up to the transfer the context is not done, so the runs with and without it agree.
  have steady : Steady n false m.uncanceled.begin x := .inr fun h => by omega
  have running : dispatchFor runBlock (i + (1 + fuel)) 0 (m.withContext n false).begin
      = dispatchFor runBlock (1 + fuel) i (x.withContext n false) := by
    have running := dispatchFor_advances first steady (k := 0) (by simp) (1 + fuel)
    rwa [Nat.zero_add] at running
  have done : dispatchFor runBlock (1 + fuel) i (x.withContext n false)
      = dispatchFor runBlock fuel (i + 1) (y.withContext n true) := by
    cases last with
    | step running done rest =>
      cases rest
      have looks : ¬ (i % cancelInterval = 0 ∧ (x.withContext n false).proc.canceled = true) :=
        fun h => Bool.noConfusion h.2
      rw [Nat.add_comm, dispatchFor, if_neg looks,
        if_neg (show ¬ (x.withContext n false).core.pc < 0 from Int64.not_lt.mpr running),
        show (x.withContext n false).dispatchWith runBlock = _ from
          dispatch_last done before after]
  rw [runFor_eq, Nat.add_assoc, running, done]
  exact cutOff_done (first.trans last) enough

/-- A run whose context is done before makes no dispatch. -/
theorem cutOff_before (m : Machine) (n : Nat) (enough : cancelInterval ≤ fuel) :
    CutOff m 0 ((m.withContext n true).runFor runBlock fuel) := by
  obtain ⟨rest, rfl⟩ : ∃ rest, fuel = rest + 1 :=
    ⟨fuel - 1, by unfold cancelInterval at enough; omega⟩
  have given : dispatchFor runBlock (rest + 1) 0 (m.withContext n true).begin
      = ((m.withContext n true).begin, .stopped contextError) :=
    dispatchFor_look (m := m.begin) rfl rest
  rw [runFor_eq, given]
  exact .of_advances (.refl _) rfl rfl

/-- Cancellation cuts a run between two dispatches, in either mode and whatever the program and the
core. Where the context is done before the run, no dispatch is made. Where it gets done during
dispatch `k`, by whatever means or at a control transfer, the run follows the one without
cancellation up to the first multiple of 1024 dispatches that is not less than `k`. -/
theorem cancellation_cuts_runs (m : Machine) (enough : cancelInterval ≤ fuel) :
    (∀ n, CutOff m 0 ((m.withContext n true).runFor runBlock fuel)) ∧
    (∀ k, CutOff m (nextLook k) (m.runCanceledIn k fuel)) ∧
    (∀ n k, m.TransfersIn n k →
      CutOff m (nextLook k) ((m.withContext n false).runFor runBlock (k + fuel))) :=
  ⟨fun n => cutOff_before m n enough, fun k => cutOff_runCanceledIn m k enough,
    fun _ _ transfer => cutOff_transfersIn transfer enough⟩

/-- A program that jumps to itself for ever. -/
def spins : Program where
  header := ⟨64, 64, 0, 0⟩
  code := #[0x81, 0x01, 0x00, 0x00, 0x00, 0x00]
  global := [1, 2, 3, 4]

theorem decode_spins :
    ∃ i, Isa.decode spins.code 0 = .ok i ∧ i.family = .jmp ∧ absolute i 0 = 0 := by
  have hpeek : Isa.peek spins.code 0 = .ok _ := @Isa.entry_eq_ok 0 385 _ rfl
  unfold Isa.decode
  rw [hpeek]
  exact ⟨_, rfl, rfl, rfl⟩

/-- A core at the jump, in either mode. -/
structure Spins (m : Machine) : Prop where
  pc : m.core.pc = 0
  code : m.proc.program.code = spins.code
  cache : m.core.cache = {}

theorem Spins.dispatch (h : m.Spins) :
    ∃ x, m.dispatch = (x, none) ∧ x.Spins ∧ x.proc.transfers = m.proc.transfers + 1 := by
  obtain ⟨i, read, family, target⟩ := decode_spins
  have control : i.info.isControl = true := by
    show i.family.isControl = true
    rw [family]
    rfl
  have missing : m.core.cache.find? m.core.pc = none := by
    rw [h.cache]
    rfl
  have jumped : m.jump i = (m.setPc 0, none) := by
    unfold jump
    rw [family, ← target]
  refine ⟨(m.setPc 0).account i, ?_, ⟨rfl, h.code, h.cache⟩, rfl⟩
  rw [show m.dispatch = m.dispatchFresh runBlock from dispatch_missing missing,
    dispatchFresh, h.code, h.pc, read]
  dsimp only
  rw [if_pos control, Machine.control, jumped]

theorem Spins.advances (h : m.Spins) (n : Nat) :
    ∃ x, Advances runBlock n m x ∧ x.Spins ∧ x.proc.transfers = m.proc.transfers + n := by
  induction n generalizing m with
  | zero => exact ⟨m, .refl m, h, rfl⟩
  | succ n ih =>
    obtain ⟨x, done, hx, count⟩ := h.dispatch
    obtain ⟨y, rest, hy, count'⟩ := ih hx
    exact ⟨y, .step (by rw [h.pc]; decide) done rest, hy, by omega⟩

/-- A loop that never ends, in a context that is done at the start and in one that is done later. -/
theorem cancellation_cuts_runs_spins :
    ∃ m x, boot spins {} 0 0 = .ok m ∧ Advances runBlock 1024 m.uncanceled.begin x ∧
      (let r := (m.withContext 0 true).runFor runBlock 1024
       r.2 = .stopped contextError ∧
       r.1.uncanceled = m.uncanceled.begin.finish (some contextError)) ∧
      (let r := m.runCanceledIn 3 1024
       r.2 = .stopped contextError ∧ r.1.uncanceled = x.finish (some contextError)) ∧
      (let r := (m.withContext 5 false).runFor runBlock (5 + 1024)
       r.2 = .stopped contextError ∧ r.1.uncanceled = x.finish (some contextError)) := by
  obtain ⟨m, hm, hpc, hcode, hcache, hcount⟩ : ∃ m, boot spins {} 0 0 = .ok m ∧ m.core.pc = 0 ∧
      m.proc.program.code = spins.code ∧ m.core.cache = {} ∧ m.proc.transfers = 0 :=
    ⟨_, rfl, rfl, rfl, rfl, rfl⟩
  have spinning : m.uncanceled.begin.Spins := ⟨hpc, hcode, hcache⟩
  obtain ⟨x, whole, -⟩ := spinning.advances 1024
  -- The fifth transfer is the fifth dispatch, since each pass of the loop is a single jump.
  have transfer : m.TransfersIn 5 5 := by
    obtain ⟨y, first, hy, count⟩ := spinning.advances 4
    obtain ⟨z, last, -, count'⟩ := hy.advances 1
    have count₀ : m.uncanceled.begin.proc.transfers = 0 := hcount
    exact ⟨4, y, z, rfl, first, last, by omega, by omega⟩
  obtain ⟨before, canceled, transferred⟩ := @cancellation_cuts_runs 1024 m (Nat.le_refl _)
  refine ⟨m, x, hm, whole, (before 0).cut _ (.refl _), ?_, ?_⟩
  · exact (canceled 3).cut x whole
  · exact (transferred 5 5 transfer).cut x whole

end Machine

end BlockVM
