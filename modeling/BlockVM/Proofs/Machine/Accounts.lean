import BlockVM.Proofs.Machine.CachedBlocks

/-!
# Accounts

A core counts what it does, tells an observer of it and keeps the blocks that it compiled. `booked`
says what one dispatch enters into these books, for every way in which it can end. It follows in
`accounts_balance` that counters, events and cache agree, however often a core is dispatched and
whatever fails.

Counters wrap at 2^64, so a number is compared with a counter as `UInt64.ofNat`.
-/

namespace BlockVM

open Isa (Inst Family)

/-! ## Events of a core -/

namespace Event

def core : Event → Nat
  | .started c | .stopped c _ | .compiled c _ _ | .executed c | .service c _ | .control c _ => c

@[simp] def isCompiled : Event → Bool
  | .compiled .. => true
  | _ => false

@[simp] def isExecuted : Event → Bool
  | .executed _ => true
  | _ => false

@[simp] def isService : Event → Bool
  | .service .. => true
  | _ => false

@[simp] def isControl : Event → Bool
  | .control .. => true
  | _ => false

def isMark : Event → Bool
  | .started _ | .stopped .. => true
  | _ => false

/-- The bytes of machine code that an event reports. -/
def bytes : Event → Nat
  | .compiled _ _ n => n
  | _ => 0

end Event

def Block.report (id : Nat) (b : Block) : Event := .compiled id b.insts b.code.size

namespace Proc

/-- What the observer was told of a core, in order. -/
def told (p : Proc) (id : Nat) : List Event := p.events.toList.filter (·.core == id)

/-- The process changes, but not in its mode, and nothing is told of the core. -/
structure Elsewhere (id : Nat) (p p' : Proc) : Prop where
  mode : p'.mode = p.mode
  told : p'.told id = p.told id

/-- An event is told to the account of its own core. -/
@[simp] theorem told_notify (p : Proc) (e : Event) (id : Nat) :
    (p.notify e).told id = p.told id ++ if e.core = id then [e] else [] := by
  unfold told notify
  rw [Array.toList_push, List.filter_append]
  by_cases h : e.core = id <;> simp [h]

end Proc

/-! ## Books -/

/-- The books of a core, with what they are kept for. -/
structure Books where
  id : Nat
  mode : Mode
  stats : Stats
  cache : Cache
  /-- What the observer was told of the core. -/
  told : List Event

namespace Books

def transferred (f : Family) (b : Books) : Books :=
  { b with
    stats := { b.stats with controls := b.stats.controls + 1 }
    told := b.told ++ [.control b.id f] }

def evaluating (b : Books) : Books :=
  { b with stats := { b.stats with interpreted := b.stats.interpreted + 1 } }

def hit (b : Books) : Books := { b with stats := { b.stats with hits := b.stats.hits + 1 } }

def compiled (x : Block) (b : Books) : Books :=
  { b with
    stats := { b.stats with compiled := b.stats.compiled + 1 }
    told := b.told ++ [x.report b.id] }

def executing (b : Books) : Books :=
  { b with
    stats := { b.stats with executed := b.stats.executed + 1 }
    told := b.told ++ [.executed b.id] }

def marked (running : Bool) (e : Event) (b : Books) : Books :=
  { b with stats := { b.stats with running := running }, told := b.told ++ [e] }

def kept (x : Block) (b : Books) : Books :=
  { b with
    stats := { b.stats with
      blocks := b.stats.blocks + 1
      codeBytes := b.stats.codeBytes + UInt64.ofNat x.code.size }
    cache := ⟨Cache.insertInto x.start x b.cache.entries⟩ }

/-- The host performed instructions of these families for a block. -/
def served (services : List Family) (b : Books) : Books :=
  { b with
    stats := { b.stats with
      serviceExits := b.stats.serviceExits + UInt64.ofNat services.length }
    told := b.told ++ services.map (.service b.id) }

theorem served_nil (b : Books) : b.served [] = b := by simp [served]

theorem served_cons (f : Family) (fs : List Family) (b : Books) :
    b.served (f :: fs) = (b.served [f]).served fs := by
  simp [served, UInt64.ofNat_add, UInt64.add_assoc, UInt64.add_comm]

end Books

namespace Machine

def books (m : Machine) : Books where
  id := m.core.id
  mode := m.proc.mode
  stats := m.core.stats
  cache := m.core.cache
  told := m.proc.told m.core.id

/-! ## Steps -/

theorem Effect.id {m m' : Machine} (h : Effect m m') : m'.core.id = m.core.id := by
  induction h with
  | trans _ _ ih ih' => exact ih'.trans ih
  | _ => rfl

/-- The books depend on the core's number and on its guise. -/
theorem books_eq {m m' : Machine} (hid : m'.core.id = m.core.id) (h : m'.guise = m.guise) :
    m'.books = m.books := by
  unfold books
  rw [hid]
  congr 1
  · exact congrArg Guise.mode h
  · exact congrArg Guise.stats h
  · exact congrArg Guise.cache h
  · unfold Proc.told
    rw [show m'.proc.events = m.proc.events from congrArg Guise.events h]

/-- An instruction by itself is not booked; what runs it books it. -/
theorem books_step {code : Array UInt8} {pc : Int64} {i : Inst}
    (read : Isa.decode code pc = .ok i) (m : Machine) : (m.step i).1.books = m.books :=
  books_eq (effect_step (Isa.decode_eq_ok read) m).id (guise_step m i)

theorem Jumped.books {m m' : Machine} {i : Inst} {e : Option Stop} (h : Jumped m i m' e) :
    m'.books = m.books := by
  cases h <;> rfl

/-- Counts something and tells of it. -/
theorem books_notify_count (m : Machine) (f : Stats → Stats) {e : Event}
    (own : e.core = m.core.id) :
    ((m.count f).notify e).books =
      { m.books with stats := f m.core.stats, told := m.books.told ++ [e] } := by
  have told : (m.proc.notify e).told m.core.id = m.proc.told m.core.id ++ [e] := by
    rw [Proc.told_notify, if_pos own]
  unfold books
  dsimp only [count, notify]
  rw [told]
  rfl

theorem books_account (m : Machine) (i : Inst) :
    (m.account i).books = m.books.transferred i.family :=
  books_notify_count m _ rfl

/-! ## Executions -/

/-- Instructions that the host performs for a block enter nothing but themselves. -/
def Serves (m : Machine) (r : Machine × Option Stop) : Prop :=
  ∃ services, r.1.books = m.books.served services

theorem Serves.same {m : Machine} {r : Machine × Option Stop} (h : r.1.books = m.books) :
    Serves m r :=
  ⟨[], by rw [h, Books.served_nil]⟩

/-- A service is booked if there is an instruction that asks for it. -/
theorem serves_serviceAt (m : Machine) (pc : Int64) :
    (m.serviceAt pc).1.books = m.books ∨
      ∃ f, (m.serviceAt pc).1.books = m.books.served [f] := by
  unfold serviceAt
  split
  · exact .inl rfl
  next i read =>
    refine .inr ⟨i.family, ?_⟩
    rw [books_step read]
    exact books_notify_count m _ rfl

/-- A block in machine code books the services that it asks for, in order; by induction on the
fuel. -/
theorem serves_resume (b : Block) (fuel : Nat) (offset : UInt32) (m : Machine) :
    Serves m (resume b fuel offset m) := by
  induction fuel generalizing offset m with
  | zero => exact .same rfl
  | succ fuel ih =>
    unfold resume
    split
    · exact .same rfl
    next token v called =>
      dsimp only
      split
      · exact .same rfl
      · split
        · exact .same rfl
        -- One service may be counted here, and the rest of the block
        -- is a resumption with less fuel.
        · have performed := serves_serviceAt (m.adopt v) (token >>> 32).toInt64
          split
          next m' e heq =>
            rw [heq] at performed
            rcases performed with same | ⟨f, served⟩
            · exact .same same
            · exact ⟨[f], served⟩
          next m' heq =>
            rw [heq] at performed
            obtain ⟨fs, rest⟩ := ih token.toUInt32 m'
            rcases performed with same | ⟨f, served⟩
            · exact ⟨fs, by rw [rest, same]; rfl⟩
            · exact ⟨f :: fs, by rw [rest, served, ← Books.served_cons]; rfl⟩

/-- Executing a block books the execution and then its services. -/
theorem serves_execute (b : Block) (m : Machine) :
    ∃ services, (m.execute runBlock b).1.books = m.books.executing.served services := by
  unfold execute runBlock
  obtain ⟨services, h⟩ := serves_resume b (b.code.size + 1) 0
    ((m.count fun s => { s with executed := s.executed + 1 }).notify (.executed m.core.id))
  rw [books_notify_count m _ rfl] at h
  exact ⟨services, h⟩

/-! ## Dispatches -/

/-- The block that the next dispatch compiles, if it gets that far. -/
def newBlock? (m : Machine) : Option Block :=
  match m.proc.mode, m.core.cache.find? m.core.pc, Isa.decode m.proc.program.code m.core.pc with
  | .jit, none, .ok i => if i.info.isControl then none else m.compileHere.toOption
  | _, _, _ => none

/-- The next dispatch compiles a block, and its first execution fails. -/
def losesBlock (m : Machine) : Bool :=
  m.newBlock?.any fun b => ((m.announcing b).execute runBlock b).2.isSome

/-- The next dispatch evaluates an instruction, and that fails. -/
def failsInStep (m : Machine) : Bool :=
  match m.proc.mode, Isa.decode m.proc.program.code m.core.pc with
  | .interpret, .ok i => !i.info.isControl && (m.countInterpreted.step i).2.isSome
  | _, _ => false

/-- What a dispatch can enter into the books. -/
inductive Booked (m : Machine) : Machine × Option Stop → Prop
  /-- It fails before anything is done. -/
  | refused {m' : Machine} {e : Stop} (books : m'.books = m.books)
      (nothing : m.losesBlock = false ∧ m.failsInStep = false) : Booked m (m', some e)
  | transferred {m' : Machine} (f : Family) (books : m'.books = m.books.transferred f)
      (nothing : m.losesBlock = false ∧ m.failsInStep = false) : Booked m (m', none)
  | evaluated {r : Machine × Option Stop} (mode : m.proc.mode = .interpret)
      (books : r.1.books = m.books.evaluating) (failed : m.failsInStep = r.2.isSome) :
      Booked m r
  /-- A block is found and executed, to its end or not. -/
  | hit {r : Machine × Option Stop} (services : List Family) (mode : m.proc.mode = .jit)
      (books : r.1.books = (m.books.hit.executing).served services)
      (nothing : m.losesBlock = false) : Booked m r
  | lost {m' : Machine} {e : Stop} (b : Block) (services : List Family)
      (mode : m.proc.mode = .jit)
      (books : m'.books = ((m.books.compiled b).executing).served services)
      (failed : m.losesBlock = true) : Booked m (m', some e)
  | kept {m' : Machine} (b : Block) (services : List Family) (mode : m.proc.mode = .jit)
      (books : m'.books = (((m.books.compiled b).executing).served services).kept b)
      (nothing : m.losesBlock = false) : Booked m (m', none)

theorem books_announcing (m : Machine) (b : Block) :
    (m.announcing b).books = m.books.compiled b :=
  books_notify_count m _ rfl

theorem books_keep {m : Machine} {b : Block} (missing : m.core.cache.find? b.start = none) :
    ∃ m', m.keep b = (m', none) ∧ m'.books = m.books.kept b := by
  unfold keep Cache.insert
  rw [missing]
  exact ⟨_, rfl, rfl⟩

/-- A hit books the hit, and then what the block asks for. -/
theorem booked_executeCached {m : Machine} {b : Block} (mode : m.proc.mode = .jit)
    (found : m.core.cache.find? m.core.pc = some b) :
    Booked m (m.executeCached runBlock b) := by
  have nothing : m.losesBlock = false := by
    simp [losesBlock, newBlock?, mode, found]
  obtain ⟨fs, h⟩ := serves_execute b (m.count fun s => { s with hits := s.hits + 1 })
  refine .hit fs mode ?_ nothing
  refine Eq.trans ?_ h
  unfold executeCached
  dsimp only
  split
  next heq => rw [heq]
  next heq =>
    rw [heq]
    rfl

theorem booked_executeNew {m : Machine} {i : Inst} (mode : m.proc.mode = .jit)
    (missing : m.core.cache.find? m.core.pc = none)
    (read : Isa.decode m.proc.program.code m.core.pc = .ok i) (plain : ¬ i.info.isControl = true) :
    Booked m (m.executeNew runBlock) := by
  have hnew : m.newBlock? = m.compileHere.toOption := by
    simp [newBlock?, mode, missing, read, plain]
  cases hcompile : m.compileHere with
  | error e =>
    unfold executeNew
    rw [hcompile]
    refine .refused rfl ⟨?_, ?_⟩
    · simp [losesBlock, hnew, hcompile, Except.toOption]
    · simp [failsInStep, mode]
  | ok b =>
    have hlost : m.losesBlock = ((m.announcing b).execute runBlock b).2.isSome := by
      simp [losesBlock, hnew, hcompile, Except.toOption]
    obtain ⟨services, h⟩ := serves_execute b (m.announcing b)
    rw [books_announcing] at h
    rw [executeNew_eq hcompile]
    split
    next m' e heq =>
      rw [heq] at h hlost
      exact .lost b services mode h hlost
    next m' heq =>
      rw [heq] at h hlost
      -- The execution leaves the cache alone, so the address is still free.
      have missing' : m'.core.cache.find? b.start = none := by
        rw [show m'.core.cache = m.core.cache from congrArg Books.cache h,
          (isRun_of_compile hcompile).start_eq]
        exact missing
      obtain ⟨m'', hkeep, books⟩ := books_keep missing'
      rw [hkeep]
      refine .kept b services mode ?_ hlost
      rw [books, h]

theorem booked_control {m : Machine} {i : Inst}
    (read : Isa.decode m.proc.program.code m.core.pc = .ok i) (hc : i.info.isControl = true) :
    Booked m (m.control i) := by
  have nothing : m.losesBlock = false ∧ m.failsInStep = false := by
    constructor
    · unfold losesBlock newBlock?
      rw [read]
      split <;> simp_all
    · unfold failsInStep
      rw [read]
      split <;> simp_all
  have moved := (jumped m hc).books
  unfold control
  split
  next m' e heq =>
    rw [heq] at moved
    exact .refused moved nothing
  next m' heq =>
    rw [heq] at moved
    refine .transferred i.family ?_ nothing
    rw [books_account, moved]

/-- An interpreted instruction that does not transfer control. -/
theorem booked_interpret {m : Machine} {i : Inst} (mode : m.proc.mode = .interpret)
    (read : Isa.decode m.proc.program.code m.core.pc = .ok i) (plain : ¬ i.info.isControl = true) :
    Booked m (m.interpret i) := by
  have hfails : m.failsInStep = (m.countInterpreted.step i).2.isSome := by
    simp [failsInStep, mode, read, plain]
  have stepped := books_step read m.countInterpreted
  refine .evaluated mode ?_ ?_
  · refine Eq.trans ?_ stepped
    unfold interpret countInterpreted
    dsimp only
    split
    next heq => rw [heq]
    next heq =>
      rw [heq]
      rfl
  · rw [hfails]
    unfold interpret countInterpreted
    dsimp only
    split
    all_goals
      next heq => rw [heq]

/-- Every dispatch changes the books in one of the ways of `Booked`. -/
theorem booked (m : Machine) : Booked m m.dispatch := by
  unfold dispatch dispatchWith
  -- The cases of a dispatch: a block of the cache, an opcode that cannot be
  -- read, a transfer of control, and the two modes.
  split
  next b mode found => exact booked_executeCached mode found
  next other =>
    unfold dispatchFresh
    split
    next e failed =>
      refine .refused rfl ⟨?_, ?_⟩
      · simp [losesBlock, newBlock?, failed]
      · simp [failsInStep, failed]
    next i read =>
      split
      next hc => exact booked_control read hc
      next plain =>
        split
        next mode => exact booked_interpret mode read plain
        next mode =>
          refine booked_executeNew mode ?_ read plain
          exact Option.eq_none_iff_forall_ne_some.mpr fun b found => other b mode found

end Machine

/-! ## Balance -/

namespace Cache

theorem length_insertInto (k : Int64) (x : Block) (es : List (Int64 × Block)) :
    (insertInto k x es).length = es.length + 1 := by
  induction es with
  | nil => rfl
  | cons e es ih =>
    unfold insertInto
    split
    · rfl
    · simp [ih]

theorem perm_insertInto (k : Int64) (x : Block) (es : List (Int64 × Block)) :
    (insertInto k x es).Perm ((k, x) :: es) := by
  induction es with
  | nil => exact .refl _
  | cons e es ih =>
    unfold insertInto
    split
    · exact .refl _
    · exact (ih.cons e).trans (.swap ..)

end Cache

namespace Books

/-- The counters are the numbers of events in `news`. -/
structure Tells (b : Books) (news : List Event) : Prop where
  compiled : b.stats.compiled = UInt64.ofNat (news.countP Event.isCompiled)
  executed : b.stats.executed = UInt64.ofNat (news.countP Event.isExecuted)
  services : b.stats.serviceExits = UInt64.ofNat (news.countP Event.isService)
  controls : b.stats.controls = UInt64.ofNat (news.countP Event.isControl)

/-- The reports `kept` are those of the cached blocks, with all bytes of the cache. -/
structure Reports (b : Books) (kept : List Event) : Prop where
  blocks : kept.Perm (b.cache.entries.map (·.2.report b.id))
  bytes : (kept.map Event.bytes).sum = b.cache.codeBytes

/-- The books of a core that compiles, was told of by `news` and lost `lost` blocks in their first
execution. -/
structure Compiling (b : Books) (lost : Nat) (news : List Event) : Prop where
  executed : b.stats.executed = b.stats.hits + b.stats.compiled
  blocks : b.stats.blocks = UInt64.ofNat b.cache.size
  codeBytes : b.stats.codeBytes = UInt64.ofNat b.cache.codeBytes
  compiled : b.stats.compiled = b.stats.blocks + UInt64.ofNat lost
  interpreted : b.stats.interpreted = 0
  tells : b.Tells news
  reports : ∃ kept, kept.Sublist news ∧ b.Reports kept

/-- The books of a core that interprets and got through `done` instructions or failed in them. -/
structure Interpreting (b : Books) (done : Nat) : Prop where
  compiled : b.stats.compiled = 0
  executed : b.stats.executed = 0
  hits : b.stats.hits = 0
  serviceExits : b.stats.serviceExits = 0
  blocks : b.stats.blocks = 0
  codeBytes : b.stats.codeBytes = 0
  total : b.stats.interpreted + b.stats.controls = UInt64.ofNat done

namespace Tells

variable {b : Books} {news : List Event}

theorem transferred (h : b.Tells news) (f : Family) :
    (b.transferred f).Tells (news ++ [.control b.id f]) := by
  constructor <;>
    simp [Books.transferred, h.compiled, h.executed, h.services, h.controls, UInt64.ofNat_add]

theorem hit (h : b.Tells news) : b.hit.Tells news :=
  ⟨h.compiled, h.executed, h.services, h.controls⟩

theorem report (h : b.Tells news) (x : Block) :
    (b.compiled x).Tells (news ++ [x.report b.id]) := by
  constructor <;>
    simp [Books.compiled, Block.report, h.compiled, h.executed, h.services, h.controls,
      UInt64.ofNat_add]

theorem executing (h : b.Tells news) : b.executing.Tells (news ++ [.executed b.id]) := by
  constructor <;>
    simp [Books.executing, h.compiled, h.executed, h.services, h.controls, UInt64.ofNat_add]

theorem served (h : b.Tells news) (fs : List Family) :
    (b.served fs).Tells (news ++ fs.map (.service b.id)) := by
  constructor <;>
    simp [Books.served, h.compiled, h.executed, h.services, h.controls, UInt64.ofNat_add,
      Function.comp_def]

theorem kept (h : b.Tells news) (x : Block) : (b.kept x).Tells news :=
  ⟨h.compiled, h.executed, h.services, h.controls⟩

theorem marked (h : b.Tells news) (running : Bool) {e : Event} (mark : e.isMark = true) :
    (b.marked running e).Tells (news ++ [e]) := by
  cases e with
  | started | stopped =>
    constructor <;> simp [Books.marked, h.compiled, h.executed, h.services, h.controls]
  | _ => cases mark

end Tells

theorem size_kept (b : Books) (x : Block) : (b.kept x).cache.size = b.cache.size + 1 :=
  Cache.length_insertInto _ _ _

/-- The cache has the kept block besides those that it had. -/
theorem perm_kept (b : Books) (x : Block) :
    ((b.kept x).cache.entries.map (·.2)).Perm (x :: b.cache.entries.map (·.2)) :=
  (Cache.perm_insertInto x.start x b.cache.entries).map _

theorem codeBytes_kept (b : Books) (x : Block) :
    (b.kept x).cache.codeBytes = b.cache.codeBytes + x.code.size := by
  have sums := ((perm_kept b x).map fun y => y.code.size).sum_nat
  simp only [List.map_map, List.map_cons, List.sum_cons] at sums
  unfold Cache.codeBytes
  rw [Nat.add_comm]
  exact sums

theorem Reports.keep {b : Books} {kept : List Event} (h : b.Reports kept) (x : Block) :
    (b.kept x).Reports (kept ++ [x.report b.id]) := by
  constructor
  · have perm := (perm_kept b x).map (Block.report b.id)
    simp only [List.map_map, List.map_cons] at perm
    refine .trans ?_ perm.symm
    exact (List.perm_append_singleton ..).trans (h.blocks.cons _)
  · rw [codeBytes_kept, List.map_append, List.sum_append, h.bytes]
    rfl

namespace Compiling

variable {b : Books} {lost : Nat} {news : List Event}

theorem transferred (h : b.Compiling lost news) (f : Family) :
    (b.transferred f).Compiling lost (news ++ [.control b.id f]) := by
  obtain ⟨kept, sub, reports⟩ := h.reports
  exact ⟨h.executed, h.blocks, h.codeBytes, h.compiled, h.interpreted, h.tells.transferred f,
    kept, sub.trans (List.sublist_append_left ..), reports.blocks, reports.bytes⟩

/-- A block that was found is executed. -/
theorem replayed (h : b.Compiling lost news) (fs : List Family) :
    (b.hit.executing.served fs).Compiling lost
      (news ++ [.executed b.id] ++ fs.map (.service b.id)) := by
  obtain ⟨kept, sub, reports⟩ := h.reports
  refine ⟨?_, h.blocks, h.codeBytes, h.compiled, h.interpreted, (h.tells.hit.executing).served fs,
    kept, ?_, reports.blocks, reports.bytes⟩
  · show b.stats.executed + 1 = b.stats.hits + 1 + b.stats.compiled
    grind [h.executed]
  · rw [List.append_assoc]
    exact sub.trans (List.sublist_append_left ..)

/-- The first execution of a block fails. -/
theorem lose (h : b.Compiling lost news) (x : Block) (fs : List Family) :
    ((b.compiled x).executing.served fs).Compiling (lost + 1)
      (news ++ [x.report b.id] ++ [.executed b.id] ++ fs.map (.service b.id)) := by
  obtain ⟨kept, sub, reports⟩ := h.reports
  refine ⟨?_, h.blocks, h.codeBytes, ?_, h.interpreted, ((h.tells.report x).executing).served fs,
    kept, ?_, reports.blocks, reports.bytes⟩
  · show b.stats.executed + 1 = b.stats.hits + (b.stats.compiled + 1)
    grind [h.executed]
  · show b.stats.compiled + 1 = b.stats.blocks + UInt64.ofNat (lost + 1)
    rw [h.compiled, UInt64.ofNat_add]
    exact UInt64.add_assoc ..
  · simp only [List.append_assoc]
    exact sub.trans (List.sublist_append_left ..)

/-- The first execution of a block succeeds, so it is kept. -/
theorem keep (h : b.Compiling lost news) (x : Block) (fs : List Family) :
    (((b.compiled x).executing.served fs).kept x).Compiling lost
      (news ++ [x.report b.id] ++ [.executed b.id] ++ fs.map (.service b.id)) := by
  obtain ⟨kept, sub, reports⟩ := h.reports
  have reports' : ((b.compiled x).executing.served fs).Reports kept :=
    ⟨reports.blocks, reports.bytes⟩
  refine ⟨?_, ?_, ?_, ?_, h.interpreted, (((h.tells.report x).executing).served fs).kept x,
    kept ++ [x.report b.id], ?_, reports'.keep x⟩
  · show b.stats.executed + 1 = b.stats.hits + (b.stats.compiled + 1)
    grind [h.executed]
  · rw [size_kept, UInt64.ofNat_add]
    exact congrArg (· + 1) h.blocks
  · rw [codeBytes_kept, UInt64.ofNat_add]
    exact congrArg (· + _) h.codeBytes
  · show b.stats.compiled + 1 = b.stats.blocks + 1 + UInt64.ofNat lost
    grind [h.compiled]
  · simp only [List.append_assoc]
    refine List.Sublist.append sub ?_
    exact List.sublist_append_left ..

theorem marked (h : b.Compiling lost news) (running : Bool) {e : Event} (mark : e.isMark = true) :
    (b.marked running e).Compiling lost (news ++ [e]) := by
  obtain ⟨kept, sub, reports⟩ := h.reports
  exact ⟨h.executed, h.blocks, h.codeBytes, h.compiled, h.interpreted, h.tells.marked running mark,
    kept, sub.trans (List.sublist_append_left ..), reports.blocks, reports.bytes⟩

end Compiling

/-- An interpreted transfer is one more instruction. -/
theorem Interpreting.transferred {b : Books} {n : Nat} (h : b.Interpreting n) (f : Family) :
    (b.transferred f).Interpreting (n + 1) := by
  refine ⟨h.compiled, h.executed, h.hits, h.serviceExits, h.blocks, h.codeBytes, ?_⟩
  show b.stats.interpreted + (b.stats.controls + 1) = _
  rw [UInt64.ofNat_add, ← h.total]
  exact (UInt64.add_assoc ..).symm

theorem Interpreting.evaluating {b : Books} {n : Nat} (h : b.Interpreting n) :
    b.evaluating.Interpreting (n + 1) := by
  refine ⟨h.compiled, h.executed, h.hits, h.serviceExits, h.blocks, h.codeBytes, ?_⟩
  show b.stats.interpreted + 1 + b.stats.controls = _
  rw [UInt64.ofNat_add, ← h.total]
  grind

end Books

namespace Machine

/-! ## Histories -/

/-- What a core goes through: dispatches, of which the states before them are listed, starts and
stops of its runs, and changes of its process that `env` allows. -/
inductive History (env : Proc → Proc → Prop) (start : Machine) : List Machine → Machine → Prop
  | start : History env start [] start
  | dispatch {ms : List Machine} {m : Machine} (h : History env start ms m) :
      History env start (ms ++ [m]) m.dispatch.1
  | begin {ms : List Machine} {m : Machine} (h : History env start ms m) :
      History env start ms m.begin
  | finish {ms : List Machine} {m : Machine} (h : History env start ms m) (error : Option Stop) :
      History env start ms (m.finish error)
  | change {ms : List Machine} {m : Machine} {proc : Proc} (h : History env start ms m)
      (allowed : env m.proc proc) : History env start ms (m.setProc proc)

/-- A run of dispatches is a history, by induction on the fuel. -/
theorem History.dispatchFor {env : Proc → Proc → Prop} {start m : Machine} {ms : List Machine}
    (h : History env start ms m) (fuel n : Nat) :
    ∃ ms', History env start (ms ++ ms') (Machine.dispatchFor runBlock fuel n m).1 := by
  induction fuel generalizing n m ms with
  | zero => exact ⟨[], by rwa [List.append_nil]⟩
  | succ fuel ih =>
    unfold Machine.dispatchFor
    split
    · exact ⟨[], by rwa [List.append_nil]⟩
    · split
      · exact ⟨[], by rwa [List.append_nil]⟩
      · have next := h.dispatch
        unfold Machine.dispatch at next
        split
        next heq =>
          rw [heq] at next
          exact ⟨[m], next⟩
        next heq =>
          rw [heq] at next
          obtain ⟨ms', rest⟩ := ih next (n + 1)
          exact ⟨m :: ms', by rwa [List.append_assoc] at rest⟩

/-- A run is a history. -/
theorem History.runFor {env : Proc → Proc → Prop} {start m : Machine} {ms : List Machine}
    (h : History env start ms m) (fuel : Nat) :
    ∃ ms', History env start (ms ++ ms') (Machine.runFor runBlock fuel m).1 := by
  obtain ⟨ms', run⟩ := h.begin.dispatchFor fuel 0
  refine ⟨ms', ?_⟩
  unfold Machine.runFor
  split
  next heq =>
    rw [heq] at run
    exact run.finish none
  next heq =>
    rw [heq] at run
    exact run.finish _
  next heq =>
    rw [heq] at run
    exact run

theorem books_begin (m : Machine) : m.begin.books = m.books.marked true (.started m.core.id) :=
  books_notify_count m _ rfl

theorem books_finish (m : Machine) (error : Option Stop) :
    (m.finish error).books = m.books.marked false (.stopped m.core.id error) :=
  books_notify_count m _ rfl

theorem Booked.same {m : Machine} {r : Machine × Option Stop} (h : Booked m r) :
    r.1.core.id = m.core.id ∧ r.1.proc.mode = m.proc.mode := by
  have same {b : Books} (books : r.1.books = b) (hid : b.id = m.books.id)
      (hmode : b.mode = m.books.mode) : r.1.core.id = m.core.id ∧ r.1.proc.mode = m.proc.mode :=
    ⟨(congrArg Books.id books).trans hid, (congrArg Books.mode books).trans hmode⟩
  cases h with
  | refused books | transferred _ books | evaluated _ books | hit _ _ books | lost _ _ _ books
  | kept _ _ _ books => exact same books rfl rfl

/-- A core keeps its number and its mode. -/
theorem History.same {start m : Machine} {ms : List Machine}
    (h : History (Proc.Elsewhere start.core.id) start ms m) :
    m.core.id = start.core.id ∧ m.proc.mode = start.proc.mode := by
  induction h with
  | start => exact ⟨rfl, rfl⟩
  | @dispatch _ m _ ih => exact ⟨(booked m).same.1.trans ih.1, (booked m).same.2.trans ih.2⟩
  | begin _ ih | finish _ _ ih => exact ih
  | change _ allowed ih => exact ⟨ih.1, allowed.mode.trans ih.2⟩

/-- The books of a core that compiles balance, and nothing that was told is taken back. -/
def Balances (before : List Event) (lost : Nat) (b : Books) : Prop :=
  ∃ news, b.told = before ++ news ∧ b.Compiling lost news

/-- What balances goes on balancing with the events of one more step. -/
theorem Balances.append {before : List Event} {lost : Nat} {b b' : Books} {news es : List Event}
    (told : b.told = before ++ news) (told' : b'.told = b.told ++ es)
    (h : b'.Compiling lost (news ++ es)) : Balances before lost b' :=
  ⟨news ++ es, by rw [told', told, List.append_assoc], h⟩

/-- The step lemma with compilation: a dispatch keeps the balance, and loses a block exactly if a
new one fails. -/
theorem balances_dispatch {m : Machine} {before : List Event} {lost : Nat}
    (mode : m.proc.mode = .jit) (h : Balances before lost m.books) :
    Balances before (lost + if m.losesBlock then 1 else 0) m.dispatch.1.books := by
  obtain ⟨news, told, h⟩ := h
  have booked := booked m
  -- The books say all that the balance needs, so the dispatch itself can be forgotten.
  generalize m.dispatch = r at booked
  cases booked with
  | refused books nothing =>
    rw [nothing.1, books]
    exact ⟨news, told, h⟩
  | transferred f books nothing =>
    rw [nothing.1, books]
    exact .append told rfl (h.transferred f)
  | evaluated mode' =>
    rw [mode] at mode'
    cases mode'
  | hit services _ books nothing =>
    rw [nothing, books]
    have done := h.replayed services
    rw [List.append_assoc] at done
    exact .append told (List.append_assoc ..) done
  | lost b services _ books failed =>
    rw [failed, books]
    have done := h.lose b services
    simp only [List.append_assoc] at done
    refine .append told ?_ done
    simp [Books.served, Books.executing, Books.compiled]
  | kept b services _ books nothing =>
    rw [nothing, books]
    have done := h.keep b services
    simp only [List.append_assoc] at done
    refine .append told ?_ done
    simp [Books.kept, Books.served, Books.executing, Books.compiled]

/-- The step lemma of interpretation: a dispatch counts one instruction, unless it fails before it
gets to one. -/
theorem interpreting_dispatch {m : Machine} {n : Nat} (mode : m.proc.mode = .interpret)
    (h : m.books.Interpreting n) :
    m.dispatch.1.books.Interpreting
      (n + (if m.dispatch.2.isNone then 1 else 0) + if m.failsInStep then 1 else 0) := by
  have booked := booked m
  generalize m.dispatch = r at booked
  cases booked with
  | refused books nothing =>
    rw [nothing.2, books]
    exact h
  | transferred f books nothing =>
    rw [nothing.2, books]
    exact h.transferred f
  | evaluated _ books failed =>
    rw [failed, books]
    obtain ⟨m', e⟩ := r
    cases e with
    | none | some => exact h.evaluating
  | hit _ mode' | lost _ _ mode' | kept _ _ mode' =>
    rw [mode] at mode'
    cases mode'

/-- The run lemma with compilation, by induction on the history. -/
theorem History.balances {start m : Machine} {ms : List Machine}
    (h : History (Proc.Elsewhere start.core.id) start ms m) (mode : start.proc.mode = .jit)
    {before : List Event} (initially : Balances before 0 start.books) :
    Balances before (ms.countP losesBlock) m.books := by
  induction h with
  | start => exact initially
  | @dispatch ms m h ih =>
    rw [List.countP_append, List.countP_singleton]
    exact balances_dispatch (h.same.2.trans mode) ih
  | @begin ms m _ ih =>
    obtain ⟨news, told, balanced⟩ := ih
    rw [books_begin]
    exact .append told rfl (balanced.marked true rfl)
  | @finish ms m _ failed ih =>
    obtain ⟨news, told, balanced⟩ := ih
    rw [books_finish]
    exact .append told rfl (balanced.marked false rfl)
  | @change ms m proc h allowed ih =>
    -- Foreign changes keep the mode and all that was told about this core, so they change no book.
    have hid : m.core.id = start.core.id := h.same.1
    have books : (m.setProc proc).books = m.books := by
      show Books.mk _ proc.mode _ _ (proc.told m.core.id) = _
      rw [allowed.mode, hid, allowed.told, ← hid]
      rfl
    rw [books]
    exact ih

theorem History.interpreting {start m : Machine} {ms : List Machine}
    (h : History (Proc.Elsewhere start.core.id) start ms m) (mode : start.proc.mode = .interpret)
    (initially : start.books.Interpreting 0) :
    m.books.Interpreting (ms.countP (·.dispatch.2.isNone) + ms.countP failsInStep) := by
  induction h with
  | start => exact initially
  | @dispatch ms m h ih =>
    have done := interpreting_dispatch (h.same.2.trans mode) ih
    simp only [List.countP_append, List.countP_singleton]
    convert done using 1
    omega
  | begin _ ih | finish _ _ ih | change _ _ ih =>
    exact ⟨ih.compiled, ih.executed, ih.hits, ih.serviceExits, ih.blocks, ih.codeBytes, ih.total⟩

theorem newCore_books {p p' : Proc} {c : Core} {start : Int64} {param : UInt64}
    (made : p.newCore start param = (p', .ok c)) :
    c.stats = { core := Int64.ofNat c.id } ∧ p'.mode = p.mode ∧ ∀ id, p'.told id = p.told id := by
  unfold Proc.newCore at made
  dsimp only at made
  split at made
  · cases made
  · cases made
    exact ⟨rfl, rfl, fun id => rfl⟩

/-- The counters of a core, what was told of it and its cache agree after every dispatch, however
its dispatches go. It was dispatched in the states `ms`; meanwhile its process may change in any way
that leaves the mode alone and tells nothing of this core, also in its executable memory. -/
theorem accounts_balance {p p' : Proc} {c : Core} {start : Int64} {param : UInt64}
    {ms : List Machine} {m : Machine} (made : p.newCore start param = (p', .ok c))
    (h : History (Proc.Elsewhere c.id) ⟨c, p'⟩ ms m) :
    (p.mode = .jit → ∃ news, m.proc.told c.id = p.told c.id ++ news ∧
      m.books.Compiling (ms.countP losesBlock) news) ∧
    (p.mode = .interpret →
      m.books.Interpreting (ms.countP (·.dispatch.2.isNone) + ms.countP failsInStep)) := by
  obtain ⟨stats, hmode, told⟩ := newCore_books made
  replace h : History (Proc.Elsewhere (mk c p').core.id) ⟨c, p'⟩ ms m := h
  -- A new core has empty books, and so the initial balance holds in both modes.
  have empty : c.cache = {} := (newCore_eq_ok made).2.2.2.2
  constructor
  · intro mode
    have initially : Balances (p.told c.id) 0 (books ⟨c, p'⟩) := by
      refine ⟨[], by rw [List.append_nil]; exact told c.id, ?_⟩
      show Books.Compiling ⟨c.id, p'.mode, c.stats, c.cache, p'.told c.id⟩ 0 []
      rw [stats, empty]
      exact ⟨rfl, rfl, rfl, rfl, rfl, ⟨rfl, rfl, rfl, rfl⟩, [], .slnil, .nil, rfl⟩
    obtain ⟨news, htold, balanced⟩ := h.balances (hmode.trans mode) initially
    refine ⟨news, ?_, balanced⟩
    rw [← htold]
    show _ = m.proc.told m.core.id
    rw [h.same.1]
  · intro mode
    refine h.interpreting (hmode.trans mode) ?_
    show Books.Interpreting ⟨c.id, p'.mode, c.stats, c.cache, p'.told c.id⟩ 0
    rw [stats]
    exact ⟨rfl, rfl, rfl, rfl, rfl, rfl, rfl⟩

/-- A loop that is compiled once and then found in the cache. -/
theorem accounts_balance_idles :
    (∃ p p' c, Proc.new idles { mode := .jit } = .ok p ∧ p.newCore 0 0 = (p', .ok c) ∧
      (let m : Machine := ⟨c, p'⟩
       let m' := m.dispatch.1.dispatch.1
       m'.books.Compiling ([m, m.dispatch.1].countP losesBlock) (m'.proc.told c.id))) ∧
    (∃ p p' c, Proc.new idles { mode := .interpret } = .ok p ∧ p.newCore 0 0 = (p', .ok c) ∧
      ∃ ms m, History (Proc.Elsewhere c.id) ⟨c, p'⟩ ms m ∧ m = (runFor runBlock 3 ⟨c, p'⟩).1 ∧
        m.books.Interpreting (ms.countP (·.dispatch.2.isNone) + ms.countP failsInStep)) := by
  have begun (c : Core) (p : Proc) : History (Proc.Elsewhere c.id) ⟨c, p⟩ [] ⟨c, p⟩ := .start
  constructor
  · obtain ⟨p, p', c, hp, made, mode, silent⟩ : ∃ p p' c,
        Proc.new idles { mode := .jit } = .ok p ∧ p.newCore 0 0 = (p', .ok c) ∧
          p.mode = .jit ∧ p.told c.id = [] :=
      ⟨_, _, _, rfl, Prod.ext rfl rfl, rfl, rfl⟩
    obtain ⟨news, told, balanced⟩ := (accounts_balance made (begun c p').dispatch.dispatch).1 mode
    rw [silent, List.nil_append] at told
    rw [← told] at balanced
    exact ⟨p, p', c, hp, made, balanced⟩
  · obtain ⟨p, p', c, hp, made, mode⟩ : ∃ p p' c,
        Proc.new idles { mode := .interpret } = .ok p ∧ p.newCore 0 0 = (p', .ok c) ∧
          p.mode = .interpret :=
      ⟨_, _, _, rfl, Prod.ext rfl rfl, rfl⟩
    obtain ⟨ms, run⟩ := (begun c p').runFor 3
    exact ⟨p, p', c, hp, made, _, _, run, rfl, (accounts_balance made run).2 mode⟩

end Machine

end BlockVM
