import BlockVM.Proofs.Machine.Ledger

/-!
# Heaps made and destroyed at the same time

Making a heap and destroying one are not atomic: each goes through a few sections, and between two
of them other cores go on. `HeapWork` is a process with the calls that are under way, and
`HeapWork.Step` lets any of them go through its next section.

A heap is in the table before it is in the space. A core that names its address in between can take
it out of the space before it is put in; `missed` keeps the heaps with that fate. `InOrder` says
where everything else is: what is mapped is held by a core, in the table, or in the hands of one
call, and what is in the space or on its way there is what is in the table, about to be taken out,
or missed. Each section keeps it (`InOrder.advance`), and so does a run.
-/

namespace BlockVM

/-- An arena after the mapping of `h` is gone. -/
def Arena.shut (h a : Arena) : Arena := if Space.same h a then a.close else a

/-- How far a call has got with its heap. -/
inductive Stage where
  /-- Its mapping is made. -/
  | mapped
  /-- It is in the table, and will be put in the space. -/
  | listed
  /-- It is out of the table. -/
  | struck
  /-- It is out of the space, and will be closed. -/
  | removed
deriving DecidableEq, Repr

/-- A call of the memory manager that is under way. -/
inductive HeapTask where
  | make (size : UInt64)
  | named (name : String) (size : UInt64)
  | destroy (base : UInt64)
  | holds (stage : Stage) (h : Arena)
deriving DecidableEq, Repr

def HeapTask.heapAt (stage : Stage) : HeapTask → Option Arena
  | .holds stage' h => if stage' = stage then some h else none
  | _ => none

/-- A call after the mapping of a heap is gone. -/
def HeapTask.shut (h : Arena) : HeapTask → HeapTask
  | .holds stage a => .holds stage (h.shut a)
  | t => t

/-- A process and the calls of its memory manager that are under way. -/
structure HeapWork where
  proc : Proc
  tasks : List HeapTask := []
  /-- Heaps that were to be taken out of the space before they were put in. -/
  missed : List Arena := []

namespace HeapWork

def heapsAt (w : HeapWork) (stage : Stage) : List Arena := w.tasks.filterMap (·.heapAt stage)

def goOn (w : HeapWork) (t : HeapTask) : HeapWork := { w with tasks := t :: w.tasks }

def setProc (w : HeapWork) (p : Proc) : HeapWork := { w with proc := p }

def setHeaps (w : HeapWork) (heaps : List (UInt64 × Arena)) : HeapWork :=
  w.setProc { w.proc with heaps := heaps }

/-- The host makes other plans; above all, it may hand out addresses again. -/
def plan (w : HeapWork) (answers : List Answer) : HeapWork :=
  w.setProc { w.proc with host := { w.proc.host with plan := answers } }

/-! ### Sections of a make -/

def draw (w : HeapWork) (size : UInt64) : HeapWork :=
  if size = 0 ∨ Proc.maxHeap < size then w
  else (w.setProc { w.proc with heapCount := w.proc.heapCount + 1 }).goOn
    (.named ("heap" ++ toString w.proc.heapCount) size)

def map (w : HeapWork) (name : String) (size : UInt64) : HeapWork :=
  match w.proc.host.map name size.toInt64 with
  | .error _ => w
  | .ok (h, host) => (w.setProc { w.proc with host := host }).goOn (.holds .mapped h)

/-- The heap gets into the table. -/
def enter (w : HeapWork) (h : Arena) : HeapWork :=
  (w.setHeaps ((h.base, h) :: w.proc.heaps.eraseP (·.1 == h.base))).goOn (.holds .listed h)

/-- The heap gets into the space. -/
def register (w : HeapWork) (h : Arena) : HeapWork := w.setProc (w.proc.register h)

/-! ### Sections of a destroy -/

/-- The heap at an address is taken out of the table. -/
def strike (w : HeapWork) (base : UInt64) : HeapWork :=
  match w.proc.heaps.lookup base with
  | none => w
  | some h => (w.setHeaps (w.proc.heaps.eraseP (·.1 == base))).goOn (.holds .struck h)

/-- The heap is taken out of the space, if it is there. -/
def remove (w : HeapWork) (h : Arena) : HeapWork :=
  { w with
    proc := { w.proc with space := w.proc.space.remove h }
    missed := if h ∈ w.heapsAt .listed then h :: w.missed else w.missed }.goOn (.holds .removed h)

/-- The mapping of a heap is taken back. Whoever still knows of the heap finds it closed. -/
def unmap (w : HeapWork) (h : Arena) : HeapWork where
  proc := { w.proc with
    host := w.proc.host.unmap h
    space := w.proc.space.close h
    heaps := w.proc.heaps.map fun e => (e.1, h.shut e.2) }
  tasks := w.tasks.map (·.shut h)
  missed := w.missed.map h.shut

/-! ### Steps -/

/-- A call goes through its next section; `w` has the other calls. -/
def advance (w : HeapWork) : HeapTask → HeapWork
  | .make size => w.draw size
  | .named name size => w.map name size
  | .holds .mapped h => w.enter h
  | .holds .listed h => w.register h
  | .destroy base => w.strike base
  | .holds .struck h => w.remove h
  | .holds .removed h => w.unmap h

/-- Some call goes through its next section. -/
inductive Turn : HeapWork → HeapWork → Prop
  | turn {w : HeapWork} {t : HeapTask} {rest : List HeapTask} (h : w.tasks.Perm (t :: rest)) :
    Turn w ({ w with tasks := rest }.advance t)

/-- What may happen next: a core asks for a heap of any size or for the end of whatever is at an
address, the host makes other plans, or a call goes on. -/
inductive Step : HeapWork → HeapWork → Prop
  | make (w : HeapWork) (size : UInt64) : Step w (w.goOn (.make size))
  | destroy (w : HeapWork) (base : UInt64) : Step w (w.goOn (.destroy base))
  | plan (w : HeapWork) (answers : List Answer) : Step w (w.plan answers)
  | turn {w w' : HeapWork} (h : Turn w w') : Step w w'

abbrev Run : HeapWork → HeapWork → Prop := Relation.ReflTransGen Step

/-! ## The heaps of the calls -/

variable {w w' : HeapWork} {h a : Arena} {stage stage' : Stage} {cores : List CoreMemory}

/-- The heaps at a stage, with one more call under way. -/
theorem heapsAt_goOn (w : HeapWork) (t : HeapTask) (stage : Stage) :
    (w.goOn t).heapsAt stage = (t.heapAt stage).toList ++ w.heapsAt stage := by
  unfold heapsAt goOn
  rw [List.filterMap_cons]
  cases t.heapAt stage <;> rfl

@[simp] theorem heapsAt_holds (w : HeapWork) (stage : Stage) (h : Arena) :
    (w.goOn (.holds stage h)).heapsAt stage = h :: w.heapsAt stage := by
  simp [heapsAt_goOn, HeapTask.heapAt]

@[simp] theorem heapsAt_holds_of_ne (hne : stage' ≠ stage) (w : HeapWork) (h : Arena) :
    (w.goOn (.holds stage' h)).heapsAt stage = w.heapsAt stage := by
  simp [heapsAt_goOn, HeapTask.heapAt, hne]

@[simp] theorem proc_goOn (w : HeapWork) (t : HeapTask) : (w.goOn t).proc = w.proc := rfl

@[simp] theorem missed_goOn (w : HeapWork) (t : HeapTask) : (w.goOn t).missed = w.missed := rfl

theorem shut_of_ne (hne : a.serial ≠ h.serial) : h.shut a = a :=
  if_neg fun same => hne (beq_iff_eq.mp same).symm

theorem serial_shut (h a : Arena) : (h.shut a).serial = a.serial := by
  unfold Arena.shut
  split <;> rfl

/-- Shutting a heap leaves arenas of other mappings alone. -/
theorem map_shut_of_ne {l : List Arena} (hne : ∀ a ∈ l, a.serial ≠ h.serial) :
    l.map h.shut = l := by
  rw [List.map_congr_left fun a ha => shut_of_ne (hne a ha)]
  exact List.map_id' l

theorem heapsAt_unmap (w : HeapWork) (h : Arena) (stage : Stage) :
    (w.unmap h).heapsAt stage = (w.heapsAt stage).map h.shut := by
  unfold heapsAt unmap
  rw [List.filterMap_map, List.map_filterMap]
  congr 1
  funext t
  cases t with
  | holds stage' a =>
    simp only [Function.comp, HeapTask.shut, HeapTask.heapAt]
    split <;> rfl
  | make | named | destroy => rfl

/-! ## What holds while calls are under way -/

/-- Everything that is mapped. -/
def inUse (w : HeapWork) (cores : List CoreMemory) : List Arena :=
  w.proc.global :: cores.flatMap (·.arenas) ++
    (w.proc.heapArenas ++ w.heapsAt .mapped ++ w.heapsAt .struck ++ w.heapsAt .removed)

/-- Everything that is in the space or on its way there. -/
def due (w : HeapWork) (cores : List CoreMemory) : List Arena :=
  w.proc.global :: cores.flatMap (·.reachable) ++
    (w.proc.heapArenas ++ w.heapsAt .struck ++ w.missed)

/-- The invariant of heaps at work; `cores` is the memory of the open cores. -/
structure InOrder (w : HeapWork) (cores : List CoreMemory) : Prop where
  orderly : w.proc.host.Orderly
  live : w.proc.host.live.Perm (w.inUse cores)
  space : (w.proc.space.arenas ++ w.heapsAt .listed).Perm (w.due cores)
  distinct : ((w.heapsAt .mapped ++ w.due cores).map (·.serial)).Nodup
  numbered : ∀ a ∈ w.missed, a.serial < w.proc.host.history.length
  keyed : ∀ e ∈ w.proc.heaps, e.1 = e.2.base
  /-- A missed heap that is still open is about to be closed. -/
  closing : ∀ a ∈ w.missed, a.isOpen = true → a ∈ w.heapsAt .removed

/-- The calls may be told in any order. -/
theorem InOrder.reorder {tasks : List HeapTask} (ho : w.InOrder cores)
    (perm : w.tasks.Perm tasks) : ({ w with tasks := tasks } : HeapWork).InOrder cores := by
  have at_perm : ∀ stage,
      (w.heapsAt stage).Perm (({ w with tasks := tasks } : HeapWork).heapsAt stage) :=
    fun stage => perm.filterMap _
  have due_perm : (w.due cores).Perm (({ w with tasks := tasks } : HeapWork).due cores) :=
    (((at_perm .struck).append_left _).append_right _).append_left _
  constructor
  · exact ho.orderly
  · refine ho.live.trans (List.Perm.append_left _ ?_)
    exact ((at_perm .mapped).append_left _ |>.append (at_perm .struck)).append (at_perm .removed)
  · exact ((at_perm .listed).symm.append_left _).trans (ho.space.trans due_perm)
  · exact (((at_perm .mapped).append due_perm).map _).nodup_iff.mp ho.distinct
  · exact ho.numbered
  · exact ho.keyed
  · exact fun a ha isOpen => (at_perm .removed).mem_iff.mp (ho.closing a ha isOpen)

/-- Only arenas count. -/
theorem InOrder.undisturbed (ho : w.InOrder cores) (u : w.proc.Undisturbed w'.proc)
    (tasks : ∀ stage, w'.heapsAt stage = w.heapsAt stage) (missed : w'.missed = w.missed) :
    w'.InOrder cores := by
  have heaps : w'.proc.heapArenas = w.proc.heapArenas := by
    rw [Proc.heapArenas, Proc.heapArenas, u.heaps]
  have due_eq : w'.due cores = w.due cores := by
    rw [due, due, u.global, heaps, tasks, missed]
  constructor
  · exact ho.orderly.of_live u.live u.history
  · rw [u.live, inUse, u.global, heaps, tasks, tasks, tasks]
    exact ho.live
  · rw [u.space, tasks, due_eq]
    exact ho.space
  · rw [tasks, due_eq]
    exact ho.distinct
  · rw [missed]
    exact fun a ha => Nat.lt_of_lt_of_le (ho.numbered a ha) u.history
  · rw [u.heaps]
    exact ho.keyed
  · rw [missed, tasks]
    exact ho.closing

/-! ## Heaps that change places -/

/-- A call that holds a heap with a mapping adds it to what is mapped. -/
theorem inUse_holds (w : HeapWork) (cores : List CoreMemory) (h : Arena)
    (hstage : stage ≠ .listed) :
    ((w.goOn (.holds stage h)).inUse cores).Perm (h :: w.inUse cores) := by
  rw [List.perm_iff_count]
  intro a
  cases stage with
  | listed => exact absurd rfl hstage
  | mapped | struck | removed =>
    simp only [inUse, heapsAt_holds, ne_eq, reduceCtorEq, not_false_eq_true, heapsAt_holds_of_ne,
      List.count_append, List.count_cons, proc_goOn]
    omega

/-- The call that took a heap out of the table still owes it to the space. -/
theorem due_struck (w : HeapWork) (cores : List CoreMemory) (h : Arena) :
    ((w.goOn (.holds .struck h)).due cores).Perm (h :: w.due cores) := by
  rw [List.perm_iff_count]
  intro a
  simp only [due, heapsAt_holds, List.count_append, List.count_cons, proc_goOn, missed_goOn]
  omega

section Table

variable {heaps heaps' : List (UInt64 × Arena)}
  (table : (heaps.map (·.2)).Perm (h :: heaps'.map (·.2)))

include table

/-- Moving a heap between the table and the hands of a call keeps it in use. -/
theorem inUse_setHeaps (w : HeapWork) (cores : List CoreMemory) :
    ((w.setHeaps heaps).inUse cores).Perm (h :: (w.setHeaps heaps').inUse cores) := by
  have places : ((w.setHeaps heaps).inUse cores).Perm (w.proc.global :: cores.flatMap (·.arenas) ++
      (h :: heaps'.map (·.2) ++ w.heapsAt .mapped ++ w.heapsAt .struck ++ w.heapsAt .removed)) :=
    (((table.append_right _).append_right _).append_right _).append_left _
  exact places.trans List.perm_middle

theorem due_setHeaps (w : HeapWork) (cores : List CoreMemory) :
    ((w.setHeaps heaps).due cores).Perm (h :: (w.setHeaps heaps').due cores) := by
  have places : ((w.setHeaps heaps).due cores).Perm (w.proc.global :: cores.flatMap (·.reachable) ++
      (h :: heaps'.map (·.2) ++ w.heapsAt .struck ++ w.missed)) :=
    ((table.append_right _).append_right _).append_left _
  exact places.trans List.perm_middle

end Table

/-! ## What the order says -/

/-- Only missed heaps may have lost their mapping. -/
theorem mapped_or_missed (ha : a ∈ w.heapsAt .mapped ++ w.due cores) :
    a ∈ w.inUse cores ∨ a ∈ w.missed := by
  have reach := (Proc.reachable_sublist cores).subset (a := a)
  simp only [inUse, due, List.mem_append, List.mem_cons] at ha ⊢
  tauto

/-- What is known has an old number. -/
theorem InOrder.serial_lt (ho : w.InOrder cores) (ha : a ∈ w.heapsAt .mapped ++ w.due cores) :
    a.serial < w.proc.host.history.length := by
  rcases mapped_or_missed ha with mapped | missed
  · exact ho.orderly.numbered a (ho.live.mem_iff.mpr mapped)
  · exact ho.numbered a missed

/-- What is in the space or on its way there has numbers of its own. -/
theorem InOrder.due_distinct (ho : w.InOrder cores) : ((w.due cores).map (·.serial)).Nodup :=
  ho.distinct.sublist ((List.sublist_append_right _ _).map _)

section Holds

variable (ho : (w.goOn (.holds stage h)).InOrder cores) (hstage : stage ≠ .listed)

include ho hstage

theorem InOrder.live_holds : w.proc.host.live.Perm (h :: w.inUse cores) :=
  ho.live.trans (inUse_holds w cores h hstage)

theorem InOrder.mem_live : h ∈ w.proc.host.live := (ho.live_holds hstage).mem_iff.mpr (.head _)

/-- What is mapped beside a heap has other numbers. -/
theorem InOrder.serial_ne (ha : a ∈ w.inUse cores) : a.serial ≠ h.serial := by
  have nodup := (((ho.live_holds hstage).map (·.serial)).nodup_iff).mp ho.orderly.distinct
  rw [List.map_cons, List.nodup_cons] at nodup
  exact fun heq => nodup.1 (heq ▸ List.mem_map_of_mem ha)

/-- What is mapped beside a heap begins at other addresses. -/
theorem InOrder.base_ne (ha : a ∈ w.inUse cores) : h.base ≠ a.base := by
  have live := ho.live_holds hstage
  have apart : (h :: w.inUse cores).Pairwise Arena.Apart :=
    (live.pairwise_iff fun hab => Or.symm hab).mp ho.orderly.apart
  have beside : h.Apart a := (List.pairwise_cons.mp apart).1 a ha
  exact beside.base_ne (ho.orderly.placed h (ho.mem_live hstage))
    (ho.orderly.placed a (live.mem_iff.mpr (.tail _ ha)))

end Holds

theorem mem_inUse_of_table {e : UInt64 × Arena} (he : e ∈ w.proc.heaps) : e.2 ∈ w.inUse cores := by
  have hmem : e.2 ∈ w.proc.heapArenas := List.mem_map_of_mem he
  simp only [inUse, List.mem_append]
  exact .inr (.inl (.inl (.inl hmem)))

/-! ## Each section keeps the order -/

/-- The name of a heap is drawn: nothing is in use that was not. -/
theorem InOrder.draw {size : UInt64} (ho : (w.goOn (.make size)).InOrder cores) :
    (w.draw size).InOrder cores := by
  unfold HeapWork.draw
  split
  · exact ho.undisturbed ⟨rfl, rfl, Nat.le_refl _, rfl, rfl, Nat.le_refl _⟩ (fun _ => rfl) rfl
  · exact ho.undisturbed ⟨rfl, rfl, Nat.le_succ _, rfl, rfl, Nat.le_refl _⟩ (fun _ => rfl) rfl

/-- The mapping is made, or refused: the new heap is live and in the hands of its call. -/
theorem InOrder.map {name : String} {size : UInt64}
    (ho : (w.goOn (.named name size)).InOrder cores) : (w.map name size).InOrder cores := by
  have ho : w.InOrder cores :=
    ho.undisturbed ⟨rfl, rfl, Nat.le_refl _, rfl, rfl, Nat.le_refl _⟩ (fun _ => rfl) rfl
  unfold HeapWork.map
  split
  · exact ho
  next h host hmap =>
    have g := Host.map_eq_ok hmap
    constructor
    · exact ho.orderly.map g
    · show host.live.Perm _
      rw [g.live]
      exact (ho.live.cons h).trans (inUse_holds _ cores h (by decide)).symm
    · exact ho.space
    · show ((h :: (w.heapsAt .mapped ++ w.due cores)).map (·.serial)).Nodup
      rw [List.map_cons, List.nodup_cons]
      refine ⟨fun hmem => ?_, ho.distinct⟩
      -- A known arena with the number of the new one would be from the future.
      obtain ⟨a, ha, heq⟩ := List.mem_map.mp hmem
      have old := ho.serial_lt ha
      rw [heq, g.serial] at old
      exact Nat.lt_irrefl _ old
    · intro a ha
      show a.serial < host.history.length
      rw [g.history, List.length_cons]
      exact Nat.lt_succ_of_lt (ho.numbered a ha)
    · exact ho.keyed
    · exact ho.closing

/-- The heap goes into the table, under a base that nothing stands under. -/
theorem InOrder.enter (ho : (w.goOn (.holds .mapped h)).InOrder cores) :
    (w.enter h).InOrder cores := by
  -- The table holds no heap at this address, so nothing is replaced.
  have fresh : ∀ e ∈ w.proc.heaps, ¬ (e.1 == h.base) := by
    intro e he heq
    apply ho.base_ne (by decide) (mem_inUse_of_table he)
    rw [← ho.keyed e he, beq_iff_eq.mp heq]
  have due_perm : ((w.setHeaps ((h.base, h) :: w.proc.heaps)).due cores).Perm (h :: w.due cores) :=
    due_setHeaps (.refl _) w cores
  unfold HeapWork.enter
  rw [List.eraseP_of_forall_not fresh]
  constructor
  · exact ho.orderly
  · have inUse_perm : ((w.setHeaps ((h.base, h) :: w.proc.heaps)).inUse cores).Perm
        (h :: w.inUse cores) := inUse_setHeaps (.refl _) w cores
    exact (ho.live_holds (by decide)).trans inUse_perm.symm
  · show (w.proc.space.arenas ++ h :: w.heapsAt .listed).Perm _
    exact List.perm_middle.trans ((ho.space.cons h).trans due_perm.symm)
  · have distinct : ((h :: (w.heapsAt .mapped ++ w.due cores)).map (·.serial)).Nodup := ho.distinct
    refine (List.Perm.map _ ?_).nodup_iff.mp distinct
    exact List.perm_middle.symm.trans (due_perm.symm.append_left _)
  · exact ho.numbered
  · exact List.forall_mem_cons.mpr ⟨rfl, ho.keyed⟩
  · exact ho.closing

theorem InOrder.register (ho : (w.goOn (.holds .listed h)).InOrder cores) :
    (w.register h).InOrder cores := by
  constructor
  · exact ho.orderly
  · exact ho.live
  · have space : (w.proc.space.arenas ++ h :: w.heapsAt .listed).Perm (w.due cores) := ho.space
    exact ((w.proc.space.perm_add h).append_right _).trans (List.perm_middle.symm.trans space)
  · exact ho.distinct
  · exact ho.numbered
  · exact ho.keyed
  · exact ho.closing

/-- The table without the heap that was found in it. -/
theorem perm_table {p : Proc} {base : UInt64} (found : p.heaps.lookup base = some h) :
    p.heaps.Perm ((base, h) :: p.heaps.eraseP (·.1 == base)) := by
  rcases p.destroyHeap_cases base with ⟨none, -⟩ | ⟨before, h', after, heaps, some, gone⟩
  · rw [found] at none
    cases none
  · rw [found] at some
    cases some
    have erased : (p.destroyHeap base).heaps = p.heaps.eraseP (·.1 == base) := by
      unfold Proc.destroyHeap
      rw [found]
    rw [gone] at erased
    rw [← erased, heaps]
    exact List.perm_middle

/-- Whoever strikes a heap from the table has it in hand, and nobody else has. -/
theorem InOrder.strike {base : UInt64} (ho : (w.goOn (.destroy base)).InOrder cores) :
    (w.strike base).InOrder cores := by
  have ho : w.InOrder cores :=
    ho.undisturbed ⟨rfl, rfl, Nat.le_refl _, rfl, rfl, Nat.le_refl _⟩ (fun _ => rfl) rfl
  unfold HeapWork.strike
  split
  · exact ho
  next h found =>
    have table := perm_table found
    -- The heap that leaves the table is still due, now to the work that has struck it.
    have due_perm : (w.due cores).Perm (((w.setHeaps (w.proc.heaps.eraseP (·.1 == base))).goOn
        (.holds .struck h)).due cores) :=
      (due_setHeaps (table.map _) w cores).trans (due_struck _ cores h).symm
    constructor
    · exact ho.orderly
    · have inUse_perm := inUse_setHeaps (table.map _) w cores
      exact ho.live.trans (inUse_perm.trans (inUse_holds _ cores h (by decide)).symm)
    · exact ho.space.trans due_perm
    · exact ((due_perm.append_left _).map _).nodup_iff.mp ho.distinct
    · exact ho.numbered
    · exact fun e he => ho.keyed e (List.mem_of_mem_eraseP he)
    · exact ho.closing

/-- A heap that is only on its way to the space is not taken out of it. -/
theorem InOrder.remove_listed (ho : (w.goOn (.holds .struck h)).InOrder cores)
    (listed : h ∈ w.heapsAt .listed) : w.proc.space.remove h = w.proc.space := by
  have distinct : ((w.proc.space.arenas ++ w.heapsAt .listed).map (·.serial)).Nodup :=
    (ho.space.map _).nodup_iff.mpr ho.due_distinct
  have absent : ∀ a ∈ w.proc.space.arenas, ¬ Space.same h a := by
    intro a ha same
    rw [List.map_append] at distinct
    apply List.disjoint_of_nodup_append distinct (List.mem_map_of_mem ha)
    rw [← beq_iff_eq.mp same]
    exact List.mem_map_of_mem listed
  exact congrArg Space.mk (List.eraseP_of_forall_not absent)

/-- Any other heap was there, and is not any more. -/
theorem InOrder.remove_registered (ho : (w.goOn (.holds .struck h)).InOrder cores)
    (unlisted : h ∉ w.heapsAt .listed) :
    ((w.proc.space.remove h).arenas ++ w.heapsAt .listed).Perm (w.due cores) := by
  have space : (w.proc.space.arenas ++ w.heapsAt .listed).Perm (h :: w.due cores) :=
    ho.space.trans (due_struck w cores h)
  have distinct : ((w.proc.space.arenas ++ w.heapsAt .listed).map (·.serial)).Nodup :=
    (ho.space.map _).nodup_iff.mpr ho.due_distinct
  have registered : h ∈ w.proc.space.arenas :=
    (List.mem_append.mp (space.mem_iff.mpr (.head _))).resolve_right unlisted
  have gone := Space.perm_eraseP space distinct
  rwa [List.eraseP_append_left (Space.same_self h) _ registered] at gone

/-- It is taken out of the space, or missed if it is not there yet. -/
theorem InOrder.remove (ho : (w.goOn (.holds .struck h)).InOrder cores) :
    (w.remove h).InOrder cores := by
  have live : w.proc.host.live.Perm ((w.remove h).inUse cores) :=
    (ho.live_holds (by decide)).trans (inUse_holds _ cores h (by decide)).symm
  have distinct : ((w.heapsAt .mapped ++ h :: w.due cores).map (·.serial)).Nodup :=
    (((due_struck w cores h).append_left _).map _).nodup_iff.mp ho.distinct
  unfold HeapWork.remove at live ⊢
  split at live
  next listed =>
    -- The space does not hold the heap yet: it is missed, and another task will still add it.
    rw [if_pos listed, ho.remove_listed listed]
    have due_perm : (h :: w.due cores).Perm
        (w.proc.global :: cores.flatMap (·.reachable) ++
          (w.proc.heapArenas ++ w.heapsAt .struck ++ h :: w.missed)) := by
      simp only [List.perm_iff_count, due, List.count_append, List.count_cons]
      omega
    constructor
    · exact ho.orderly
    · exact live
    · exact ho.space.trans ((due_struck w cores h).trans due_perm)
    · exact ((due_perm.append_left _).map _).nodup_iff.mp distinct
    · exact List.forall_mem_cons.mpr ⟨ho.orderly.numbered h (ho.mem_live (by decide)), ho.numbered⟩
    · exact ho.keyed
    · refine List.forall_mem_cons.mpr ⟨fun _ => .head _, fun a ha isOpen => .tail _ ?_⟩
      exact ho.closing a ha isOpen
  next unlisted =>
    rw [if_neg unlisted]
    constructor
    · exact ho.orderly
    · exact live
    · exact ho.remove_registered unlisted
    · exact distinct.sublist (((List.sublist_cons_self h _).append_left _).map _)
    · exact ho.numbered
    · exact ho.keyed
    · exact fun a ha isOpen => .tail _ (ho.closing a ha isOpen)

theorem heapArenas_unmap (w : HeapWork) (h : Arena) :
    (w.unmap h).proc.heapArenas = w.proc.heapArenas.map h.shut := by
  unfold Proc.heapArenas HeapWork.unmap
  rw [List.map_map, List.map_map]
  rfl

theorem map_serial_shut (h : Arena) (l : List Arena) :
    (l.map h.shut).map (·.serial) = l.map (·.serial) := by
  rw [List.map_map]
  exact List.map_congr_left fun a _ => serial_shut h a

/-- Whatever else is mapped has another number than the heap that is closed, so it stays as it
is. -/
theorem InOrder.kept (ho : (w.goOn (.holds .removed h)).InOrder cores) {l : List Arena}
    (hl : l ⊆ w.inUse cores) : l.map h.shut = l :=
  map_shut_of_ne fun _ ha => ho.serial_ne (by decide) (hl ha)

/-- The mapping is given back. No other heap shares its serial number, so only this one is shut. -/
theorem InOrder.unmap (ho : (w.goOn (.holds .removed h)).InOrder cores) :
    (w.unmap h).InOrder cores := by
  have keptAt : ∀ stage, stage ≠ .listed → (w.unmap h).heapsAt stage = w.heapsAt stage := by
    intro stage hstage
    rw [heapsAt_unmap]
    apply ho.kept
    intro a ha
    simp only [inUse, List.mem_append]
    cases stage with
    | listed => exact absurd rfl hstage
    | mapped => exact .inr (.inl (.inl (.inr ha)))
    | struck => exact .inr (.inl (.inr ha))
    | removed => exact .inr (.inr ha)
  have keptHeaps : (w.unmap h).proc.heapArenas = w.proc.heapArenas := by
    rw [heapArenas_unmap]
    apply ho.kept
    intro a ha
    obtain ⟨e, he, rfl⟩ := List.mem_map.mp ha
    exact mem_inUse_of_table he
  have keptReach : (w.proc.global :: cores.flatMap (·.reachable)).map h.shut =
      w.proc.global :: cores.flatMap (·.reachable) := by
    apply ho.kept
    intro a ha
    exact List.mem_append_left _ (((Proc.reachable_sublist cores).cons_cons _).subset ha)
  have due_eq : (w.unmap h).due cores = (w.due cores).map h.shut := by
    unfold due
    rw [List.map_append, keptReach, List.map_append, List.map_append, ← heapArenas_unmap,
      ← heapsAt_unmap]
    rfl
  constructor
  · exact ho.orderly.unmap h
  · rw [inUse, keptHeaps, keptAt .mapped (by decide), keptAt .struck (by decide),
      keptAt .removed (by decide)]
    exact ho.orderly.perm_unmap (ho.live_holds (by decide))
  · show (w.proc.space.arenas.map h.shut ++ _).Perm _
    rw [heapsAt_unmap, due_eq, ← List.map_append]
    exact ho.space.map _
  · rw [heapsAt_unmap, due_eq, ← List.map_append, map_serial_shut]
    exact ho.distinct
  · intro a ha
    obtain ⟨b, hb, rfl⟩ := List.mem_map.mp ha
    rw [serial_shut]
    exact ho.numbered b hb
  · intro e he
    obtain ⟨e, hmem, rfl⟩ := List.mem_map.mp he
    have same : h.shut e.2 = e.2 := shut_of_ne (ho.serial_ne (by decide) (mem_inUse_of_table hmem))
    rw [same]
    exact ho.keyed e hmem
  · intro a ha isOpen
    obtain ⟨b, hb, rfl⟩ := List.mem_map.mp ha
    rw [keptAt .removed (by decide)]
    unfold Arena.shut at isOpen ⊢
    split at isOpen
    · cases isOpen
    next other =>
      -- The missed heap is not the one that is closed now, so another call is about to close it.
      rw [if_neg other]
      refine (List.mem_cons.mp (ho.closing b hb isOpen)).resolve_left fun heq => other ?_
      rw [heq]
      exact Space.same_self h

/-! ## Runs -/

/-- Every section keeps the order, one case for each. -/
theorem InOrder.advance {t : HeapTask} (ho : (w.goOn t).InOrder cores) :
    (w.advance t).InOrder cores := by
  cases t with
  | make size => exact ho.draw
  | named name size => exact ho.map
  | destroy base => exact ho.strike
  | holds stage h =>
    cases stage with
    | mapped => exact ho.enter
    | listed => exact ho.register
    | struck => exact ho.remove
    | removed => exact ho.unmap

theorem InOrder.step (ho : w.InOrder cores) (step : Step w w') : w'.InOrder cores := by
  cases step with
  | make | destroy | plan =>
    exact ho.undisturbed ⟨rfl, rfl, Nat.le_refl _, rfl, rfl, Nat.le_refl _⟩ (fun _ => rfl) rfl
  | turn h =>
    obtain ⟨perm⟩ := h
    exact InOrder.advance (w := { w with tasks := _ }) (ho.reorder perm)

theorem InOrder.run (ho : w.InOrder cores) (run : Run w w') : w'.InOrder cores := by
  induction run with
  | refl => exact ho
  | tail _ step ih => exact ih.step step

/-- Without calls the order is the balance of the process. -/
theorem inOrder_of_balanced {p : Proc} {cs : List CoreMemory} (balanced : p.Balanced cs) :
    ({ proc := p } : HeapWork).InOrder (p.openCores cs) where
  orderly := balanced.orderly
  live := by simpa [inUse, heapsAt] using balanced.live
  space := by simpa [due, heapsAt] using balanced.space
  distinct := by
    have := ((balanced.space.map (·.serial)).nodup_iff).mp balanced.space_distinct
    simpa [due, heapsAt] using this
  numbered := List.forall_mem_nil _
  keyed := balanced.keyed
  closing := List.forall_mem_nil _

end HeapWork

end BlockVM
