import BlockVM.Proofs.Machine.HeapTasks

/-!
# The safety of heaps

A call of the memory manager that nothing interrupts does what `makeHeap` and `destroyHeap` do
(`turns_makeHeap`, `turns_destroyHeap`). With other calls in between, a heap that is taken out of
the space before it is put in stays there when its mapping is gone (`removed_too_early`). Nothing
else goes wrong: `heapWork_settles` says that the closed arenas of the space are such heaps, and
that at rest the space holds what the table holds and nothing but them besides.
-/

namespace BlockVM

namespace HeapWork

variable {w w' : HeapWork} {h a : Arena} {cores : List CoreMemory}

/-! ## Calls that nothing interrupts -/

theorem draw_of_good {size : UInt64} (good : ¬ (size = 0 ∨ Proc.maxHeap < size)) (w : HeapWork) :
    w.draw size = (w.setProc { w.proc with heapCount := w.proc.heapCount + 1 }).goOn
      (.named ("heap" ++ toString w.proc.heapCount) size) :=
  if_neg good

theorem map_of_ok {name : String} {size : UInt64} {host : Host}
    (hmap : w.proc.host.map name size.toInt64 = .ok (h, host)) :
    w.map name size = (w.setProc { w.proc with host := host }).goOn (.holds .mapped h) := by
  unfold HeapWork.map
  rw [hmap]

theorem map_of_error {name : String} {size : UInt64} {f : Failure}
    (refused : w.proc.host.map name size.toInt64 = .error f) : w.map name size = w := by
  unfold HeapWork.map
  rw [refused]

/-- What is found under a base is struck from the table and goes to the caller. -/
theorem strike_of_found {base : UInt64} (found : w.proc.heaps.lookup base = some h) :
    w.strike base =
      (w.setHeaps (w.proc.heaps.eraseP (·.1 == base))).goOn (.holds .struck h) := by
  unfold HeapWork.strike
  rw [found]

/-- A heap that nobody is about to put in the space is taken out of it. -/
theorem remove_of_unlisted (unlisted : h ∉ w.heapsAt .listed) :
    w.remove h =
      (w.setProc { w.proc with space := w.proc.space.remove h }).goOn (.holds .removed h) := by
  unfold HeapWork.remove
  rw [if_neg unlisted]
  rfl

/-- Closing a heap that nobody knows any more leaves the rest as it is. -/
theorem InOrder.unmap_alone (ho : (w.goOn (.holds .removed h)).InOrder cores) (tasks : w.tasks = [])
    (missed : w.missed = []) :
    w.unmap h = w.setProc { w.proc with host := w.proc.host.unmap h } := by
  have space : w.proc.space.close h = w.proc.space := by
    refine congrArg Space.mk (ho.kept fun a ha => ?_)
    have hdue : a ∈ w.due cores := ho.space.mem_iff.mp (List.mem_append_left _ ha)
    refine (mapped_or_missed (List.mem_append_right _ hdue)).resolve_right ?_
    rw [missed]
    exact List.not_mem_nil
  have heaps : w.proc.heaps.map (fun e => (e.1, h.shut e.2)) = w.proc.heaps := by
    refine (List.map_congr_left fun e he => ?_).trans (List.map_id' _)
    rw [shut_of_ne (ho.serial_ne (by decide) (mem_inUse_of_table he))]
  unfold HeapWork.unmap
  rw [space, heaps, tasks, missed]
  show _ = HeapWork.mk _ w.tasks w.missed
  rw [tasks, missed]
  rfl

/-- A turn of the call that was told first. -/
theorem turn_first (w : HeapWork) (t : HeapTask) : Turn (w.goOn t) (w.advance t) := .turn (.refl _)

/-- Making a heap without interference goes through all its sections, or ends early with a
refusal. -/
theorem turns_makeHeap (p : Proc) (size : UInt64) :
    Relation.ReflTransGen Turn (({ proc := p } : HeapWork).goOn (.make size))
      { proc := (p.makeHeap size).1 } := by
  have drawn := Relation.ReflTransGen.single (turn_first { proc := p } (.make size))
  unfold Proc.makeHeap
  split
  next bad =>
    have same : ({ proc := p } : HeapWork).draw size = { proc := p } := if_pos bad
    rwa [advance, same] at drawn
  next good =>
    rw [advance, draw_of_good good] at drawn
    have mapped := drawn.tail (turn_first _ _)
    dsimp only
    split
    next refused =>
      rwa [advance, map_of_error refused] at mapped
    next h host hmap =>
      rw [advance, map_of_ok hmap] at mapped
      exact (mapped.tail (turn_first _ _)).tail (turn_first _ _)

theorem turns_destroyHeap {p : Proc} {cs : List CoreMemory} (balanced : p.Balanced cs)
    (base : UInt64) :
    Relation.ReflTransGen Turn (({ proc := p } : HeapWork).goOn (.destroy base))
      { proc := p.destroyHeap base } := by
  have struck := Relation.ReflTransGen.single (turn_first { proc := p } (.destroy base))
  unfold Proc.destroyHeap
  split
  next absent =>
    rwa [advance, HeapWork.strike, absent] at struck
  next h found =>
    rw [advance, strike_of_found found] at struck
    have removed := struck.tail (turn_first _ _)
    rw [advance, remove_of_unlisted List.not_mem_nil] at removed
    have closed := removed.tail (turn_first _ _)
    have ho := ((inOrder_of_balanced balanced).step (.destroy _ base)).strike
    rw [strike_of_found found] at ho
    have ho := ho.remove
    rw [remove_of_unlisted List.not_mem_nil] at ho
    rwa [advance, ho.unmap_alone rfl rfl] at closed

/-! ## Safety -/

/-- What is wanted of heaps at work. -/
structure Safe (w : HeapWork) (cores : List CoreMemory) : Prop where
  allOpen : ∀ a ∈ w.proc.space.arenas, a.isOpen = true
  /-- When no call is under way, the heaps of the space are those of the table. -/
  settled : w.tasks = [] → w.proc.space.arenas.Perm
    (w.proc.global :: cores.flatMap (·.reachable) ++ w.proc.heapArenas)

theorem InOrder.not_closed (ho : w.InOrder cores) (ha : a ∈ w.inUse cores) : a.isOpen ≠ false := by
  rw [(ho.orderly.placed a (ho.live.mem_iff.mpr ha)).isOpen]
  decide

/-- The closed arenas of the space are missed heaps. -/
theorem InOrder.missed_of_closed (ho : w.InOrder cores) (ha : a ∈ w.proc.space.arenas)
    (closed : a.isOpen = false) : a ∈ w.missed := by
  have hdue : a ∈ w.due cores := ho.space.mem_iff.mp (List.mem_append_left _ ha)
  exact (mapped_or_missed (List.mem_append_right _ hdue)).resolve_left
    fun mapped => ho.not_closed mapped closed

/-- When no call is under way, the space holds the missed heaps besides those of the table. -/
theorem InOrder.atRest (ho : w.InOrder cores) (rest : w.tasks = []) :
    w.proc.space.arenas.Perm (w.proc.global :: cores.flatMap (·.reachable) ++
      (w.proc.heapArenas ++ w.missed)) := by
  have space := ho.space
  unfold due heapsAt at space
  simpa only [rest, List.filterMap_nil, List.append_nil] using space

/-- All of them are closed by then. -/
theorem InOrder.closed_of_rest (ho : w.InOrder cores) (rest : w.tasks = []) (ha : a ∈ w.missed) :
    a.isOpen = false := by
  have closing := ho.closing a ha
  unfold heapsAt at closing
  rw [rest] at closing
  cases isOpen : a.isOpen with
  | false => rfl
  | true => cases closing isOpen

/-- Unless a heap was missed, all is safe: what is in the space is in use, and what is in use is not
closed. -/
theorem InOrder.safe (ho : w.InOrder cores) (missed : w.missed = []) : w.Safe cores := by
  constructor
  · intro a ha
    cases isOpen : a.isOpen with
    | true => rfl
    | false =>
      have hmem := ho.missed_of_closed ha isOpen
      rw [missed] at hmem
      cases hmem
  · intro rest
    have space := ho.atRest rest
    rwa [missed, List.append_nil] at space

/-- Heaps that any number of cores make and destroy at the same time, in a process that may have
come to this through any session, are safe unless one of them is missed. Nothing else gets out of
step: the closed arenas of the space are missed heaps, and when no call is under way, the space
holds the heaps of the table and the missed ones, which are closed. -/
theorem heapWork_settles {program : Program} {o : Options} {p : Proc} {s : Session}
    (made : Proc.new program o = .ok p) (session : Session.Run { proc := p } s)
    (run : Run { proc := s.proc } w) :
    (w.missed = [] → w.Safe (s.proc.openCores s.held)) ∧
    (∀ a ∈ w.proc.space.arenas, a.isOpen = false → a ∈ w.missed) ∧
    (w.tasks = [] → w.proc.space.arenas.Perm
        (w.proc.global :: (s.proc.openCores s.held).flatMap (·.reachable) ++
          (w.proc.heapArenas ++ w.missed)) ∧
      ∀ a ∈ w.missed, a.isOpen = false) := by
  have balanced := (Session.Run.inOrder (Session.inOrder_new made) session).1.balanced
  have ho := (inOrder_of_balanced balanced).run run
  refine ⟨ho.safe, fun a => ho.missed_of_closed, fun rest => ⟨ho.atRest rest, fun a => ?_⟩⟩
  exact ho.closed_of_rest rest

/-- Turns without calls in between are steps. -/
theorem run_of_turns (turns : Relation.ReflTransGen Turn w w') : Run w w' :=
  turns.lift id fun _ _ => Step.turn

/-- A core makes a heap of 64 bytes and is not disturbed. -/
theorem heapWork_settles_smallProgram :
    ∃ p s w, Proc.new Session.smallProgram { mode := .interpret } = .ok p ∧
      Session.Run { proc := p } s ∧ Run { proc := s.proc } w ∧ w.tasks = [] ∧
      w.proc.heaps.length = 1 ∧ w.Safe (s.proc.openCores s.held) := by
  obtain ⟨p, p', c, hp, made, noHeaps, grants⟩ := Session.newCore_smallProgram
  have session : Session.Run { proc := p } { proc := p', cores := [c] } := .single (.newCore made)
  have run : Run { proc := p' } { proc := (p'.makeHeap 64).1 } :=
    (Relation.ReflTransGen.single (.make _ 64)).trans (run_of_turns (turns_makeHeap p' 64))
  refine ⟨p, _, _, hp, session, run, rfl, ?_, (heapWork_settles hp session run).1 rfl⟩
  have balanced := (Session.Run.inOrder (Session.inOrder_new hp) session).1.balanced
  obtain ⟨h, -, heaps⟩ := balanced.makeHeap_of_grants grants
  rw [heaps, noHeaps]
  rfl

/-- A make that is granted gets its heap into the table. -/
theorem run_to_table {p : Proc} {size : UInt64} (grants : ¬ p.Refuses size) :
    ∃ (w : HeapWork) (h : Arena), Run { proc := p } (w.enter h) ∧ w.tasks = [] := by
  have good : ¬ (size = 0 ∨ Proc.maxHeap < size) :=
    fun bad => grants (bad.elim .inl fun big => .inr (.inl big))
  cases hmap : p.host.map ("heap" ++ toString p.heapCount) size.toInt64 with
  | error f => exact absurd (.inr (.inr ⟨f, hmap⟩)) grants
  | ok granted =>
    have run : Run { proc := p } _ := .single (.make _ size)
    have run := run.tail (.turn (turn_first _ _))
    rw [advance, draw_of_good good] at run
    have run := run.tail (.turn (turn_first _ _))
    rw [advance, map_of_ok hmap] at run
    exact ⟨_, _, run.tail (.turn (turn_first _ _)), rfl⟩

/-- A destroy can finish between the last two sections of a make. -/
theorem run_overtaking (w : HeapWork) (h : Arena) :
    ∃ w', Run (w.enter h) w' ∧ w'.tasks = w.tasks.map (·.shut h) ∧
      w'.missed = (h :: w.missed).map h.shut := by
  have run : Run (w.enter h) _ := .single (.destroy _ h.base)
  have run := run.tail (.turn (turn_first _ _))
  have found : (w.enter h).proc.heaps.lookup h.base = some h := List.lookup_cons_self
  rw [advance, strike_of_found found] at run
  -- The destroy goes on to the space, which does not have the heap yet.
  have run := run.tail (.turn (turn_first _ _))
  have listed : h ∈ ((w.enter h).setHeaps ((w.enter h).proc.heaps.eraseP
      (·.1 == h.base))).heapsAt .listed := by
    show h ∈ (w.enter h).heapsAt .listed
    rw [HeapWork.enter, heapsAt_holds]
    exact .head _
  rw [advance, remove, if_pos listed] at run
  -- Now the make puts the heap there, and the destroy closes it.
  have run := run.tail (.turn (.turn (.swap _ _ _)))
  exact ⟨_, run.tail (.turn (.turn (.refl _))), rfl, rfl⟩

/-- No arena can be put into a space that holds a closed one. -/
theorem add_of_closed {s : Space} (ha : a ∈ s.arenas) (closed : a.isOpen = false) (x : Arena) :
    (s.add x).2 = some (.abort none) := by
  have many : 1 < (s.arenas ++ [x]).length := by
    rw [List.length_append, List.length_singleton]
    exact Nat.succ_lt_succ (List.length_pos_of_mem ha)
  have shut : (s.arenas ++ [x]).any (fun y => !y.isOpen) = true :=
    List.any_eq_true.mpr ⟨a, List.mem_append_left _ ha, by rw [closed]; rfl⟩
  have refuses : (1 < (s.arenas ++ [x]).length && (s.arenas ++ [x]).any fun y => !y.isOpen) =
      true := by
    rw [shut, Bool.and_true]
    exact decide_eq_true many
  unfold Space.add
  dsimp only
  rw [if_pos refuses]

/-- In a process that grants a heap, one core makes it and another one names its address as soon as
it is in the table. The heap is taken out of the space before it is put in, and stays there
closed. -/
theorem removed_too_early {p : Proc} {cs : List CoreMemory} (balanced : p.Balanced cs)
    {size : UInt64} (grants : ¬ p.Refuses size) :
    ∃ w, Run { proc := p } w ∧ w.tasks = [] ∧ ∃ a ∈ w.proc.space.arenas, a.isOpen = false ∧
      a ∉ w.proc.global :: (p.openCores cs).flatMap (·.reachable) ++ w.proc.heapArenas := by
  obtain ⟨w, h, entered, noTasks⟩ := run_to_table grants
  obtain ⟨w', overtaken, tasks, missed⟩ := run_overtaking w h
  rw [noTasks] at tasks
  have run := entered.trans overtaken
  have ho := (inOrder_of_balanced balanced).run run
  have hmissed : h.shut h ∈ w'.missed := by
    rw [missed]
    exact .head _
  have closed := ho.closed_of_rest tasks hmissed
  refine ⟨w', run, tasks, h.shut h, ?_, closed, fun hmem => ho.not_closed ?_ closed⟩
  · rw [(ho.atRest tasks).mem_iff]
    exact List.mem_append_right _ (List.mem_append_right _ hmissed)
  · have reach := (Proc.reachable_sublist (p.openCores cs)).subset (a := h.shut h)
    simp only [inUse, List.mem_append, List.mem_cons] at hmem ⊢
    tauto

/-- Heaps at work are not always safe: a closed one is left in the space when no call is under way,
where it does not belong, and from then on no arena can be registered. -/
theorem heaps_not_always_safe :
    ∃ p s w, Proc.new Session.smallProgram { mode := .interpret } = .ok p ∧
      Session.Run { proc := p } s ∧ Run { proc := s.proc } w ∧ w.tasks = [] ∧
      ¬ (∀ a ∈ w.proc.space.arenas, a.isOpen = true) ∧
      ¬ w.proc.space.arenas.Perm
        (w.proc.global :: (s.proc.openCores s.held).flatMap (·.reachable) ++ w.proc.heapArenas) ∧
      ∀ x, (w.proc.space.add x).2 = some (.abort none) := by
  obtain ⟨p, p', c, hp, made, -, grants⟩ := Session.newCore_smallProgram
  have session : Session.Run { proc := p } { proc := p', cores := [c] } := .single (.newCore made)
  have balanced := (Session.Run.inOrder (Session.inOrder_new hp) session).1.balanced
  obtain ⟨w, run, rest, a, ha, closed, extra⟩ := removed_too_early balanced grants
  refine ⟨p, _, w, hp, session, run, rest, fun allOpen => ?_, fun settled => ?_, ?_⟩
  · rw [allOpen a ha] at closed
    cases closed
  · exact extra (settled.mem_iff.mp ha)
  · exact add_of_closed ha closed

end HeapWork

end BlockVM
