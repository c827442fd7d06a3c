import BlockVM.Machine.Group
import BlockVM.Proofs.Machine.Balance
import BlockVM.Proofs.Machine.Reserved
import BlockVM.Proofs.Memory.Words
import Mathlib.Logic.Relation

/-!
# The ledger of a process

A session is a process with the cores that its owner holds. Cores are made, closed, and closed
again; they interpret and write to ports, which makes and destroys heaps; mappings are refused, and
addresses that were given back are handed out again. `ledger_is_exact` says that through all of this
the space holds exactly what is in use.

What a core can do to the books is collected in `Accounted`; the rest is the induction over the
steps of a session, with the balance of its process as the invariant.
-/

namespace BlockVM

namespace Proc

theorem spawned_makeHeap (p : Proc) (size : UInt64) : (p.makeHeap size).1.spawned = p.spawned := by
  rcases p.makeHeap_cases size with ⟨-, n, -, made⟩ | ⟨a, host, -, -, made⟩
  · rw [made]
  · rw [made]
    rfl

theorem spawned_destroyHeap (p : Proc) (base : UInt64) :
    (p.destroyHeap base).spawned = p.spawned := by
  rcases p.destroyHeap_cases base with ⟨-, same⟩ | ⟨before, a, after, -, -, gone⟩
  · rw [same]
  · rw [gone]

/-- A new core is not one of the spawned ones until it is started. -/
theorem spawned_newCore (p : Proc) (start : Int64) (param : UInt64) :
    (p.newCore start param).1.spawned = p.spawned := by
  rcases p.newCore_cases start param with ⟨host, what, f, -, made⟩ | ⟨host, a, memory, -, made⟩
  · rw [made]
  · rw [made]
    rfl

/-- The ports of a new core are wired to the devices. -/
theorem ports_newCore {p p' : Proc} {c : Core} {start : Int64} {param : UInt64}
    (made : p.newCore start param = (p', .ok c)) : c.ports = wiredPorts := by
  rcases p.newCore_cases start param with ⟨host, what, f, -, h⟩ | ⟨host, a, memory, -, h⟩
  · rw [made] at h
    cases h
  · rw [made] at h
    cases h
    rfl

/-- A core that was spawned has the ports of a new one. -/
theorem spawned_spawn (p : Proc) (start : Int64) (param : UInt64) :
    ∀ c ∈ (p.spawn start param).1.spawned, c ∈ p.spawned ∨ c.ports = wiredPorts := by
  have kept := p.spawned_newCore start param
  unfold spawn
  split
  · split
    next heq =>
      rw [heq] at kept
      intro c hc
      rcases List.mem_append.mp hc with hc | hc
      · exact .inl (kept ▸ hc)
      · exact .inr (List.mem_singleton.mp hc ▸ ports_newCore heq)
    next heq =>
      rw [heq] at kept
      exact fun c hc => .inl (kept ▸ hc)
  · exact fun _ => .inl

end Proc

namespace Machine

/-! ## What a core does to the books -/

/-- The books of the process are kept, and the core still has the memory and the handlers of ports
that it was made with. -/
structure Accounted (m m' : Machine) : Prop where
  books : ∀ {cs : List CoreMemory}, m.proc.Balanced cs → m.proc.Onward cs m'.proc cs
  memory : m'.core.toCoreMemory = m.core.toCoreMemory
  handlers : m'.core.ports.handlers = m.core.ports.handlers
  spawned : ∀ c ∈ m'.proc.spawned, c ∈ m.proc.spawned ∨ c.ports = Proc.wiredPorts

theorem Accounted.refl (m : Machine) : Accounted m m :=
  ⟨fun h => h.onward, rfl, rfl, fun _ => .inl⟩

/-- What is accounted for in two steps is accounted for in both. -/
theorem Accounted.trans {m₁ m₂ m₃ : Machine} (h : Accounted m₁ m₂) (h' : Accounted m₂ m₃) :
    Accounted m₁ m₃ where
  books hb := (h.books hb).trans (h'.books (h.books hb).balanced)
  memory := h'.memory.trans h.memory
  handlers := h'.handlers.trans h.handlers
  spawned c hc := (h'.spawned c hc).elim (h.spawned c) .inr

/-- Registers, the contents of memory, devices and counters are not in the books. -/
theorem Accounted.aside {m m' : Machine} (undisturbed : m.proc.Undisturbed m'.proc)
    (spawned : m'.proc.spawned = m.proc.spawned)
    (memory : m'.core.toCoreMemory = m.core.toCoreMemory)
    (handlers : m'.core.ports.handlers = m.core.ports.handlers) : Accounted m m' where
  books hb := hb.undisturbed undisturbed spawned
  memory := memory
  handlers := handlers
  spawned _ hc := .inl (spawned ▸ hc)

theorem Effect.accounted {m m' : Machine} (h : Effect m m') : Accounted m m' := by
  induction h with
  | refl m => exact .refl m
  | trans _ _ ih ih' => exact ih.trans ih'
  | int | float | memory | grow | shrink | ports | devices | clock | random =>
    exact .aside ⟨rfl, rfl, Nat.le_refl _, rfl, rfl, Nat.le_refl _⟩ rfl rfl rfl
  | makeHeap m size =>
    exact ⟨fun hb => hb.makeHeap size, rfl, rfl, fun c hc =>
      .inl (m.proc.spawned_makeHeap size ▸ hc)⟩
  | destroyHeap m base =>
    exact ⟨fun hb => hb.destroyHeap base, rfl, rfl,
      fun c hc => .inl (m.proc.spawned_destroyHeap base ▸ hc)⟩
  | spawn m start param =>
    exact ⟨fun hb => hb.spawn start param, rfl, rfl, m.proc.spawned_spawn start param⟩

theorem Jumped.accounted {m m' : Machine} {i : Isa.Inst} {e : Option Stop} (h : Jumped m i m' e) :
    Accounted m m' := by
  cases h <;> exact .aside ⟨rfl, rfl, Nat.le_refl _, rfl, rfl, Nat.le_refl _⟩ rfl rfl rfl

theorem Dispatched.accounted {m m' : Machine} {e : Option Stop} (h : Dispatched m m' e) :
    Accounted m m' := by
  have counted : Accounted m m.countInterpreted :=
    .aside ⟨rfl, rfl, Nat.le_refl _, rfl, rfl, Nat.le_refl _⟩ rfl rfl rfl
  cases h with
  | undecoded => exact .refl m
  | jumped _ done =>
    exact done.accounted.trans
      (.aside ⟨rfl, rfl, Nat.le_refl _, rfl, rfl, Nat.le_refl _⟩ rfl rfl rfl)
  | stuck _ failed => exact failed.accounted
  | stepped read done =>
    have effect := (effect_step (Isa.decode_eq_ok read) m.countInterpreted).accounted
    rw [done] at effect
    exact (counted.trans effect).trans
      (.aside ⟨rfl, rfl, Nat.le_refl _, rfl, rfl, Nat.le_refl _⟩ rfl rfl rfl)
  | failed read failed =>
    have effect := (effect_step (Isa.decode_eq_ok read) m.countInterpreted).accounted
    rw [failed] at effect
    exact counted.trans effect

/-! ## The ports of the memory manager -/

theorem proc_reply (m : Machine) (p : UInt32) (w : Int64) (v : UInt64) :
    (m.reply p w v).1.proc = m.proc := by
  unfold reply
  split <;> rfl

/-- The ports of the memory manager are within the bank, at every width. -/
theorem span_of_mem {port : UInt32} {w : Nat} (hp : port.toNat + 8 ≤ 256)
    (hw : w ∈ Isa.portWidths) : Bank.span port (Int64.ofNat w) = .ok () := by
  have accepted : ∀ w ∈ Isa.portWidths, (!(Int64.ofNat w == 1 || Int64.ofNat w == 2 ||
      Int64.ofNat w == 4 || Int64.ofNat w == 8)) = false ∧ (Int64.ofNat w).toNatClampNeg ≤ 8 := by
    decide
  obtain ⟨hwidth, hlength⟩ := accepted w hw
  rw [Bank.span, hwidth, if_neg (by decide), if_neg (by omega)]

/-- A write to a port with a handler does nothing, for a width that no access has, or what the
handler does with the low bytes. -/
theorem output_of_handler {m : Machine} {port : UInt32} {h : CorePort}
    (handled : m.core.ports.handler port = some (.call h))
    (hp : port.toNat + 8 ≤ 256) (w : Nat) (v : UInt64) :
    (w ∉ Isa.portWidths ∧ (m.output port w v).1 = m) ∨
      (m.output port w v).1 = (m.serve h (Bank.cut (Int64.ofNat w) v)).1 := by
  unfold output Bank.write
  cases hspan : Bank.span port (Int64.ofNat w) with
  | error f =>
    refine .inl ⟨fun hw => ?_, rfl⟩
    rw [span_of_mem hp hw] at hspan
    cases hspan
  | ok u =>
    refine .inr ?_
    simp only [bind, Except.bind, handled]
    rfl

end Machine

/-! ## Sessions -/

/-- A process with the cores that its owner holds. -/
structure Session where
  proc : Proc
  /-- Cores that are open. Those that were spawned belong to the process until they are taken up. -/
  cores : List Core := []
  closed : List Core := []

namespace Session

def openCores (s : Session) : List Core := s.cores ++ s.proc.spawned

/-- The memory of the cores that were taken up. -/
def held (s : Session) : List CoreMemory := s.cores.map (·.toCoreMemory)

/-- What may happen in a session. -/
inductive Step : Session → Session → Prop
  | newCore {s : Session} {start : Int64} {param : UInt64} {p : Proc} {c : Core}
      (made : s.proc.newCore start param = (p, .ok c)) :
      Step s { s with proc := p, cores := c :: s.cores }
  | noCore {s : Session} {start : Int64} {param : UInt64} {p : Proc} {f : Failure}
      (failed : s.proc.newCore start param = (p, .error f)) : Step s { s with proc := p }
  | takeUp {s : Session} :
      Step s { s with proc := { s.proc with spawned := [] }, cores := s.openCores }
  | close {s : Session} {before after : List Core} {c : Core} {m : Machine}
      (isOpen : s.cores = before ++ c :: after) (closed : Group.retire ⟨c, s.proc⟩ = m) :
      Step s { proc := m.proc, cores := before ++ after, closed := m.core :: s.closed }
  | closeAgain {s : Session} {c : Core} {m : Machine} (isClosed : c ∈ s.closed)
      (closed : Group.retire ⟨c, s.proc⟩ = m) : Step s { s with proc := m.proc }
  | dispatch {s : Session} {before after : List Core} {c : Core} {m : Machine} {e : Option Stop}
      (mode : s.proc.mode = .interpret) (isOpen : s.cores = before ++ c :: after)
      (done : (⟨c, s.proc⟩ : Machine).dispatch = (m, e)) :
      Step s { s with proc := m.proc, cores := before ++ m.core :: after }
  | output {s : Session} {before after : List Core} {c : Core} {m : Machine} {f : Option Failure}
      {port : UInt32} {width : Nat} {v : UInt64} (isOpen : s.cores = before ++ c :: after)
      (done : (⟨c, s.proc⟩ : Machine).output port width v = (m, f)) :
      Step s { s with proc := m.proc, cores := before ++ m.core :: after }
  /-- What the books do not see may change at any time: the plans of the host, the contents of its
  memory, the devices. -/
  | change {s : Session} {p : Proc} (undisturbed : s.proc.Undisturbed p)
      (spawned : p.spawned = s.proc.spawned) : Step s { s with proc := p }

abbrev Run : Session → Session → Prop := Relation.ReflTransGen Step

/-- The invariant of a session. -/
structure InOrder (s : Session) : Prop where
  balanced : s.proc.Balanced s.held
  /-- What a closed core had is gone for good. -/
  gone : ∀ c ∈ s.closed, ∀ a ∈ c.toCoreMemory.arenas, s.proc.Gone a.serial
  wired : ∀ c ∈ s.openCores, c.ports.handlers = Proc.wiredPorts.handlers

def Later (s s' : Session) : Prop := s.proc.Later s.held s'.proc s'.held

variable {s s' : Session}

/-- A step that keeps the books keeps the session in order. -/
theorem InOrder.onward (h : s.InOrder) (onward : s.proc.Onward s.held s'.proc s'.held)
    (closed : ∀ c ∈ s'.closed, c ∈ s.closed ∨ ∀ a ∈ c.toCoreMemory.arenas, s'.proc.Gone a.serial)
    (wired : ∀ c ∈ s'.openCores, c.ports.handlers = Proc.wiredPorts.handlers) :
    s'.InOrder ∧ Later s s' := by
  refine ⟨⟨onward.balanced, fun c hc => ?_, wired⟩, onward.later⟩
  rcases closed c hc with before | now
  · intro a ha
    exact (h.gone c before a ha).later onward.later h.balanced onward.balanced
  · exact now

/-- A core of the session at work. -/
theorem InOrder.act {before after : List Core} {c : Core} {m : Machine} (h : s.InOrder)
    (isOpen : s.cores = before ++ c :: after) (accounted : Machine.Accounted ⟨c, s.proc⟩ m)
    (hs : s' = { s with proc := m.proc, cores := before ++ m.core :: after }) :
    s'.InOrder ∧ Later s s' := by
  subst hs
  have hheld : held { s with proc := m.proc, cores := before ++ m.core :: after } = s.held := by
    simp only [held, isOpen, List.map_append, List.map_cons, accounted.memory]
  refine h.onward ?_ (fun _ => .inl) ?_
  · rw [hheld]
    exact accounted.books h.balanced
  · intro x hx
    have hwired := h.wired
    simp only [openCores, isOpen, List.mem_append, List.mem_cons] at hwired hx
    rcases hx with (hx | rfl | hx) | hx
    · exact hwired x (.inl (.inl hx))
    · exact accounted.handlers.trans (hwired c (.inl (.inr (.inl rfl))))
    · exact hwired x (.inl (.inr (.inr hx)))
    · rcases accounted.spawned x hx with hx | hx
      · exact hwired x (.inr hx)
      · rw [hx]

/-- Every step keeps the session in order. -/
theorem Step.inOrder (h : s.InOrder) (step : Step s s') : s'.InOrder ∧ Later s s' := by
  cases step with
  | @newCore start param p c made =>
    have onward := h.balanced.newCore start param
    have spawned := s.proc.spawned_newCore start param
    rw [made] at onward spawned
    refine h.onward onward (fun _ => .inl) ?_
    show ∀ x ∈ c :: s.cores ++ p.spawned, _
    rw [spawned, List.cons_append, List.forall_mem_cons]
    exact ⟨by rw [Proc.ports_newCore made], h.wired⟩
  | @noCore start param p f failed =>
    have onward := h.balanced.newCore start param
    have spawned := s.proc.spawned_newCore start param
    rw [failed] at onward spawned
    refine h.onward onward (fun _ => .inl) ?_
    show ∀ x ∈ s.cores ++ p.spawned, _
    rw [spawned]
    exact h.wired
  | takeUp =>
    -- The same cores are open as before; they only change hands.
    have cores : (Proc.openCores { s.proc with spawned := [] }
        (s.openCores.map (·.toCoreMemory))) = s.proc.openCores s.held := by
      simp only [Proc.openCores, held, openCores, List.map_append, List.map_nil, List.append_nil]
    refine h.onward (h.balanced.rearrange ?_ (cores ▸ .refl _)) (fun _ => .inl) ?_
    · exact ⟨rfl, rfl, Nat.le_refl _, rfl, rfl, Nat.le_refl _⟩
    · show ∀ x ∈ s.openCores ++ [], _
      rw [List.append_nil]
      exact h.wired
  | @close before after c m isOpen closed =>
    subst closed
    have hheld : s.held.Perm (c.toCoreMemory :: (before ++ after).map (·.toCoreMemory)) := by
      rw [held, isOpen]
      exact List.perm_middle.map _
    refine h.onward (h.balanced.closeCore hheld) ?_ ?_
    · refine List.forall_mem_cons.mpr ⟨.inr ?_, fun _ => .inl⟩
      have gone := h.balanced.gone_closeCore hheld
      simp only [CoreMemory.arenas, List.forall_mem_cons] at gone ⊢
      exact gone
    · intro x hx
      apply h.wired
      have hx : x ∈ before ++ after ++ s.proc.spawned := hx
      simp only [openCores, isOpen, List.mem_append, List.mem_cons] at hx ⊢
      tauto
  | @closeAgain c m isClosed closed =>
    subst closed
    -- Nothing that the core had is mapped, and its numbers are not given out again.
    have same : s.proc.closeCore c = s.proc := h.balanced.closeCore_of_gone (h.gone c isClosed)
    have hproc : (Group.retire ⟨c, s.proc⟩).proc = s.proc := same
    rw [hproc]
    exact ⟨h, .refl _ _⟩
  | @dispatch before after c m e mode isOpen done =>
    have dispatched := Machine.dispatched (m := ⟨c, s.proc⟩) mode Machine.runBlock
    have done : (⟨c, s.proc⟩ : Machine).dispatchWith Machine.runBlock = (m, e) := done
    rw [done] at dispatched
    exact h.act isOpen dispatched.accounted rfl
  | @output before after c m f port width v isOpen done =>
    have effect := Machine.effect_output ⟨c, s.proc⟩ port width v
    rw [done] at effect
    exact h.act isOpen effect.accounted rfl
  | @change p undisturbed spawned =>
    refine h.onward (h.balanced.undisturbed undisturbed spawned) (fun _ => .inl) ?_
    show ∀ x ∈ s.cores ++ p.spawned, _
    rw [spawned]
    exact h.wired

/-- The run lemma: what every step of a session keeps holds at its end, and what is live then was
live before or is new. -/
theorem Run.inOrder (h : s.InOrder) (run : Run s s') : s'.InOrder ∧ Later s s' := by
  induction run with
  | refl => exact ⟨h, .refl _ _⟩
  | tail _ step ih =>
    obtain ⟨inOrder, later⟩ := step.inOrder ih.1
    exact ⟨inOrder, ih.2.trans later⟩

theorem inOrder_new {program : Program} {o : Options} {p : Proc}
    (made : Proc.new program o = .ok p) : InOrder { proc := p } := by
  have hspawned : p.spawned = [] := by
    unfold Proc.new at made
    split at made
    · cases made
    · cases made
      rfl
  refine ⟨Proc.balanced_new made, nofun, ?_⟩
  show ∀ c ∈ [] ++ p.spawned, _
  rw [hspawned]
  nofun

/-! ## The ledger -/

/-- The space holds exactly what is in use, all of it open, and the table of heaps is in order. -/
structure Exact (s : Session) : Prop where
  registered : s.proc.space.arenas.Perm
    (s.proc.global :: s.openCores.flatMap (fun c => [c.stack, c.data]) ++ s.proc.heaps.map (·.2))
  size : s.proc.space.size = 1 + 2 * s.openCores.length + s.proc.heaps.length
  isOpen : ∀ a ∈ s.proc.space.arenas, a.isOpen = true
  /-- Heaps are stored under their own addresses. -/
  keyed : ∀ e ∈ s.proc.heaps, e.1 = e.2.base
  keys : (s.proc.heaps.map (·.1)).Nodup
  named : (s.proc.heaps.map (·.2.name)).Nodup

/-- In order, the live mappings are exactly those in use. -/
theorem InOrder.exact (h : s.InOrder) : s.Exact := by
  have cores : (s.proc.openCores s.held).flatMap (·.reachable)
      = s.openCores.flatMap (fun c => [c.stack, c.data]) := by
    rw [Proc.openCores, held, ← List.map_append, List.flatMap_map]
    rfl
  have registered := h.balanced.space
  rw [cores] at registered
  refine ⟨registered, ?_, ?_, h.balanced.keyed, h.balanced.keys, ?_⟩
  · have hlength := registered.length_eq
    simp only [List.length_append, List.length_cons, List.length_flatMap, List.length_nil,
      List.map_const', List.sum_replicate_nat, Proc.heapArenas, List.length_map] at hlength
    rw [Space.size, hlength]
    omega
  · intro a ha
    exact (h.balanced.orderly.placed a (h.balanced.space_subset ha)).isOpen
  · have := h.balanced.named
    rwa [Proc.heapArenas, List.map_map] at this

/-- The process after a core has written to a port. -/
def written (s : Session) (c : Core) (port : UInt32) (width : Nat) (v : UInt64) : Proc :=
  ((⟨c, s.proc⟩ : Machine).output port width v).1.proc

/-- What writes to the ports of the memory manager do to the books. -/
structure HeapPorts (s : Session) (c : Core) (width : Nat) (v : UInt64) : Prop where
  refused : s.proc.Refuses (Bank.cut (Int64.ofNat width) v) →
    (s.written c Port.makeHeap width v).heaps = s.proc.heaps ∧
      (s.written c Port.makeHeap width v).space = s.proc.space
  made : width ∈ Isa.portWidths → ¬ s.proc.Refuses (Bank.cut (Int64.ofNat width) v) →
    ∃ a : Arena, a.size = (Bank.cut (Int64.ofNat width) v).toNat ∧
      (s.written c Port.makeHeap width v).heaps = (a.base, a) :: s.proc.heaps
  noHeap : (∀ e ∈ s.proc.heaps, e.2.base ≠ Bank.cut (Int64.ofNat width) v) →
    (s.written c Port.destroyHeap width v).heaps = s.proc.heaps ∧
      (s.written c Port.destroyHeap width v).space = s.proc.space
  destroyed : width ∈ Isa.portWidths → ∀ h ∈ s.proc.heaps.map (·.2),
    h.base = Bank.cut (Int64.ofNat width) v →
      h ∉ (s.written c Port.destroyHeap width v).heaps.map (·.2)

/-- An open core writes to a port of the memory manager. -/
theorem InOrder.written (h : s.InOrder) {c : Core} (hc : c ∈ s.cores) {port : UInt32} {k : CorePort}
    (handled : Proc.wiredPorts.handler port = some (.call k))
    (hp : port.toNat + 8 ≤ 256) (width : Nat) (v : UInt64) :
    (width ∉ Isa.portWidths ∧ s.written c port width v = s.proc) ∨
    s.written c port width v
      = ((⟨c, s.proc⟩ : Machine).serve k (Bank.cut (Int64.ofNat width) v)).1.proc := by
  have wired : c.ports.handler port = some (.call k) := by
    rw [Bank.handler, h.wired c (List.mem_append_left _ hc)]
    exact handled
  rcases Machine.output_of_handler (m := ⟨c, s.proc⟩) wired hp width v with ⟨hw, same⟩ | served
  · exact .inl ⟨hw, congrArg Machine.proc same⟩
  · exact .inr (congrArg Machine.proc served)

/-- The ports of the memory manager do what the ledger says, at every width. -/
theorem InOrder.heapPorts (h : s.InOrder) {c : Core} (hc : c ∈ s.cores) (width : Nat) (v : UInt64) :
    s.HeapPorts c width v := by
  -- A write with no width of a port is refused by the bank; any other reaches the memory manager.
  have makes : (width ∉ Isa.portWidths ∧ s.written c Port.makeHeap width v = s.proc) ∨
      s.written c Port.makeHeap width v
        = (s.proc.makeHeap (Bank.cut (Int64.ofNat width) v)).1 := by
    refine (h.written hc (k := .makeHeap) rfl (by decide) width v).imp_right fun served => ?_
    rw [served]
    exact Machine.proc_reply _ _ _ _
  have destroys : (width ∉ Isa.portWidths ∧ s.written c Port.destroyHeap width v = s.proc) ∨
      s.written c Port.destroyHeap width v
        = s.proc.destroyHeap (Bank.cut (Int64.ofNat width) v) :=
    h.written hc (k := .destroyHeap) rfl (by decide) width v
  constructor
  · intro refuses
    rcases makes with ⟨-, same⟩ | made
    · rw [same]
      exact ⟨rfl, rfl⟩
    · rw [made]
      exact Proc.makeHeap_of_refuses refuses
  · intro hwidth grants
    rcases makes with ⟨bad, -⟩ | made
    · exact absurd hwidth bad
    · rw [made]
      exact h.balanced.makeHeap_of_grants grants
  · intro absent
    rcases destroys with ⟨-, same⟩ | destroyed
    · rw [same]
      exact ⟨rfl, rfl⟩
    · rw [destroyed, h.balanced.destroyHeap_of_no_heap absent]
      exact ⟨rfl, rfl⟩
  · intro hwidth a ha hbase
    rcases destroys with ⟨bad, -⟩ | destroyed
    · exact absurd hwidth bad
    · rw [destroyed, ← hbase]
      exact h.balanced.not_mem_destroyHeap ha

/-- What covers an address of a heap that is gone was mapped after the heap was last seen. -/
theorem InOrder.mapped_since (h : s.InOrder) (run : Run s s') {a b : Arena}
    (ha : a ∈ s.proc.heapArenas) (gone : a ∉ s'.proc.heapArenas) (hb : b ∈ s'.proc.space.arenas)
    {addr : UInt64} {n : Int64} (hlow : a.base ≤ addr)
    (hhigh : addr.toNat < a.base.toNat + a.size) (hn : 0 < n) (covers : b.covers addr n = true) :
    s.proc.host.history.length ≤ b.serial := by
  obtain ⟨h', later⟩ := Run.inOrder h run
  have hlive := h.balanced.heap_mem_live ha
  have placed := h.balanced.orderly.placed a hlive
  have hsize := placed.size_le
  have htop := placed.high
  by_contra hold
  -- An arena from before that covers the address meets the heap, so it is the heap.
  have hheap : b ∈ s.proc.host.live → b = a := by
    intro hmem
    by_contra hne
    have inside := (h.balanced.orderly.placed b hmem).inside_of_covers (by omega)
      (by simpa [Int64.lt_iff_toInt_lt] using hn) covers
    have apart := h.balanced.orderly.apart_of_ne hmem hlive hne
    rw [UInt64.le_iff_toNat_le] at hlow
    unfold Arena.Apart at apart
    omega
  have hmem := h'.balanced.live.mem_iff.mp (h'.balanced.space_subset hb)
  rcases List.mem_append.mp hmem with hother | hheaps
  · have hother : b ∈ s.proc.global :: (s.proc.openCores s.held).flatMap (·.arenas) := by
      rcases List.mem_cons.mp hother with heq | hcore
      · exact List.mem_cons.mpr (.inl (heq.trans later.global))
      · exact List.mem_cons_of_mem _ ((later.cores b hcore).resolve_right hold)
    have heq := hheap (h.balanced.live.mem_iff.mpr (List.mem_append_left _ hother))
    exact h.balanced.heap_not_mem ha (heq ▸ hother)
  · have hbefore := (later.heaps b hheaps).resolve_right hold
    have heq := hheap (h.balanced.heap_mem_live hbefore)
    exact gone (heq ▸ hheaps)

/-- In every session of a process the ledger is exact. Making and destroying heaps through the ports
of any open core does to it what was asked for and nothing else. An address of a heap that is gone
resolves only if an arena that was mapped after the heap was last there covers it. -/
theorem ledger_is_exact {program : Program} {o : Options} {p : Proc} {s : Session}
    (made : Proc.new program o = .ok p) (run : Run { proc := p } s) :
    s.Exact ∧
    (∀ c ∈ s.cores, ∀ (width : Nat) (v : UInt64), s.HeapPorts c width v) ∧
    ∀ s', Run s s' → ∀ h ∈ s.proc.heaps.map (·.2), h ∉ s'.proc.heaps.map (·.2) →
      ∀ (addr : UInt64) (n : Int64), h.base ≤ addr → addr.toNat < h.base.toNat + h.size → 0 < n →
        (∃ e, s'.proc.space.resolve addr n = .error e) ∨
        ∃ a off, s'.proc.space.resolve addr n = .ok (a, off) ∧ a.covers addr n = true ∧
          s.proc.host.history.length ≤ a.serial := by
  have inOrder := (Run.inOrder (inOrder_new made) run).1
  refine ⟨inOrder.exact, fun c hc => inOrder.heapPorts hc, ?_⟩
  intro s' run' h hh gone addr n hlow hhigh hn
  cases hres : s'.proc.space.resolve addr n with
  | error e => exact .inl ⟨e, rfl⟩
  | ok found =>
    obtain ⟨a, off⟩ := found
    obtain ⟨hmem, covers, -⟩ := Space.resolve_eq_ok hres
    exact .inr ⟨a, off, rfl, covers,
      inOrder.mapped_since run' hh gone hmem hlow hhigh hn covers⟩

/-- A program with small arenas; its code does not matter here. -/
def smallProgram : Program where
  header := ⟨64, 64, 0, 0⟩
  code := #[]
  global := [1, 2, 3, 4]

/-- Its process has room for a core and a heap. -/
theorem newCore_smallProgram :
    ∃ p p' c, Proc.new smallProgram { mode := .interpret } = .ok p ∧
      p.newCore 0 0 = (p', .ok c) ∧ p'.heaps = [] ∧ ¬ p'.Refuses 64 := by
  refine ⟨_, _, _, rfl, Prod.ext rfl rfl, rfl, ?_⟩
  rintro (hzero | hbig | ⟨f, hf⟩)
  · cases hzero
  · exact absurd hbig (by decide)
  · cases hf

/-- A core makes a heap of 64 bytes and destroys it. -/
theorem ledger_is_exact_smallProgram :
    ∃ p s s' h, Proc.new smallProgram { mode := .interpret } = .ok p ∧ Run { proc := p } s ∧
      Run s s' ∧ s.Exact ∧ s.proc.heaps = [(h.base, h)] ∧ h.size = 64 ∧
      h ∉ s'.proc.heaps.map (·.2) ∧
      ((∃ e, s'.proc.space.resolve h.base 1 = .error e) ∨
        ∃ a off, s'.proc.space.resolve h.base 1 = .ok (a, off) ∧ a.covers h.base 1 = true ∧
          s.proc.host.history.length ≤ a.serial) := by
  obtain ⟨p, p', c, hp, made, noHeaps, grants⟩ := newCore_smallProgram
  have start : Run { proc := p } { proc := p', cores := [c] } := .single (.newCore made)
  have ports := (ledger_is_exact hp start).2.1 c (.head _) 1 64
  obtain ⟨h, hsize, hheaps⟩ := ports.made (by decide) grants
  have hsize : h.size = 64 := hsize
  -- The heap is made by one write and destroyed by another.
  obtain ⟨m, hm⟩ : ∃ m, (⟨c, p'⟩ : Machine).output Port.makeHeap 1 64 = m := ⟨_, rfl⟩
  have isOpen : ({ proc := p', cores := [c] } : Session).cores = [] ++ c :: [] := rfl
  have run : Run { proc := p } { proc := m.1.proc, cores := [m.1.core] } :=
    start.tail (Step.output isOpen hm)
  have hheaps : m.1.proc.heaps = [(h.base, h)] := by
    rw [← hm]
    exact hheaps.trans (congrArg _ noHeaps)
  obtain ⟨ledger, ports', resolves⟩ := ledger_is_exact hp run
  obtain ⟨m', hm'⟩ : ∃ m', m.1.output Port.destroyHeap 8 h.base = m' := ⟨_, rfl⟩
  have isOpen' : ({ proc := m.1.proc, cores := [m.1.core] } : Session).cores
      = [] ++ m.1.core :: [] := rfl
  have destroy : Run { proc := m.1.proc, cores := [m.1.core] }
      { proc := m'.1.proc, cores := [m'.1.core] } :=
    .single (Step.output isOpen' hm')
  have hmem : h ∈ m.1.proc.heaps.map (·.2) := by
    rw [hheaps]
    exact .head _
  have whole : h.base = Bank.cut (Int64.ofNat 8) h.base := by
    show h.base = LittleEndian.toUInt64 (LittleEndian.bytes 8 h.base.toNat)
    rw [LittleEndian.toUInt64_bytes, LittleEndian.ofNat_mod_qword]
  have gone : h ∉ m'.1.proc.heaps.map (·.2) := by
    rw [← hm']
    exact (ports' m.1.core (.head _) 8 h.base).destroyed (by decide) h hmem whole
  exact ⟨p, _, _, h, hp, run, destroy, ledger, hheaps, hsize, gone,
    resolves _ destroy h hmem gone h.base 1 (UInt64.le_refl _) (by omega) (by decide)⟩

end Session

end BlockVM
