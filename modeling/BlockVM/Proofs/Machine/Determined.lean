import BlockVM.Proofs.Machine.Footprint

/-!
# Dispatches are determined by what they read

Let two machines have the same core and the same surroundings, and let their memories agree where
the first one reads. `dispatch_does` says that both dispatches do the same deed: they leave the same
core and the same failure, and they store the same bytes at the addresses in `writes`. Both have the
same footprint, too (`reads_congr`, `writes_congr`).

`Determined` says this of any part of a dispatch. Most instructions compute something and then have
one effect, so the proof follows the computation (`determined_bind`): its first step decides which
bytes the second one reads.
-/

namespace BlockVM

open Isa (Inst)

namespace Machine

variable {m m' : Machine} {i : Inst} {o : Operand} {reads : List UInt64} {α β : Type}

/-! ## Machines that are alike -/

theorem Alike.refl (m : Machine) : m.Alike m := ⟨rfl, rfl⟩

theorem Alike.program (h : m.Alike m') : m'.proc.program = m.proc.program :=
  congrArg Around.program h.around

theorem Alike.mode (h : m.Alike m') : m'.proc.mode = m.proc.mode := congrArg Around.mode h.around

theorem Alike.space (h : m.Alike m') : m'.proc.space = m.proc.space :=
  congrArg Around.space h.around

theorem Alike.global (h : m.Alike m') : m'.proc.global = m.proc.global :=
  congrArg Around.global h.around

theorem Alike.next (h : m.Alike m') : m'.next = m.next := by
  unfold Machine.next
  rw [h.program, h.core, h.global]

theorem Alike.place (h : m.Alike m') (o : Operand) : m'.place o = m.place o := by
  unfold Machine.place
  rw [h.core, h.space, h.global]

theorem Alike.target (h : m.Alike m') (i : Inst) (r : UInt8) (w : Access) :
    m'.target i r w = m.target i r w := by
  unfold Machine.target
  rw [h.space, h.core]

/-- A pointer that was resolved has the place that it was resolved to. -/
theorem place_of_target {r : UInt8} {w : Access} {float : Bool} {found : Arena × Int64}
    (h : m.target i r w = .ok found) :
    m.place (.pointer r w float) = found.1.touched found.2 (Int64.ofNat w.bytes) := by
  have hres : m.proc.space.resolve (m.core.regs.int r) (Int64.ofNat w.bytes) = .ok found :=
    mapError_eq_ok.mp h
  unfold place
  dsimp only
  rw [hres]

theorem AgreesOn.refl (m : Machine) (l : List UInt64) : m.AgreesOn l m := fun _ _ => rfl

theorem AgreesOn.mono {l l' : List UInt64} (h : m.AgreesOn l m') (hl : l' ⊆ l) : m.AgreesOn l' m' :=
  fun x hx => h x (hl hx)

/-! ## Values that depend on what is read -/

theorem dependsOn_of_alike {x : Machine → α} (h : ∀ m', m.Alike m' → x m' = x m) :
    m.DependsOn reads x :=
  fun m' alike _ => h m' alike

/-- What depends on the reads goes through a sequence of steps. -/
theorem DependsOn.bind {x : Machine → Except Stop α} {f : α → Machine → Except Stop β}
    (hx : m.DependsOn reads x) (hf : ∀ a, x m = .ok a → m.DependsOn reads (f a)) :
    m.DependsOn reads fun m => x m >>= fun a => f a m := by
  intro m' alike agree
  show (x m' >>= fun a => f a m') = (x m >>= fun a => f a m)
  rw [hx m' alike agree]
  cases hval : x m with
  | error e => rfl
  | ok a => exact hf a hval m' alike agree

theorem dependsOn_target (i : Inst) (r : UInt8) (w : Access) : m.DependsOn reads (·.target i r w) :=
  dependsOn_of_alike fun _ alike => alike.target i r w

/-- Reading an operand depends on the bytes of its place. -/
theorem dependsOn_read (h : m.place o ⊆ reads) : m.DependsOn reads (·.read i o) := by
  cases o with
  | reg r =>
    refine dependsOn_of_alike fun m' alike => ?_
    show Except.ok (m'.core.regs.int r) = _
    rw [alike.core]
    rfl
  | global off w float =>
    intro m' alike agree
    show faultOn _ _ _ (m'.proc.global.read _ _ _) = faultOn _ _ _ (m.proc.global.read _ _ _)
    rw [alike.global, Arena.read_congr (agree.mono h)]
  | pointer r w float =>
    refine (dependsOn_target i r w).bind fun found hfound => ?_
    rw [place_of_target hfound] at h
    exact fun m' _ agree => Arena.read_congr (agree.mono h)
  | freg | imm | fimm => exact dependsOn_of_alike fun _ _ => rfl

theorem dependsOn_readF (h : m.place o ⊆ reads) : m.DependsOn reads (·.readF i o) := by
  have hread : ∀ f : UInt64 → UInt32,
      m.DependsOn reads fun m => m.read i o >>= fun v => (.ok (f v) : Except Stop UInt32) :=
    fun f => (dependsOn_read h).bind fun v _ => dependsOn_of_alike fun _ _ => rfl
  cases o with
  | freg r =>
    intro m' alike _
    show Except.ok (m'.core.regs.float r) = _
    rw [alike.core]
    rfl
  | fimm bits => exact dependsOn_of_alike fun _ _ => rfl
  | reg | global | pointer | imm => exact hread _

/-- The second operand is read once the first one was. -/
theorem subset_onOk {r : Except Stop α} {a : α} (h : r = .ok a) (l l' : List UInt64) :
    l ⊆ l' ++ onOk r l := by
  rw [h]
  exact List.subset_append_right l' l

theorem dependsOn_port (h : m.place o ⊆ reads) : m.DependsOn reads (·.port i o) :=
  (dependsOn_read h).bind fun _ _ => dependsOn_of_alike fun _ _ => rfl

/-! ## Determined results -/

/-- Functions that agree on alike machines are determined alike. -/
theorem Determined.congr {writes : Bool → List UInt64} {f g : Machine → Machine × Option Stop}
    (h : m.Determined reads writes f)
    (hg : ∀ m', m.Alike m' → m.AgreesOn reads m' → g m' = f m') : m.Determined reads writes g := by
  obtain ⟨c, hwritten, hdoes⟩ := h
  refine ⟨c, hwritten, fun m' alike agree => ?_⟩
  rw [hg m' alike agree]
  exact hdoes m' alike agree

/-- A failure without any effect. -/
theorem does_failure (alike : m.Alike m') (e : Stop) :
    m'.Does (m', some e) { core := m.core, stop := some e } :=
  ⟨alike.core, rfl, rfl, rfl⟩

/-- New registers, besides stores. -/
theorem does_setRegs (alike : m.Alike m') (regs : Registers) (stop : Option Stop)
    (stores : List (UInt64 × List UInt8)) :
    m'.Does ((m'.setMemory (m'.memory.storeAll stores)).setRegs regs, stop)
      { core := { m.core with regs := regs }, stop := stop, stores := stores } := by
  refine ⟨?_, rfl, rfl, rfl⟩
  show { m'.core with regs := regs } = _
  rw [alike.core]

/-- A computation and then an effect. -/
theorem determined_bind {x : Machine → Except Stop α} {f : α → Machine → Except Stop Machine}
    {writes : Bool → List UInt64} (none : writes false = []) (hx : m.DependsOn reads x)
    (hf : ∀ a, x m = .ok a → m.Determined reads writes fun m => m.commit (f a m)) :
    m.Determined reads writes fun m => m.commit (x m >>= fun a => f a m) := by
  cases hval : x m with
  | error e =>
    refine ⟨{ core := m.core, stop := some e }, none.symm, fun m' alike agree => ?_⟩
    dsimp only
    rw [hx m' alike agree, hval]
    exact does_failure alike e
  | ok a =>
    obtain ⟨c, hwritten, hdoes⟩ := hf a hval
    refine ⟨c, hwritten, fun m' alike agree => ?_⟩
    dsimp only
    rw [hx m' alike agree, hval]
    exact hdoes m' alike agree

/-- A store into an arena that is the same for all machines like this one. -/
theorem determined_store {a : Arena} {off n : Int64} {v : UInt64} {g : Stop → Stop}
    {f : Machine → Machine × Option Stop}
    (fails : ∀ m' e, m.Alike m' → a.write m'.memory off n v = .error e → f m' = (m', some (g e)))
    (stores : ∀ m' memory, m.Alike m' → a.write m'.memory off n v = .ok memory →
      f m' = (m'.setMemory memory, none)) :
    m.Determined reads (fun done => if done then a.touched off n else []) f := by
  rcases a.write_uniform off n v with ⟨-, e, hfails⟩ | ⟨addr, bs, htouched, hstores⟩
  · refine ⟨{ core := m.core, stop := some (g e) }, rfl, fun m' alike _ => ?_⟩
    rw [fails m' e alike (hfails _)]
    exact does_failure alike _
  · refine ⟨{ core := m.core, stores := [(addr, bs)] }, ?_, fun m' alike _ => ?_⟩
    · show span addr bs.length ++ [] = a.touched off n
      rw [htouched, List.append_nil]
    · rw [stores m' _ alike (hstores _)]
      exact ⟨alike.core, rfl, rfl, rfl⟩

/-- A write is determined by its operand, and writes its place if it succeeds. -/
theorem determined_write (m : Machine) (i : Inst) (o : Operand) (v : UInt64) :
    m.Determined reads (fun done => if done then m.place o else [])
      fun m => m.commit (m.write i o v) := by
  cases o with
  | reg r =>
    -- A register lives in the core, so nothing of the memory is written.
    refine ⟨{ core := { m.core with regs := m.core.regs.setInt r v } }, rfl, fun m' alike _ => ?_⟩
    show m'.Does (m'.setRegs (m'.core.regs.setInt r v), none) _
    rw [alike.core]
    exact does_setRegs alike _ none []
  | global off w float =>
    refine determined_store (v := v) (g := accessFault .operandBounds i i.name) ?_ ?_
    · intro m' e alike hfails
      unfold write
      dsimp only
      rw [alike.global, hfails]
      rfl
    · intro m' memory alike hstores
      unfold write
      dsimp only
      rw [alike.global, hstores]
      rfl
  | pointer r w float =>
    refine determined_bind rfl (dependsOn_target i r w) fun found hfound => ?_
    rw [place_of_target hfound]
    refine determined_store (v := v) (g := id) ?_ ?_
    · intro m' e _ hfails
      show commit _ (found.1.write _ _ _ _ >>= _) = _
      rw [hfails]
      rfl
    · intro m' memory _ hstores
      show commit _ (found.1.write _ _ _ _ >>= _) = _
      rw [hstores]
      rfl
  | freg | imm | fimm =>
    exact ⟨{ core := m.core, stop := some _ }, rfl, fun m' alike _ => does_failure alike _⟩

/-- But for a float register, writing a float is writing its word. -/
theorem writeF_eq_write (m : Machine) (i : Inst) (hne : ∀ r, o ≠ .freg r) (bits : UInt32) :
    m.writeF i o bits = m.write i o
      (if o.holdsFloat then bits.toUInt64 else (Binary32.toInt32 bits).toUInt64) := by
  unfold writeF
  split
  next r => exact absurd rfl (hne r)
  · split <;> rfl

theorem determined_writeF (m : Machine) (i : Inst) (o : Operand) (bits : UInt32) :
    m.Determined reads (fun done => if done then m.place o else [])
      fun m => m.commit (m.writeF i o bits) := by
  by_cases hfreg : ∃ r, o = .freg r
  · obtain ⟨r, rfl⟩ := hfreg
    refine ⟨{ core := { m.core with regs := m.core.regs.setFloat r bits } }, rfl, ?_⟩
    intro m' alike _
    show m'.Does (m'.setRegs (m'.core.regs.setFloat r bits), none) _
    rw [alike.core]
    exact does_setRegs alike _ none []
  · have hne : ∀ r, o ≠ .freg r := fun r heq => hfreg ⟨r, heq⟩
    simp only [writeF_eq_write _ i hne]
    exact determined_write m i o _

/-! ## The stack -/

theorem touchedSlots_of_refused {stack : Arena} {float : Bool} {off : Int64} {e : Stop} (n : Nat)
    (hloc : stack.locate off (slotSize float) = .error e) :
    touchedSlots stack float (n + 1) off = [] := by
  rw [touchedSlots, Arena.touched_of_refused hloc, hloc]
  rfl

/-- A slot that is located is touched, and then the slots behind it. -/
theorem touchedSlots_of_located {stack : Arena} {float : Bool} {off : Int64}
    {addr : UInt64} (n : Nat) (hloc : stack.locate off (slotSize float) = .ok addr) :
    touchedSlots stack float (n + 1) off =
      span addr (slotSize float).toNatClampNeg ++ touchedSlots stack float n
      (off + slotSize float) := by
  rw [touchedSlots, Arena.touched_of_located hloc (isWidth_slotSize float), hloc]
  rfl

/-- Registers are stored as the same bytes in every memory, up to the same failure. -/
theorem storeRange_uniform (stack : Arena) (regs : Registers) (float : Bool) (n : Nat) (r : UInt8)
    (off : Int64) :
    ∃ stores stop, addresses stores = touchedSlots stack float n off ∧
      ∀ memory, storeRange stack regs float n r off memory = (memory.storeAll stores, stop) := by
  induction n generalizing r off with
  | zero => exact ⟨[], none, rfl, fun _ => rfl⟩
  | succ n ih =>
    -- Whether a slot is refused depends on its offset alone and not on the memory.
    cases hloc : stack.locate off (slotSize float) with
    | error e =>
      refine ⟨[], some e, (touchedSlots_of_refused n hloc).symm, fun memory => ?_⟩
      unfold storeRange
      rw [Arena.write_of_refused hloc]
      rfl
    | ok addr =>
      obtain ⟨stores, stop, hslots, hrest⟩ := ih (r + 1) (off + slotSize float)
      refine ⟨(addr, LittleEndian.bytes (slotSize float).toNatClampNeg (regs.bits float r).toNat)
        :: stores, stop, ?_, fun memory => ?_⟩
      · rw [touchedSlots_of_located n hloc, ← hslots, addresses, List.flatMap_cons,
          LittleEndian.length_bytes]
        rfl
      · unfold storeRange
        rw [Arena.write_of_located hloc, if_pos (isWidth_slotSize float)]
        exact hrest _

/-- Loading a range depends on the bytes of its slots. -/
theorem loadRange_congr {stack : Arena} {memory memory' : Memory} {float : Bool}
    {n : Nat} {r : UInt8} {off : Int64} {regs : Registers}
    (agree : ∀ x ∈ touchedSlots stack float n off, memory'.load x = memory.load x) :
    loadRange stack memory' float n r off regs = loadRange stack memory float n r off regs := by
  induction n generalizing r off regs with
  | zero => rfl
  | succ n ih =>
    have slot : stack.read memory' off (slotSize float) = stack.read memory off (slotSize float) :=
      Arena.read_congr fun x hx => agree x (List.mem_append_left _ hx)
    unfold loadRange
    rw [slot]
    cases hloc : stack.locate off (slotSize float) with
    | error e => rw [Arena.read_of_refused hloc]
    | ok addr =>
      rw [touchedSlots_of_located n hloc] at agree
      rw [Arena.read_of_located hloc, if_pos (isWidth_slotSize float)]
      exact ih fun x hx => agree x (List.mem_append_right _ hx)

theorem Alike.touchedRange (h : m.Alike m') (r : RegRange) (sp : Int64) :
    m'.touchedRange r sp = m.touchedRange r sp := by
  unfold Machine.touchedRange
  rw [h.core]

/-- A push writes slots even when it fails later on. -/
theorem determined_push (m : Machine) (i : Inst) (r : RegRange) :
    m.Determined reads (fun _ => m.touchedRange r m.core.regs.sp) (·.push i r) := by
  -- The check of the whole range comes first: on overflow not a single slot is written.
  by_cases hbounds : m.core.stack.inBounds m.core.regs.sp (Int64.ofNat r.bytes) = true
  · obtain ⟨stores, stop, hslots, hstores⟩ := storeRange_uniform m.core.stack m.core.regs r.float
      r.count r.first m.core.regs.sp
    have written : addresses stores = m.touchedRange r m.core.regs.sp := by
      rw [hslots, touchedRange, if_pos hbounds]
    cases stop with
    | some e =>
      refine ⟨{ core := m.core, stop := some e, stores := stores }, written, fun m' alike _ => ?_⟩
      unfold push
      dsimp only
      rw [alike.core, if_pos hbounds, hstores]
      exact ⟨alike.core, rfl, rfl, rfl⟩
    | none =>
      refine ⟨{ core := { m.core with regs := { m.core.regs with
        sp := m.core.regs.sp + Int64.ofNat r.bytes } }, stores := stores }, written, ?_⟩
      intro m' alike _
      unfold push
      dsimp only
      rw [alike.core, if_pos hbounds, hstores]
      exact does_setRegs alike _ none stores
  · refine ⟨{ core := m.core, stop := some (m.overflow i r) }, ?_, fun m' alike _ => ?_⟩
    · rw [touchedRange, if_neg hbounds]
      rfl
    · unfold push overflow
      dsimp only
      rw [alike.core, if_neg hbounds]
      exact does_failure alike _

theorem determined_pop (m : Machine) (i : Inst) (r : RegRange) :
    m.Determined (m.touchedRange r (m.core.regs.sp - Int64.ofNat r.bytes)) (fun _ => [])
    (·.pop i r) := by
  -- On underflow no slot is read, so nothing has to agree.
  by_cases hbounds : m.core.stack.inBounds (m.core.regs.sp - Int64.ofNat r.bytes)
      (Int64.ofNat r.bytes) = true
  · rw [touchedRange, if_pos hbounds]
    cases hload : loadRange m.core.stack m.memory r.float r.count r.first
      (m.core.regs.sp - Int64.ofNat r.bytes) m.core.regs with
    | mk regs stop =>
      cases stop with
      | some e =>
        refine ⟨{ core := { m.core with regs := regs }, stop := some e }, rfl, ?_⟩
        intro m' alike agree
        unfold pop
        dsimp only
        rw [alike.core, if_pos hbounds, loadRange_congr agree, hload]
        exact does_setRegs alike regs _ []
      | none =>
        refine ⟨{ core := { m.core with regs := { regs with
          sp := m.core.regs.sp - Int64.ofNat r.bytes } } }, rfl, ?_⟩
        intro m' alike agree
        unfold pop
        dsimp only
        rw [alike.core, if_pos hbounds, loadRange_congr agree, hload]
        exact does_setRegs alike _ none []
  · refine ⟨{ core := m.core, stop := some (m.underflow i r) }, rfl, fun m' alike _ => ?_⟩
    unfold pop underflow
    dsimp only
    rw [alike.core, if_neg hbounds]
    exact does_failure alike _

/-! ## Actions -/

theorem determined_setPorts (m : Machine) (ports : Bank CorePort) :
    m.Determined reads (fun _ => []) fun m => m.commit (.ok (m.setPorts ports)) := by
  refine ⟨{ core := { m.core with ports := ports } }, rfl, fun m' alike _ => ⟨?_, rfl, rfl, rfl⟩⟩
  show { m'.core with ports := ports } = _
  rw [alike.core]

/-- What only depends on the core. -/
theorem dependsOn_core (f : Core → α) : m.DependsOn reads fun m => f m.core :=
  dependsOn_of_alike fun _ alike => congrArg f alike.core

/-- A write to a port without a handler stores. -/
theorem output_unserved {p : UInt32} (unserved : m.isServed p = false) (width : Nat) (v : UInt64) :
    m.output p width v = match m.core.ports.store p (Int64.ofNat width) v with
      | .error f => (m, some f)
      | .ok ports => (m.setPorts ports, none) := by
  unfold output Bank.write Bank.store
  unfold isServed at unserved
  cases Bank.span p (Int64.ofNat width) with
  | error f => rfl
  | ok u =>
    cases hh : m.core.ports.handler p with
    | none => rfl
    | some h =>
      cases h with
      | latch => rfl
      | call h =>
        rw [hh] at unserved
        cases unserved

/-- An output without handlers: the port and the value are computed, and then the value is
stored. -/
def storeOutput (m : Machine) (i : Inst) (port value : Operand) (width : Nat) :
    Except Stop Machine := do
  let p ← m.port i port
  let v ← m.read i value
  let ports ← (m.core.ports.store p (Int64.ofNat width) v).mapError (portFault i)
  return m.setPorts ports

/-- An output that no device serves is a store to the port. -/
theorem service_output {port value : Operand} {width : Nat}
    (unserved : ∀ p, m.port i port = .ok p → m.isServed p = false) :
    m.service i (.output port value width) = m.commit (m.storeOutput i port value width) := by
  dsimp only [service, outputArgs, storeOutput]
  cases hp : m.port i port with
  | error e => rfl
  | ok p =>
    cases m.read i value with
    | error e => rfl
    | ok v =>
      show ((m.output p width v).1, (m.output p width v).2.map (portFault i)) = _
      rw [output_unserved (unserved p hp)]
      cases hstore : m.core.ports.store p (Int64.ofNat width) v with
      | error f =>
        show _ = m.commit ((m.core.ports.store p (Int64.ofNat width) v).mapError _ >>= _)
        rw [hstore]
        rfl
      | ok ports =>
        show _ = m.commit ((m.core.ports.store p (Int64.ofNat width) v).mapError _ >>= _)
        rw [hstore]
        rfl

theorem unserved_of_quiet {port value : Operand} {width : Nat}
    (quiet : m.isQuietAction i (.service (.output port value width)) = true) :
    ∀ p, m.port i port = .ok p → m.isServed p = false := by
  intro p hp
  unfold isQuietAction at quiet
  dsimp only at quiet
  rw [hp] at quiet
  simpa using quiet

theorem determined_output {port value : Operand} {width : Nat}
    (quiet : m.isQuietAction i (.service (.output port value width)) = true) :
    m.Determined (m.actionReads i (.service (.output port value width))) (fun _ => [])
      (·.service i (.output port value width)) := by
  have hport : m.DependsOn (m.actionReads i (.service (.output port value width)))
      (·.port i port) :=
    dependsOn_port (List.subset_append_left _ _)
  have stored : m.Determined (m.actionReads i (.service (.output port value width))) (fun _ => [])
      fun m => m.commit (m.storeOutput i port value width) := by
    refine determined_bind rfl hport fun p hp => ?_
    refine determined_bind rfl (dependsOn_read (subset_onOk hp _ _)) fun v _ => ?_
    refine determined_bind rfl (dependsOn_core fun c =>
      (c.ports.store p (Int64.ofNat width) v).mapError (portFault i)) fun ports _ => ?_
    exact determined_setPorts m ports
  refine stored.congr fun m' alike agree => service_output fun p hp => ?_
  have hp : m.port i port = .ok p := (hport m' alike agree).symm.trans hp
  unfold isServed
  rw [alike.core]
  exact unserved_of_quiet quiet p hp

/-- Quiet services are determined by what they read. -/
theorem determined_service {s : Service} (quiet : m.isQuietAction i (.service s) = true) :
    m.Determined (m.actionReads i (.service s)) (m.actionWrites (.service s)) (·.service i s) := by
  cases s with
  | output port value width => exact determined_output quiet
  | input dst port width =>
    refine determined_bind rfl (dependsOn_port (List.Subset.refl _)) fun p _ => ?_
    refine determined_bind rfl (dependsOn_core fun c =>
      (c.ports.read p (Int64.ofNat width)).mapError (portFault i)) fun v _ => ?_
    exact determined_write m i dst v
  | foutput port value =>
    refine determined_bind rfl (dependsOn_port (List.subset_append_left _ _)) fun p hp => ?_
    refine determined_bind rfl (dependsOn_readF (subset_onOk hp _ _)) fun bits _ => ?_
    refine determined_bind rfl (dependsOn_core fun c =>
      (c.ports.storeFloat p bits).mapError (portFault i)) fun ports _ => ?_
    exact determined_setPorts m ports
  | finput dst port =>
    refine determined_bind rfl (dependsOn_port (List.Subset.refl _)) fun p _ => ?_
    refine determined_bind rfl (dependsOn_core fun c =>
      (c.ports.readFloat p).mapError (portFault i)) fun bits _ => ?_
    exact determined_writeF m i dst bits
  | draw | time | sleep | rand => cases quiet

theorem determined_perform {a : Action} (quiet : m.isQuietAction i a = true) :
    m.Determined (m.actionReads i a) (m.actionWrites a) (·.perform i a) := by
  cases a with
  | move dst src =>
    refine determined_bind rfl (dependsOn_read (List.Subset.refl _)) fun v _ => ?_
    exact determined_write m i dst v
  | arith op dst src =>
    refine determined_bind rfl (dependsOn_read (List.subset_append_left _ _)) fun a ha => ?_
    refine determined_bind rfl (dependsOn_read (subset_onOk ha _ _)) fun b _ => ?_
    refine determined_bind rfl (dependsOn_core fun _ => BlockVM.arith i op dst.width a b) fun v _ =>
      ?_
    exact determined_write m i dst v
  | compare rel dst src =>
    refine determined_bind rfl (dependsOn_read (List.subset_append_left _ _)) fun a ha => ?_
    refine determined_bind rfl (dependsOn_read (subset_onOk ha _ _)) fun b _ => ?_
    exact determined_write m i dst _
  | fcompare rel dst a b =>
    obtain ⟨c, hwritten, hdoes⟩ := determined_write m i dst
      (truth (rel.holdsFloat (m.core.regs.float a.index) (m.core.regs.float b.index)))
    refine ⟨c, hwritten, fun m' alike agree => ?_⟩
    have done := hdoes m' alike agree
    dsimp only [perform]
    rw [alike.core]
    exact done
  | fmove dst src =>
    refine determined_bind rfl (dependsOn_readF (List.Subset.refl _)) fun bits _ => ?_
    exact determined_writeF m i dst bits
  | farith op dst src =>
    refine determined_bind rfl (dependsOn_readF (List.subset_append_left _ _)) fun a ha => ?_
    refine determined_bind rfl (dependsOn_readF (subset_onOk ha _ _)) fun b _ => ?_
    exact determined_writeF m i dst _
  | push r | pushRange r => exact determined_push m i r
  | pop r | popRange r => exact determined_pop m i r
  | nop => exact ⟨{ core := m.core }, rfl, fun m' alike _ => ⟨alike.core, rfl, rfl, rfl⟩⟩
  | service s => exact determined_service quiet

/-! ## Control transfers -/

theorem does_setPc (alike : m.Alike m') (pc : Int64) :
    m'.Does (m'.setPc pc, none) { core := { m.core with pc := pc } } := by
  refine ⟨?_, rfl, rfl, rfl⟩
  show { m'.core with pc := pc } = _
  rw [alike.core]

/-- The core after its stack pointer and its address moved. -/
def moved (c : Core) (sp pc : Int64) : Core := { c with regs := { c.regs with sp := sp }, pc := pc }

theorem does_moved (alike : m.Alike m') (sp pc : Int64) (stop : Option Stop)
    (stores : List (UInt64 × List UInt8)) :
    m'.Does (((m'.setMemory (m'.memory.storeAll stores)).setSp sp).setPc pc, stop)
      { core := moved m.core sp pc, stop := stop, stores := stores } := by
  refine ⟨?_, rfl, rfl, rfl⟩
  show moved m'.core sp pc = _
  rw [alike.core]

theorem determined_call (m : Machine) (i : Inst) :
    m.Determined reads (fun _ => m.core.stack.touched m.core.regs.sp returnSize) (·.call i) := by
  -- The return address is written in full or not at all.
  rcases m.core.stack.write_uniform m.core.regs.sp returnSize i.next.toUInt64 with
    ⟨htouched, e, hfails⟩ | ⟨addr, bs, htouched, hstores⟩
  · refine ⟨{
        core := m.core
        stop := some (accessFault .stackBounds i "pushing return address" e) },
      htouched.symm, fun m' alike _ => ?_⟩
    unfold call
    dsimp only
    rw [alike.core, hfails]
    exact does_failure alike _
  · have written : addresses [(addr, bs)] = m.core.stack.touched m.core.regs.sp returnSize := by
      rw [htouched]
      exact List.append_nil _
    refine ⟨⟨moved m.core (m.core.regs.sp + returnSize) (absolute i 0), none, [(addr, bs)]⟩,
      written, fun m' alike _ => ?_⟩
    unfold call
    dsimp only
    rw [alike.core, hstores]
    exact does_moved alike _ _ none [(addr, bs)]

/-- A return from a stack that is not empty. -/
theorem ret_of_held (held : ¬ m.core.regs.sp - returnSize < 0) (i : Inst) :
    m.ret i = match m.core.stack.read m.memory (m.core.regs.sp - returnSize) returnSize with
      | .error e => (m.setSp (m.core.regs.sp - returnSize),
          some (accessFault .stackBounds i "popping return address" e))
      | .ok v => ((m.setSp (m.core.regs.sp - returnSize)).setPc v.toInt64, none) := by
  unfold ret
  dsimp only
  rw [if_neg held]
  rfl

/-- A return reads one, if there is one above the bottom of the stack. -/
theorem determined_ret (m : Machine) (i : Inst) :
    m.Determined (if ¬ m.core.regs.sp - returnSize < 0 then
        m.core.stack.touched (m.core.regs.sp - returnSize) returnSize else [])
      (fun _ => []) (·.ret i) := by
  by_cases hempty : m.core.regs.sp - returnSize < 0
  · refine ⟨⟨moved m.core (m.core.regs.sp - returnSize) haltPc, none, []⟩, rfl, ?_⟩
    intro m' alike _
    unfold ret
    dsimp only
    rw [alike.core, if_pos hempty]
    exact does_moved alike _ _ none []
  · -- The return slot is all that is read: where it lies depends on the core alone.
    rw [if_pos hempty]
    have unfolded : ∀ m', m.Alike m' → m'.ret i =
        match m.core.stack.read m'.memory (m.core.regs.sp - returnSize) returnSize with
        | .error e => (m'.setSp (m.core.regs.sp - returnSize),
            some (accessFault .stackBounds i "popping return address" e))
        | .ok v => ((m'.setSp (m.core.regs.sp - returnSize)).setPc v.toInt64, none) := by
      intro m' alike
      rw [ret_of_held (by rwa [alike.core]), alike.core]
    cases hread : m.core.stack.read m.memory (m.core.regs.sp - returnSize) returnSize with
    | error e =>
      let regs := { m.core.regs with sp := m.core.regs.sp - returnSize }
      refine ⟨⟨{ m.core with regs := regs },
        some (accessFault .stackBounds i "popping return address" e), []⟩, rfl, ?_⟩
      intro m' alike agree
      dsimp only
      rw [unfolded m' alike, Arena.read_congr agree, hread]
      show m'.Does (m'.setRegs { m'.core.regs with sp := _ }, _) _
      rw [alike.core]
      exact does_setRegs alike regs _ []
    | ok v =>
      refine ⟨⟨moved m.core (m.core.regs.sp - returnSize) v.toInt64, none, []⟩, rfl, ?_⟩
      intro m' alike agree
      dsimp only
      rw [unfolded m' alike, Arena.read_congr agree, hread]
      exact does_moved alike _ _ none []

/-- A jump within the code. -/
theorem determined_setPc {f : Machine → Int64} (hi : i.family ≠ .ret ∧ i.family ≠ .call)
    (hf : ∀ m', m.Alike m' → f m' = f m) :
    m.Determined (m.jumpReads i) (fun _ => m.jumpWrites i) fun m => (m.setPc (f m), none) := by
  refine ⟨{ core := { m.core with pc := f m } }, (if_neg hi.2).symm, fun m' alike _ => ?_⟩
  dsimp only
  rw [hf m' alike]
  exact does_setPc alike _

theorem Alike.isTaken (h : m.Alike m') (i : Inst) : m'.isTaken i = m.isTaken i := by
  unfold Machine.isTaken
  rw [h.core]

theorem determined_jump (m : Machine) (i : Inst) :
    m.Determined (m.jumpReads i) (fun _ => m.jumpWrites i) (·.jump i) := by
  unfold jump
  split
  next hi => exact determined_setPc (by simp [hi]) fun _ _ => rfl
  next hi => exact determined_setPc (by simp [hi]) fun _ _ => rfl
  next hi => exact determined_setPc (by simp [hi]) fun _ alike => by rw [alike.isTaken]
  next hi => exact determined_setPc (by simp [hi]) fun _ alike => by rw [alike.isTaken]
  next hi =>
    unfold jumpWrites
    rw [if_pos hi]
    exact determined_call m i
  next hi =>
    have written : m.jumpWrites i = [] := if_neg (by simp [hi])
    rw [written]
    simpa [jumpReads, hi] using determined_ret m i
  next hcall hret =>
    have written : m.jumpWrites i = [] := if_neg hcall
    rw [written]
    exact ⟨{ core := m.core, stop := some _ }, rfl, fun m' alike _ => does_failure alike _⟩

def goOn (next : Machine → Machine) (r : Machine × Option Stop) : Machine × Option Stop :=
  match r with
  | (m, some e) => (m, some e)
  | (m, none) => (next m, none)

/-- Going on with something that only concerns the core. -/
theorem Determined.goOn {writes : Bool → List UInt64} {f : Machine → Machine × Option Stop}
    (h : m.Determined reads writes f) (next : Machine → Machine) (nextCore : Core → Core)
    (core : ∀ m, (next m).core = nextCore m.core) (memory : ∀ m, (next m).memory = m.memory)
    (around : ∀ m, (next m).around = m.around) :
    m.Determined reads writes fun m => Machine.goOn next (f m) := by
  obtain ⟨c, hwritten, hdoes⟩ := h
  cases hstop : c.stop with
  -- A failure stops the machine where it is, and only a success goes on to the next address.
  | some e =>
    refine ⟨c, hwritten, fun m' alike agree => ?_⟩
    have done := hdoes m' alike agree
    have failed : Machine.goOn next (f m') = f m' := by
      rw [← Prod.eta (f m'), done.stop, hstop]
      rfl
    dsimp only
    rw [failed]
    exact done
  | none =>
    refine ⟨{ c with core := nextCore c.core }, hwritten, fun m' alike agree => ?_⟩
    have done := hdoes m' alike agree
    have went : Machine.goOn next (f m') = (next (f m').1, none) := by
      rw [← Prod.eta (f m'), done.stop, hstop]
      rfl
    dsimp only
    rw [went]
    refine ⟨?_, hstop.symm, (memory _).trans done.memory, (around _).trans done.around⟩
    rw [core, done.core]

theorem determined_control (m : Machine) (i : Inst) :
    m.Determined (m.jumpReads i) (fun _ => m.jumpWrites i) (·.control i) :=
  (determined_jump m i).goOn (·.account i)
    (fun c => { c with stats := { c.stats with controls := c.stats.controls + 1 } })
    (fun _ => rfl) (fun _ => rfl) fun _ => rfl

/-! ## Dispatches -/

theorem dispatch_eq_fresh (mode : m.proc.mode = .interpret) :
    m.dispatch = m.dispatchFresh runBlock := by
  unfold dispatch dispatchWith
  rw [mode]

theorem decode_of_jump (h : m.next = .jump i) :
    Isa.decode m.proc.program.code m.core.pc = .ok i ∧ i.info.isControl = true := by
  unfold next at h
  split at h
  · cases h
  next j hdecode =>
    split at h
    next hcontrol =>
      cases h
      exact ⟨hdecode, hcontrol⟩
    · split at h <;> cases h

/-- What stands at the program counter when an action comes next. -/
theorem decode_of_act {a : Action} (h : m.next = .act i a) :
    Isa.decode m.proc.program.code m.core.pc = .ok i ∧ ¬ i.info.isControl = true ∧
      Action.ofInst i (Int64.ofNat m.proc.global.size) = .ok a := by
  unfold next at h
  split at h
  · cases h
  next j hdecode =>
    split at h
    · cases h
    next hcontrol =>
      split at h
      · cases h
      next a' haction =>
        cases h
        exact ⟨hdecode, hcontrol, haction⟩

theorem decode_of_nothing (h : m.next = .nothing) :
    (∃ e, Isa.decode m.proc.program.code m.core.pc = .error e) ∨
    ∃ i e, Isa.decode m.proc.program.code m.core.pc = .ok i ∧ ¬ i.info.isControl = true ∧
      Action.ofInst i (Int64.ofNat m.proc.global.size) = .error e := by
  unfold next at h
  split at h
  next e hdecode => exact .inl ⟨e, hdecode⟩
  next i hdecode =>
    split at h
    · cases h
    next hcontrol =>
      split at h
      next e haction => exact .inr ⟨i, e, hdecode, hcontrol, haction⟩
      · cases h

theorem dispatch_of_undecoded {e : Stop} (mode : m.proc.mode = .interpret)
    (hdecode : Isa.decode m.proc.program.code m.core.pc = .error e) : m.dispatch = (m, some e) := by
  rw [dispatch_eq_fresh mode, dispatchFresh, hdecode]

theorem dispatch_of_jump (mode : m.proc.mode = .interpret) (hnext : m.next = .jump i) :
    m.dispatch = m.control i := by
  obtain ⟨hdecode, hcontrol⟩ := decode_of_jump hnext
  rw [dispatch_eq_fresh mode, dispatchFresh, hdecode]
  exact if_pos hcontrol

/-- An instruction that is not a control transfer is counted, carried out and passed. -/
theorem dispatch_of_step (mode : m.proc.mode = .interpret)
    (hdecode : Isa.decode m.proc.program.code m.core.pc = .ok i)
    (hcontrol : ¬ i.info.isControl = true) :
    m.dispatch = goOn (·.setPc i.next) (m.countInterpreted.step i) := by
  rw [dispatch_eq_fresh mode, dispatchFresh, hdecode]
  dsimp only
  rw [if_neg hcontrol, mode]
  rfl

/-- The dispatch is then that action, and goes on behind it. -/
theorem dispatch_of_act {a : Action} (mode : m.proc.mode = .interpret) (hnext : m.next = .act i a) :
    m.dispatch = goOn (·.setPc i.next) (m.countInterpreted.perform i a) := by
  obtain ⟨hdecode, hcontrol, haction⟩ := decode_of_act hnext
  have step : m.countInterpreted.step i = m.countInterpreted.perform i a := by
    unfold step
    rw [show Action.ofInst i (Int64.ofNat m.countInterpreted.proc.global.size) = .ok a from haction]
  rw [dispatch_of_step mode hdecode hcontrol, step]

theorem Alike.countInterpreted (h : m.Alike m') : m.countInterpreted.Alike m'.countInterpreted := by
  refine ⟨?_, h.around⟩
  unfold Machine.countInterpreted count
  dsimp only
  rw [h.core]

/-- A core that does nothing leaves its process as it is. -/
theorem dispatch_of_nothing (mode : m.proc.mode = .interpret) (hnext : m.next = .nothing) :
    ∃ core e, ∀ m', m.Alike m' → m'.dispatch = (⟨core, m'.proc⟩, some e) := by
  rcases decode_of_nothing hnext with ⟨e, hdecode⟩ | ⟨i, e, hdecode, hcontrol, haction⟩
  · refine ⟨m.core, e, fun m' alike => ?_⟩
    rw [← alike.program, ← alike.core] at hdecode
    rw [dispatch_of_undecoded (alike.mode.trans mode) hdecode, ← alike.core]
  · refine ⟨m.countInterpreted.core, e, fun m' alike => ?_⟩
    rw [← alike.program, ← alike.core] at hdecode
    rw [← alike.global] at haction
    have step : m'.countInterpreted.step i = (m'.countInterpreted, some e) := by
      unfold step
      rw [show Action.ofInst i (Int64.ofNat m'.countInterpreted.proc.global.size) = .error e
        from haction]
    rw [dispatch_of_step (alike.mode.trans mode) hdecode hcontrol, step,
      ← alike.countInterpreted.core]
    rfl

/-- All machines like this one that agree with it on what it reads do the same deed, and they store
the bytes in `writes`. -/
theorem dispatch_does (mode : m.proc.mode = .interpret) (quiet : m.isQuiet = true) :
    ∃ c : Deed, addresses c.stores = m.writes ∧
      ∀ m', m.Alike m' → m.AgreesOn m.reads m' → m'.Does m'.dispatch c := by
  unfold isQuiet at quiet
  unfold Machine.reads writes
  cases hnext : m.next with
  | nothing =>
    obtain ⟨core, e, failed⟩ := dispatch_of_nothing mode hnext
    refine ⟨{ core := core, stop := some e }, rfl, fun m' alike _ => ?_⟩
    rw [failed m' alike]
    exact ⟨rfl, rfl, rfl, rfl⟩
  | jump i =>
    obtain ⟨c, hwritten, hdoes⟩ := determined_control m i
    refine ⟨c, hwritten, fun m' alike agree => ?_⟩
    rw [dispatch_of_jump (alike.mode.trans mode) (alike.next.trans hnext)]
    exact hdoes m' alike agree
  | act i a =>
    rw [hnext] at quiet
    -- The statistics of the core take no part in what the action reads and writes.
    have performed : m.countInterpreted.Determined (m.actionReads i a) (m.actionWrites a)
        fun m => goOn (·.setPc i.next) (m.perform i a) :=
      (determined_perform (m := m.countInterpreted) quiet).goOn (·.setPc i.next)
        (fun c => { c with pc := i.next }) (fun _ => rfl) (fun _ => rfl) fun _ => rfl
    obtain ⟨c, hwritten, hdoes⟩ := performed
    have done : ∀ m', m.Alike m' → m.AgreesOn (m.actionReads i a) m' → m'.Does m'.dispatch c := by
      intro m' alike agree
      rw [dispatch_of_act (alike.mode.trans mode) (alike.next.trans hnext)]
      have done := hdoes m'.countInterpreted alike.countInterpreted agree
      exact ⟨done.core, done.stop, done.memory, done.around⟩
    refine ⟨c, ?_, done⟩
    rw [(done m (.refl m) (.refl m _)).stop]
    exact hwritten

/-! ## The footprint is the same for machines that are alike -/

/-- Two operands, of which the second is read once the first one was. -/
theorem both_congr {x : Machine → Except Stop α} {o o' : Operand} (alike : m.Alike m')
    (hx : m.DependsOn (m.place o ++ onOk (x m) (m.place o')) x)
    (agree : m.AgreesOn (m.place o ++ onOk (x m) (m.place o')) m') :
    m'.place o ++ onOk (x m') (m'.place o') = m.place o ++ onOk (x m) (m.place o') := by
  rw [alike.place, alike.place, hx m' alike agree]

/-- What an action reads is read off what it reads: the addresses depend on registers and on the
bytes at those addresses. -/
theorem actionReads_congr {a : Action} (alike : m.Alike m')
    (agree : m.AgreesOn (m.actionReads i a) m') : m'.actionReads i a = m.actionReads i a := by
  cases a with
  | move dst src | fmove dst src => exact alike.place src
  | arith op dst src | compare rel dst src =>
    exact both_congr alike (dependsOn_read (List.subset_append_left _ _)) agree
  | farith op dst src =>
    exact both_congr alike (dependsOn_readF (List.subset_append_left _ _)) agree
  | pop r | popRange r =>
    show m'.touchedRange r (m'.core.regs.sp - _) = m.touchedRange r (m.core.regs.sp - _)
    rw [alike.touchedRange, alike.core]
  | service s =>
    cases s with
    | output port value width | foutput port value =>
      exact both_congr alike (dependsOn_port (List.subset_append_left _ _)) agree
    | input dst port width | finput dst port => exact alike.place port
    | draw x y image =>
      cases image with
      | global off w float =>
        show m'.proc.global.touched _ _ = _
        rw [alike.global]
        rfl
      | reg | freg | pointer | imm | fimm => rfl
    | time | sleep | rand => rfl
  | fcompare | push | pushRange | nop => rfl

theorem actionWrites_congr (alike : m.Alike m') (a : Action) (done : Bool) :
    m'.actionWrites a done = m.actionWrites a done := by
  have places : ∀ o, (if done then m'.place o else []) = if done then m.place o else [] :=
    fun o => by rw [alike.place]
  cases a with
  | move dst | arith _ dst | compare _ dst | fcompare _ dst | fmove dst | farith _ dst =>
    exact places dst
  | push r | pushRange r =>
    show m'.touchedRange r m'.core.regs.sp = m.touchedRange r m.core.regs.sp
    rw [alike.touchedRange, alike.core]
  | service s =>
    cases s with
    | input dst | finput dst => exact places dst
    | output | foutput | draw | time | sleep | rand => rfl
  | pop | popRange | nop => rfl

theorem isQuietAction_congr {a : Action} (alike : m.Alike m')
    (agree : m.AgreesOn (m.actionReads i a) m') : m'.isQuietAction i a = m.isQuietAction i a := by
  cases a with
  | service s =>
    cases s with
    | output port value width =>
      have hport : m'.port i port = m.port i port :=
        dependsOn_port (List.subset_append_left _ _) m' alike agree
      unfold isQuietAction isServed
      dsimp only
      rw [hport, alike.core]
    | input | foutput | finput | draw | time | sleep | rand => rfl
  | move | arith | compare | fcompare | fmove | farith | push | pushRange | pop | popRange | nop =>
      rfl

theorem reads_congr (alike : m.Alike m') (agree : m.AgreesOn m.reads m') : m'.reads = m.reads := by
  unfold Machine.reads at agree ⊢
  rw [alike.next]
  cases hnext : m.next with
  | nothing => rfl
  | jump i =>
    dsimp only
    unfold jumpReads
    rw [alike.core]
  | act i a =>
    rw [hnext] at agree
    exact actionReads_congr alike agree

/-- Whether a dispatch is quiet depends on the same bytes. -/
theorem isQuiet_congr (alike : m.Alike m') (agree : m.AgreesOn m.reads m') :
    m'.isQuiet = m.isQuiet := by
  unfold Machine.reads at agree
  unfold isQuiet
  rw [alike.next]
  cases hnext : m.next with
  | nothing | jump i => rfl
  | act i a =>
    rw [hnext] at agree
    exact isQuietAction_congr alike agree

theorem writes_congr (mode : m.proc.mode = .interpret) (quiet : m.isQuiet = true)
    (alike : m.Alike m') (agree : m.AgreesOn m.reads m') : m'.writes = m.writes := by
  obtain ⟨c, -, hdoes⟩ := dispatch_does mode quiet
  unfold writes
  rw [alike.next, (hdoes m' alike agree).stop, (hdoes m (.refl m) (.refl m _)).stop]
  cases m.next with
  | nothing => rfl
  | jump i =>
    dsimp only
    unfold jumpWrites
    rw [alike.core]
  | act i a => exact actionWrites_congr alike a _

end Machine

end BlockVM
