import BlockVM.Proofs.Machine.Dispatch
import BlockVM.Proofs.Memory.Access
import BlockVM.Proofs.Memory.Words

/-!
# The footprint of a dispatch

`Machine.reads` and `Machine.writes` are the addresses of the bytes that the next dispatch of a core
reads and writes: those of its memory operands, of the stack slots that it pushes or pops and of
return addresses, as far as the instruction gets. `Machine.isQuiet` excludes what asks the host: the
clock, the random numbers, the graphics device and the handlers of ports.

A `Deed` is what a dispatch does, told without the memory that it starts from. Two memories agree on
the bytes that a deed stores, and wherever they agreed before (`load_storeAll_congr`); elsewhere
they are left alone (`load_storeAll_of_not_mem`).
-/

namespace BlockVM

open Isa (Inst)

/-- The addresses of `n` bytes. -/
def span (a : UInt64) (n : Nat) : List UInt64 := (List.range n).map fun k => a + UInt64.ofNat k

/-- The bytes that an access touches; a refused access touches none. -/
def Arena.touched (a : Arena) (off n : Int64) : List UInt64 :=
  match a.locate off n with
  | .error _ => []
  | .ok addr => if isWidth n then span addr n.toNatClampNeg else []

def onOk {α : Type} (r : Except Stop α) (l : List UInt64) : List UInt64 :=
  match r with
  | .error _ => []
  | .ok _ => l

/-- What a core is about to do. -/
inductive Next where
  /-- It will fail before it does anything. -/
  | nothing
  | jump (i : Inst)
  | act (i : Inst) (a : Action)

namespace Machine

def next (m : Machine) : Next :=
  match Isa.decode m.proc.program.code m.core.pc with
  | .error _ => .nothing
  | .ok i =>
    if i.info.isControl then .jump i
    else match Action.ofInst i (Int64.ofNat m.proc.global.size) with
      | .error _ => .nothing
      | .ok a => .act i a

/-! ## Bytes -/

/-- The bytes that an operand stands for. -/
def place (m : Machine) (o : Operand) : List UInt64 :=
  match o with
  | .global off w _ => m.proc.global.touched off.toInt64 (Int64.ofNat w.bytes)
  | .pointer r w _ =>
    match m.proc.space.resolve (m.core.regs.int r) (Int64.ofNat w.bytes) with
    | .error _ => []
    | .ok (a, off) => a.touched off (Int64.ofNat w.bytes)
  | .reg _ | .freg _ | .imm _ | .fimm _ => []

def touchedSlots (stack : Arena) (float : Bool) : Nat → Int64 → List UInt64
  | 0, _ => []
  | n + 1, off =>
    stack.touched off (slotSize float) ++
      onOk (stack.locate off (slotSize float)) (touchedSlots stack float n (off + slotSize float))

/-- The bytes of a range of registers on the stack, if the stack has them all. -/
def touchedRange (m : Machine) (r : RegRange) (sp : Int64) : List UInt64 :=
  if m.core.stack.inBounds sp (Int64.ofNat r.bytes) then
    touchedSlots m.core.stack r.float r.count sp
  else []

/-- The bytes that an action reads. An operand after a faulty one is not read. -/
def actionReads (m : Machine) (i : Inst) (a : Action) : List UInt64 :=
  match a with
  | .move _ src | .fmove _ src => m.place src
  | .arith _ dst src | .compare _ dst src => m.place dst ++ onOk (m.read i dst) (m.place src)
  | .farith _ dst src => m.place dst ++ onOk (m.readF i dst) (m.place src)
  | .pop r | .popRange r => m.touchedRange r (m.core.regs.sp - Int64.ofNat r.bytes)
  | .service (.output port value _) | .service (.foutput port value) =>
    m.place port ++ onOk (m.port i port) (m.place value)
  | .service (.input _ port _) | .service (.finput _ port) => m.place port
  | .service (.draw _ _ (.global off _ _)) => m.proc.global.touched off.toInt64 8
  | .fcompare .. | .push _ | .pushRange _ | .nop | .service _ => []

/-- The bytes that an action writes; `done` says whether it succeeds. Only pushes write before they
are known to succeed. -/
def actionWrites (m : Machine) (a : Action) (done : Bool) : List UInt64 :=
  match a with
  | .move dst _ | .arith _ dst _ | .compare _ dst _ | .fcompare _ dst _ _ | .fmove dst _
  | .farith _ dst _ | .service (.input dst _ _) | .service (.finput dst _) =>
    if done then m.place dst else []
  | .push r | .pushRange r => m.touchedRange r m.core.regs.sp
  | .pop _ | .popRange _ | .nop | .service _ => []

/-- The bytes that a control transfer reads: a return address. -/
def jumpReads (m : Machine) (i : Inst) : List UInt64 :=
  let sp := m.core.regs.sp - returnSize
  if i.family = .ret ∧ ¬ sp < 0 then m.core.stack.touched sp returnSize else []

/-- The bytes that a control transfer writes: a return address. -/
def jumpWrites (m : Machine) (i : Inst) : List UInt64 :=
  if i.family = .call then m.core.stack.touched m.core.regs.sp returnSize else []

def reads (m : Machine) : List UInt64 :=
  match m.next with
  | .nothing => []
  | .jump i => m.jumpReads i
  | .act i a => m.actionReads i a

def writes (m : Machine) : List UInt64 :=
  match m.next with
  | .nothing => []
  | .jump i => m.jumpWrites i
  | .act _ a => m.actionWrites a m.dispatch.2.isNone

/-! ## Quiet instructions -/

/-- Whether a port passes what is written to it on to the host. -/
def isServed (m : Machine) (port : UInt32) : Bool :=
  match m.core.ports.handler port with
  | some (.call _) => true
  | some .latch | none => false

def isQuietAction (m : Machine) (i : Inst) (a : Action) : Bool :=
  match a with
  | .service (.output port _ _) =>
    match m.port i port with
    | .error _ => true
    | .ok p => !m.isServed p
  | .service (.draw ..) | .service .time | .service .sleep | .service .rand => false
  | _ => true

/-- Whether the next dispatch does not ask the host. -/
def isQuiet (m : Machine) : Bool :=
  match m.next with
  | .nothing | .jump _ => true
  | .act i a => m.isQuietAction i a

end Machine

/-! ## Deeds -/

def Memory.storeAll (m : Memory) (stores : List (UInt64 × List UInt8)) : Memory :=
  stores.foldl (fun m s => m.storeBytes s.1 s.2) m

def addresses (stores : List (UInt64 × List UInt8)) : List UInt64 :=
  stores.flatMap fun s => span s.1 s.2.length

/-- What a dispatch does: the core that it leaves, its failure, and what it stores. -/
structure Deed where
  core : Core
  stop : Option Stop := none
  stores : List (UInt64 × List UInt8) := []

/-- What a quiet dispatch sees of its process besides memory. It does not change. -/
structure Around where
  program : Program
  mode : Mode
  space : Space
  global : Arena

namespace Machine

def around (m : Machine) : Around := ⟨m.proc.program, m.proc.mode, m.proc.space, m.proc.global⟩

/-- The other machine has the same core in the same surroundings. -/
structure Alike (m m' : Machine) : Prop where
  core : m'.core = m.core
  around : m'.around = m.around

/-- The memories hold the same bytes at some addresses. -/
def AgreesOn (m : Machine) (l : List UInt64) (m' : Machine) : Prop :=
  ∀ x ∈ l, m'.memory.load x = m.memory.load x

/-- The result of the machine is a deed. -/
structure Does (m : Machine) (r : Machine × Option Stop) (c : Deed) : Prop where
  core : r.1.core = c.core
  stop : r.2 = c.stop
  memory : r.1.memory = m.memory.storeAll c.stores
  around : r.1.around = m.around

/-- Machines like this one that agree with it on the bytes in `reads` all do the same deed, and
`writes` tells which bytes it stores if it succeeds and if it does not. -/
def Determined (m : Machine) (reads : List UInt64) (writes : Bool → List UInt64)
    (f : Machine → Machine × Option Stop) : Prop :=
  ∃ c : Deed, addresses c.stores = writes c.stop.isNone ∧
    ∀ m', m.Alike m' → m.AgreesOn reads m' → m'.Does (f m') c

/-- A value that is the same for machines like this one that agree with it on some bytes. -/
def DependsOn {α : Type} (m : Machine) (reads : List UInt64) (x : Machine → α) : Prop :=
  ∀ m', m.Alike m' → m.AgreesOn reads m' → x m' = x m

end Machine

/-! ## Stores and loads -/

theorem mem_span {x a : UInt64} {n : Nat} : x ∈ span a n ↔ ∃ k < n, a + UInt64.ofNat k = x := by
  simp [span]

/-- A span is its first address and the span behind it. -/
theorem span_succ (a : UInt64) (n : Nat) : span a (n + 1) = a :: span (a + 1) n := by
  unfold span
  rw [List.range_succ_eq_map, List.map_cons, List.map_map]
  congr 1
  · exact UInt64.add_zero a
  · refine List.map_congr_left fun k _ => ?_
    show a + UInt64.ofNat (k + 1) = a + 1 + UInt64.ofNat k
    rw [Nat.add_comm, UInt64.ofNat_add, ← UInt64.add_assoc]
    rfl

namespace Memory

variable {m m' : Memory} {a x : UInt64}

theorem load_storeBytes_of_not_mem {bs : List UInt8} (h : x ∉ span a bs.length) :
    (m.storeBytes a bs).load x = m.load x :=
  m.load_storeBytes_of_ne fun k hk heq => h (mem_span.mpr ⟨k, hk, heq⟩)

/-- Two memories agree on what was just stored in both, and wherever they agreed before. -/
theorem load_storeBytes_congr {bs : List UInt8}
    (h : x ∈ span a bs.length ∨ m'.load x = m.load x) :
    (m'.storeBytes a bs).load x = (m.storeBytes a bs).load x := by
  induction bs generalizing m m' a with
  | nil => exact h.resolve_left List.not_mem_nil
  | cons b bs ih =>
    apply ih
    rw [load_store, load_store]
    split
    · exact .inr rfl
    next hne =>
      rw [List.length_cons, span_succ, List.mem_cons] at h
      exact h.imp_left fun hmem => hmem.resolve_left fun heq => hne heq.symm

theorem loadBytes_congr {n : Nat} (h : ∀ x ∈ span a n, m'.load x = m.load x) :
    m'.loadBytes a n = m.loadBytes a n := by
  induction n generalizing a with
  | zero => rfl
  | succ n ih =>
    rw [span_succ, List.forall_mem_cons] at h
    rw [loadBytes, loadBytes, h.1, ih h.2]

/-- Stores leave all other bytes alone. -/
theorem load_storeAll_of_not_mem {stores : List (UInt64 × List UInt8)} (h : x ∉ addresses stores) :
    (m.storeAll stores).load x = m.load x := by
  induction stores generalizing m with
  | nil => rfl
  | cons s stores ih =>
    rw [addresses, List.flatMap_cons, List.mem_append, not_or] at h
    rw [storeAll, List.foldl_cons]
    exact (ih h.2).trans (load_storeBytes_of_not_mem h.1)

/-- Two memories agree on what was stored in both, and wherever they agreed before. -/
theorem load_storeAll_congr {stores : List (UInt64 × List UInt8)}
    (h : x ∈ addresses stores ∨ m'.load x = m.load x) :
    (m'.storeAll stores).load x = (m.storeAll stores).load x := by
  induction stores generalizing m m' with
  | nil => exact h.resolve_left List.not_mem_nil
  | cons s stores ih =>
    rw [addresses, List.flatMap_cons, List.mem_append] at h
    apply ih
    rcases h with (hfirst | hrest) | hagree
    · exact .inr (load_storeBytes_congr (.inl hfirst))
    · exact .inl hrest
    · exact .inr (load_storeBytes_congr (.inr hagree))

end Memory

namespace Arena

variable {a : Arena} {off n : Int64}

theorem touched_of_refused {e : Stop} (hloc : a.locate off n = .error e) :
    a.touched off n = [] := by
  unfold touched
  rw [hloc]

/-- An access that is located touches the bytes of its width. -/
theorem touched_of_located {addr : UInt64} (hloc : a.locate off n = .ok addr)
    (hwidth : isWidth n = true) : a.touched off n = span addr n.toNatClampNeg := by
  unfold touched
  rw [hloc]
  exact if_pos hwidth

/-- A load depends on the bytes that it touches. -/
theorem read_congr {m m' : Memory} (h : ∀ x ∈ a.touched off n, m'.load x = m.load x) :
    a.read m' off n = a.read m off n := by
  cases hloc : a.locate off n with
  | error e => rw [read_of_refused hloc, read_of_refused hloc]
  | ok addr =>
    rw [read_of_located hloc, read_of_located hloc]
    split
    next hwidth =>
      rw [touched_of_located hloc hwidth] at h
      rw [Memory.word, Memory.word, Memory.loadBytes_congr h]
    · rfl

/-- A store fails in every memory, or it stores the same bytes in every memory: at the addresses
that it touches. -/
theorem write_uniform (a : Arena) (off n : Int64) (v : UInt64) :
    (a.touched off n = [] ∧ ∃ e, ∀ m, a.write m off n v = .error e) ∨
    ∃ addr bs, a.touched off n = span addr bs.length ∧
      ∀ m, a.write m off n v = .ok (m.storeBytes addr bs) := by
  cases hloc : a.locate off n with
  | error e => exact .inl ⟨touched_of_refused hloc, e, fun m => write_of_refused hloc m v⟩
  | ok addr =>
    by_cases hwidth : isWidth n = true
    · refine .inr ⟨addr, LittleEndian.bytes n.toNatClampNeg v.toNat, ?_, fun m => ?_⟩
      · rw [touched_of_located hloc hwidth, LittleEndian.length_bytes]
      · rw [write_of_located hloc, if_pos hwidth]
        rfl
    · refine .inl ⟨?_, badWidth n, fun m => ?_⟩
      · unfold touched
        rw [hloc]
        exact if_neg hwidth
      · rw [write_of_located hloc, if_neg hwidth]

end Arena

end BlockVM
