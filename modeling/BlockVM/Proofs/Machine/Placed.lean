import BlockVM.Proofs.Block.Layout
import BlockVM.Proofs.Machine.Simulation

/-!
# Machine code at its place

An item that uses a float constant reaches it by a displacement, so what its instruction does
depends on where it stands. `effects` says what items do without their places: a constant is used as
if it stood in the instruction. `steps_effects` says that the machine code of the items does this
wherever it is placed, if the constants stand where the displacements lead.
-/

namespace BlockVM

open Isa (window)
open LittleEndian (ofUInt32)
open X86 (ByteMemory Steps encodeAll)

namespace Item

/-- The item has an encoding and goes on to the next one, wherever its constant is. -/
def Flows : Item → Prop
  | inst i => i.Valid ∧ i.isStraight = true
  | token _ => False
  | loadConst x _ => x.num < 16
  | opConst op x _ => op ∈ X86.SseOp.all ∧ x.num < 16

theorem Straight.flows {i : Item} (h : i.Straight) : i.Flows := by
  cases i with
  | inst => exact h
  | token | loadConst | opConst => cases h

theorem Flows.valid {i : Item} (h : i.Flows) (off const : Nat) : (i.resolve off const).Valid := by
  cases i with
  | inst => exact h.1
  | token => cases h
  | loadConst => exact ⟨h, trivial⟩
  | opConst => exact ⟨h.1, h.2, trivial⟩

section
variable {μ : Type} [ByteMemory μ]

def effect (i : Item) (s : X86.State μ) : Option (X86.State μ) :=
  match i with
  | inst i => X86.exec i s
  | token _ => none
  | loadConst x bits => some (s.setLane x bits)
  | opConst op x bits => (op.apply (s.cpu.lane x) bits).map (s.setLane x)

/-- What an item does depends on the registers and on memory, not on where it is. -/
theorem effect_goto {i : Item} (h : i.Flows) (s : X86.State μ) (a : UInt64) :
    i.effect (s.goto a) = (i.effect s).map (·.goto a) := by
  cases i with
  | inst => exact X86.exec_goto h.2 s a
  | token => cases h
  | loadConst => rfl
  | opConst op x bits =>
    show (op.apply (s.cpu.lane x) bits).map _ = ((op.apply (s.cpu.lane x) bits).map _).map _
    cases op.apply (s.cpu.lane x) bits <;> rfl

omit [ByteMemory μ] in
/-- The displacement of a constant leads to it. -/
theorem address_relative (s : X86.State μ) (base : UInt64) {stop const : Nat} (h : stop ≤ const)
    (reach : const < 2 ^ 31) :
    (s.goto (base + UInt64.ofNat stop)).cpu.address (.relative (Int32.ofNat (const - stop)))
      = base + UInt64.ofNat const := by
  show base + UInt64.ofNat stop + (Int32.ofNat (const - stop)).toInt64.toUInt64 = _
  rw [Native.toUInt64_offset (by omega), UInt64.add_assoc, ← UInt64.ofNat_add,
    Nat.add_sub_cancel' h]

/-- An instruction at its place does what its item does. -/
theorem exec_resolve {i : Item} (flows : i.Flows) {s s' : X86.State μ} (h : i.effect s = some s')
    {base : UInt64} {off const : Nat} (behind : off + i.size ≤ const) (reach : const < 2 ^ 31)
    (hconst : ∀ bits, i.constant? = some bits →
      X86.loadWord s.mem 4 (base + UInt64.ofNat const) = some bits.toUInt64) :
    X86.exec (i.resolve off const) (s.goto (base + UInt64.ofNat (off + i.size)))
      = some (s'.goto (base + UInt64.ofNat (off + i.size))) := by
  -- A constant is reached relative to the end of the instruction that reads it.
  have address := address_relative s base behind reach
  cases i with
  | inst i =>
    show X86.exec i _ = _
    rw [X86.exec_goto flows.2, show X86.exec i s = some s' from h]
    rfl
  | token => cases flows
  | loadConst x bits =>
    cases h
    show ((X86.loadWord s.mem 4 (X86.Cpu.address _ _)).bind _) = _
    rw [address, hconst bits rfl, Option.bind_some, UInt32.toUInt32_toUInt64]
    rfl
  | opConst op x bits =>
    obtain ⟨v, hv, rfl⟩ := Option.map_eq_some_iff.mp h
    show ((X86.loadWord s.mem 4 (X86.Cpu.address _ _)).bind _) = _
    rw [address, hconst bits rfl, Option.bind_some, UInt32.toUInt32_toUInt64]
    show (op.apply (s.cpu.lane x) bits).bind _ = _
    rw [hv]
    rfl

end

end Item

namespace Layout

section
variable {μ : Type} [ByteMemory μ]

def effects : List Item → X86.State μ → Option (X86.State μ)
  | [], s => some s
  | i :: rest, s => (i.effect s).bind (effects rest)

theorem effects_append (xs ys : List Item) (s : X86.State μ) :
    effects (xs ++ ys) s = (effects xs s).bind (effects ys) := by
  induction xs generalizing s with
  | nil => rfl
  | cons i xs ih =>
    rw [List.cons_append, effects, effects]
    cases i.effect s with
    | none => rfl
    | some s => exact ih s

theorem valid_resolve {items : List Item} (h : ∀ it ∈ items, it.Flows) (off const : Nat) :
    ∀ i ∈ resolve off const items, i.Valid := by
  induction items generalizing off const with
  | nil => exact List.forall_mem_nil _
  | cons i rest ih =>
    obtain ⟨first, others⟩ := List.forall_mem_cons.mp h
    exact List.forall_mem_cons.mpr ⟨first.valid off const, ih others _ _⟩

theorem effects_goto {items : List Item} (h : ∀ it ∈ items, it.Flows) (s : X86.State μ)
    (a : UInt64) : effects items (s.goto a) = (effects items s).map (·.goto a) := by
  induction items generalizing s with
  | nil => rfl
  | cons i rest ih =>
    obtain ⟨first, others⟩ := List.forall_mem_cons.mp h
    rw [effects, effects, Item.effect_goto first]
    cases i.effect s with
    | none => rfl
    | some s => exact ih others s

/-- On straight code the effects are those of its instructions. -/
theorem effects_of_straight {items : List Item} (h : ∀ it ∈ items, it.Straight) (s : X86.State μ) :
    effects items s = X86.execAll (insts items) s := by
  induction items generalizing s with
  | nil => rfl
  | cons it rest ih =>
    obtain ⟨first, others⟩ := List.forall_mem_cons.mp h
    cases it with
    | inst i =>
      rw [insts_cons, effects, X86.execAll]
      show (X86.exec i s).bind _ = _
      congr 1
      exact funext fun s => ih others s
    | token | loadConst | opConst => cases first

end

end Layout

namespace X86

variable {μ : Type} [ByteMemory μ]

theorem loadBytes_of_holds {m : μ} {a : UInt64} {bs : List UInt8} (h : Holds m a bs) :
    loadBytes m bs.length a = some bs := by
  induction bs generalizing a with
  | nil => rfl
  | cons b bs ih =>
    obtain ⟨hb, h⟩ := h
    rw [List.length_cons, loadBytes, hb, ih h]
    rfl

end X86

namespace Native

open Layout (effects Sits)

/-- The machine code of the site can be run: displacements reach all of it, it does not overlap the
register file, and control returns to a place outside. -/
structure Site.Runnable (x : Site) : Prop where
  short : x.code.size < 2 ^ 31
  apart : (x.place.codeRegion x.code.size).Disjoint x.place.fileRegion
  away : (x.place.codeRegion x.code.size).has x.place.returnAddress = false

/-- A site that hosts a core can run its code if that is short enough for displacements. -/
theorem Site.Hosts.runnable {x : Site} {m : Machine} (hosts : x.Hosts m)
    (short : x.code.size < 2 ^ 31) : x.Runnable :=
  ⟨short, hosts.apart.code_file, hosts.away⟩

def Site.at (x : Site) (off : Nat) : UInt64 := x.place.code + UInt64.ofNat off

variable {x : Site} {s s' : X86.State View} {off const : Nat}

/-- A float constant in the machine code. -/
theorem loadWord_constant (runnable : x.Runnable) {v : View} (keeps : x.Keeps v) {pos : Nat}
    {bits : UInt32} (h : window x.code pos 4 = ofUInt32 bits) :
    X86.loadWord v 4 (x.at pos) = some bits.toUInt64 := by
  obtain ⟨hcode, hplace⟩ := keeps
  have hshort := runnable.short
  have holds : X86.Holds v x.place.code x.code.toList := by
    have := View.holds_code (v := v) (by rw [hcode, hplace]; exact runnable.apart)
      (by rw [hcode]; omega)
    rwa [hcode, hplace] at this
  have hwindow : (x.code.toList.drop pos).take 4 = ofUInt32 bits := by
    rw [← h, window, Array.toList_extract, List.extract_eq_take_drop, Nat.add_sub_cancel_left]
  -- The constant lies inside the code, so the cut before it has the expected length.
  have hpos : (x.code.toList.take pos).length = pos := by
    have := congrArg List.length hwindow
    rw [List.length_take, List.length_drop, ofUInt32, LittleEndian.length_bytes] at this
    rw [List.length_take]
    omega
  rw [← List.take_append_drop pos x.code.toList] at holds
  have rest := holds.append.2
  rw [hpos, ← List.take_append_drop 4 (x.code.toList.drop pos), hwindow] at rest
  have hbytes := X86.loadBytes_of_holds rest.append.1
  rw [ofUInt32, LittleEndian.length_bytes] at hbytes
  rw [X86.loadWord, Site.at, hbytes, Option.map_some, LittleEndian.toUInt64,
    LittleEndian.value_bytes, Nat.mod_eq_of_lt bits.toNat_lt]
  exact congrArg some (UInt64.toNat_inj.mp (UInt64.toNat_ofNat_of_lt' (by
    show bits.toNat < 2 ^ 64
    have := bits.toNat_lt
    omega)))

/-- One item at its place. -/
theorem step_item {i : Item} (runnable : x.Runnable) (flows : i.Flows)
    (sits : Sits x.code off const [i]) (keeps : x.Keeps s.mem) (hrip : s.cpu.rip = x.at off)
    (h : i.effect s = some s') :
    s.cpu.rip ≠ x.place.returnAddress ∧ X86.step s = some (s'.goto (x.at (off + i.size))) ∧
      x.Keeps s'.mem := by
  obtain ⟨⟨pre, post, rfl, hcode⟩, stored, behind, inside⟩ := sits
  have hshort := runnable.short
  rw [Layout.constants_cons] at stored inside
  rw [Layout.sizeOf_cons] at behind
  -- The item is executed at the address behind it, as the processor does.
  have hexec : X86.exec (i.resolve pre.length const) (s.goto (x.at (pre.length + i.size)))
      = some (s'.goto (x.at (pre.length + i.size))) := by
    refine Item.exec_resolve flows h (by omega) (by omega) fun bits hbits => ?_
    rw [hbits] at stored
    exact loadWord_constant runnable keeps stored.1
  have l : X86.Loaded x.Keeps (x.at pre.length) x.place.returnAddress
      ([] ++ [i.resolve pre.length const]) :=
    View.loaded_within hcode (List.forall_mem_singleton.mpr (flows.valid _ _)) (by omega)
      runnable.apart runnable.away
  have hstart : X86.behind (x.at pre.length) [] = x.at pre.length := by
    rw [X86.behind, show encodeAll [] = [] from rfl, List.length_nil]
    exact UInt64.add_zero _
  have hstop : X86.behind (x.at pre.length) ([] ++ [i.resolve pre.length const])
      = x.at (pre.length + i.size) := by
    rw [List.nil_append, X86.behind, X86.encodeAll_singleton, Site.at, Site.at, UInt64.ofNat_add,
      ← UInt64.add_assoc,
      show (i.resolve pre.length const).encode.length = i.size from i.length_resolve _ _]
  exact l.step_exec keeps (hrip.trans hstart.symm) (by rw [hstop]; exact hexec)

/-- The machine code of items does what the items do. -/
theorem steps_effects {items : List Item} (runnable : x.Runnable) (flows : ∀ it ∈ items, it.Flows)
    (sits : Sits x.code off const items) (keeps : x.Keeps s.mem) (hrip : s.cpu.rip = x.at off)
    (h : effects items s = some s') :
    Steps x.place.returnAddress items.length s (s'.goto (x.at (off + Layout.sizeOf items))) ∧
      x.Keeps s'.mem := by
  induction items generalizing off const s s' with
  | nil =>
    cases h
    rw [show off + Layout.sizeOf [] = off from rfl, ← hrip]
    exact ⟨.refl _, keeps⟩
  | cons i rest ih =>
    obtain ⟨hi, hrest⟩ := List.forall_mem_cons.mp flows
    obtain ⟨here, later⟩ := sits.cons
    obtain ⟨s₁, first, h⟩ := Option.bind_eq_some_iff.mp h
    obtain ⟨hne, hstep, keeps₁⟩ := step_item runnable hi here keeps hrip first
    -- What the rest does does not depend on where control stands.
    have hrest' : effects rest (s₁.goto (x.at (off + i.size)))
        = some (s'.goto (x.at (off + i.size))) := by
      rw [Layout.effects_goto hrest, h]
      rfl
    obtain ⟨hsteps, keeps'⟩ :=
      ih (s := s₁.goto (x.at (off + i.size))) hrest later keeps₁ rfl hrest'
    rw [List.length_cons, Layout.sizeOf_cons, ← Nat.add_assoc]
    exact ⟨.next hne hstep hsteps, keeps'⟩

end Native

end BlockVM
