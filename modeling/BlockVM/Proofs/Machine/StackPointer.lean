import BlockVM.Proofs.Machine.Cores
import BlockVM.Proofs.Machine.Reserved

/-!
# The stack pointer

No single check keeps the stack pointer on the stack: a push looks at the end of the stack, a pop
and a return look below zero, and each is exact only because the pointer was on a slot before.
`stack_pointer_stays_on_slots` says that it always is, whatever a core interprets, and that
therefore the checks behind the first one never fail and no access leaves the stack. The one
exception is a core that has halted: its stack pointer is -4.
-/

namespace BlockVM

open Isa (Inst)

namespace Machine

/-! ## The stack pointer -/

/-- The stack pointer is an offset of a slot of the stack, or the end of the stack. -/
structure OnSlot (m : Machine) : Prop where
  nonneg : 0 ≤ m.core.regs.sp.toInt
  le_size : m.core.regs.sp.toInt ≤ m.core.stack.size
  aligned : 4 ∣ m.core.regs.sp.toInt

theorem toInt_ofNat_short {n : Nat} (h : n ≤ 2048) : (Int64.ofNat n).toInt = n :=
  Int64.toInt_ofNat_of_lt (by omega)

theorem OnSlot.grow {m : Machine} {n : Nat} (h : m.OnSlot) (small : m.core.stack.size < 2 ^ 32)
    (short : n ≤ 2048) (slots : 4 ∣ n)
    (room : m.core.stack.inBounds m.core.regs.sp (Int64.ofNat n) = true) :
    (m.setSp (m.core.regs.sp + Int64.ofNat n)).OnSlot := by
  have hn := toInt_ofNat_short short
  have hlo := h.nonneg
  have hhi := h.le_size
  have hin := (Arena.inBounds_iff (by omega) (by omega)).mp room
  have hadd : (m.core.regs.sp + Int64.ofNat n).toInt = m.core.regs.sp.toInt + n := by
    rw [toInt_add_of_bounds (by omega) (by omega), hn]
  have hstop := hin.stop
  have haligned := h.aligned
  constructor
  · show 0 ≤ (m.core.regs.sp + Int64.ofNat n).toInt
    omega
  · show (m.core.regs.sp + Int64.ofNat n).toInt ≤ m.core.stack.size
    omega
  · show 4 ∣ (m.core.regs.sp + Int64.ofNat n).toInt
    omega

theorem OnSlot.shrink {m : Machine} {n : Nat} (h : m.OnSlot) (small : m.core.stack.size < 2 ^ 32)
    (short : n ≤ 2048) (slots : 4 ∣ n) (held : 0 ≤ (m.core.regs.sp - Int64.ofNat n).toInt) :
    (m.setSp (m.core.regs.sp - Int64.ofNat n)).OnSlot := by
  have hn := toInt_ofNat_short short
  have hlo := h.nonneg
  have hhi := h.le_size
  have hsub : (m.core.regs.sp - Int64.ofNat n).toInt = m.core.regs.sp.toInt - n := by
    rw [toInt_sub_of_bounds (by omega) (by omega), hn]
  have haligned := h.aligned
  constructor
  · exact held
  · show (m.core.regs.sp - Int64.ofNat n).toInt ≤ m.core.stack.size
    omega
  · show 4 ∣ (m.core.regs.sp - Int64.ofNat n).toInt
    omega

/-- An effect keeps the stack pointer on a slot, whatever it moves it by. -/
theorem Effect.onSlot {m m' : Machine} (h : Effect m m') (small : m.core.stack.size < 2 ^ 32)
    (hs : m.OnSlot) : m'.OnSlot := by
  induction h with
  | refl => exact hs
  -- The stack stays the same arena, so its bound carries over.
  | trans first _ ih ih' => exact ih' (by rw [first.kept.stack]; exact small) (ih small hs)
  | grow m short slots room => exact hs.grow small short slots room
  | shrink m short slots held =>
    apply hs.shrink small short slots
    simp only [Arena.inBounds, Bool.and_eq_true, decide_eq_true_eq] at held
    exact toInt_nonneg_iff.mp held.1.1
  | _ => exact ⟨hs.nonneg, hs.le_size, hs.aligned⟩

theorem OnSlot.ret {m : Machine} (h : m.OnSlot) (small : m.core.stack.size < 2 ^ 32)
    (held : ¬ m.core.regs.sp - returnSize < 0) : (m.setSp (m.core.regs.sp - returnSize)).OnSlot :=
  h.shrink small (n := 4) (by omega) (by omega) (toInt_nonneg_iff.mp (Int64.not_lt.mp held))

/-- Only an empty stack makes a return halt. -/
theorem OnSlot.empty {m : Machine} (h : m.OnSlot) (empty : m.core.regs.sp - returnSize < 0) :
    m.core.regs.sp - returnSize = -4 := by
  have hlo := h.nonneg
  have haligned := h.aligned
  have hbounds := toInt_bounds m.core.regs.sp
  have hfour : returnSize.toInt = 4 := rfl
  have hsub : (m.core.regs.sp - returnSize).toInt = m.core.regs.sp.toInt - 4 := by
    rw [toInt_sub_of_bounds (by omega) (by omega), hfour]
  rw [toInt_neg_iff] at empty
  apply Int64.toInt_inj.mp
  rw [hsub]
  show m.core.regs.sp.toInt - 4 = -4
  omega

theorem OnSlot.sp_eq_zero {m : Machine} (h : m.OnSlot) (empty : m.core.regs.sp - returnSize < 0) :
    m.core.regs.sp = 0 := by
  rw [← Int64.sub_add_cancel m.core.regs.sp returnSize, h.empty empty]
  rfl

/-! ## Slots -/

theorem slotSize_pos (float : Bool) :
    4 ≤ (slotSize float).toInt ∧ (slotSize float).toInt ≤ 8 ∧
      Arena.isWidth (slotSize float) = true := by
  cases float <;> decide

/-- Slots that fit on the stack: the first one, and the others behind it. -/
theorem first_slot {stack : Arena} {float : Bool} {n : Nat} {off : Int64}
    (hs : stack.size < 2 ^ 63) (hoff : 0 ≤ off.toInt)
    (hfit : off.toInt + (n + 1 : Nat) * (slotSize float).toInt ≤ stack.size) :
    stack.Within off (slotSize float) ∧ 0 ≤ (off + slotSize float).toInt ∧
      (off + slotSize float).toInt + n * (slotSize float).toInt ≤ stack.size := by
  obtain ⟨hlo, hhi, -⟩ := slotSize_pos float
  have hsplit : ((n + 1 : Nat) : Int) * (slotSize float).toInt
      = n * (slotSize float).toInt + (slotSize float).toInt := by
    rw [Int.natCast_add, Int.add_mul, Int.natCast_one, Int.one_mul]
  have hrest : 0 ≤ (n : Int) * (slotSize float).toInt := Int.mul_nonneg (by omega) (by omega)
  have hnext : (off + slotSize float).toInt = off.toInt + (slotSize float).toInt :=
    toInt_add_of_bounds (by omega) (by omega)
  refine ⟨⟨hoff, by omega, by omega⟩, by omega, by omega⟩

/-- A range that fits on the stack is stored as a whole. -/
theorem storeRange_snd {stack : Arena} {float : Bool} (regs : Registers) (n : Nat) (r : UInt8)
    {off : Int64} (memory : Memory) (hs : stack.size < 2 ^ 63) (hoff : 0 ≤ off.toInt)
    (hfit : off.toInt + n * (slotSize float).toInt ≤ stack.size) :
    (storeRange stack regs float n r off memory).2 = none := by
  induction n generalizing r off memory with
  | zero => rfl
  | succ n ih =>
    obtain ⟨hin, hnext, hrest⟩ := first_slot hs hoff hfit
    unfold storeRange
    rw [Arena.write_of_within hs hin (slotSize_pos float).2.2]
    exact ih (r + 1) _ hnext hrest

/-- A range within the stack is loaded without a fault. -/
theorem loadRange_snd {stack : Arena} {float : Bool} (memory : Memory) (n : Nat) (r : UInt8)
    {off : Int64} (regs : Registers) (hs : stack.size < 2 ^ 63) (hoff : 0 ≤ off.toInt)
    (hfit : off.toInt + n * (slotSize float).toInt ≤ stack.size) :
    (loadRange stack memory float n r off regs).2 = none := by
  induction n generalizing r off regs with
  | zero => rfl
  | succ n ih =>
    obtain ⟨hin, hnext, hrest⟩ := first_slot hs hoff hfit
    unfold loadRange
    rw [Arena.read_of_within hs hin (slotSize_pos float).2.2]
    exact ih (r + 1) _ hnext hrest

/-- A push whose registers are all stored does not fail. -/
theorem push_snd {m : Machine} {i : Inst} {r : RegRange}
    (room : m.core.stack.inBounds m.core.regs.sp (Int64.ofNat r.bytes) = true)
    (stored : (storeRange m.core.stack m.core.regs r.float r.count r.first m.core.regs.sp
      m.memory).2 = none) : (m.push i r).2 = none := by
  unfold push
  dsimp only
  rw [if_pos room]
  split
  next heq =>
    rw [heq] at stored
    cases stored
  · rfl

/-- A pop whose registers are all loaded does not fail. -/
theorem pop_snd {m : Machine} {i : Inst} {r : RegRange}
    (held : m.core.stack.inBounds (m.core.regs.sp - Int64.ofNat r.bytes)
     (Int64.ofNat r.bytes) = true)
    (loaded : (loadRange m.core.stack m.memory r.float r.count r.first
      (m.core.regs.sp - Int64.ofNat r.bytes) m.core.regs).2 = none) : (m.pop i r).2 = none := by
  unfold pop
  dsimp only
  rw [if_pos held]
  split
  next heq =>
    rw [heq] at loaded
    cases loaded
  · rfl

/-- The bytes of a range are those of its slots. -/
theorem bytes_eq_slots (r : RegRange) : (r.bytes : Int) = r.count * (slotSize r.float).toInt := by
  unfold RegRange.bytes RegRange.slotSize
  rw [Int.natCast_mul]
  cases r.float <;> rfl

/-- The offsets of `n` slots from an offset on, in the order in which they are accessed. -/
def slots (float : Bool) : Nat → Int64 → List Int64
  | 0, _ => []
  | n + 1, off => off :: slots float n (off + slotSize float)

/-- Slots that fit on the stack lie inside it, each of them. -/
theorem within_of_mem_slots {stack : Arena} {float : Bool} {n : Nat} {off o : Int64}
    (hs : stack.size < 2 ^ 63) (hoff : 0 ≤ off.toInt)
    (hfit : off.toInt + n * (slotSize float).toInt ≤ stack.size) (ho : o ∈ slots float n off) :
    stack.Within o (slotSize float) := by
  induction n generalizing off with
  | zero => cases ho
  | succ n ih =>
    obtain ⟨hin, hnext, hrest⟩ := first_slot hs hoff hfit
    cases ho with
    | head => exact hin
    | tail _ ho => exact ih hnext hrest ho

/-- The check of a push is exact: the slots fit between the stack pointer and the end. -/
theorem OnSlot.room {m : Machine} {r : RegRange} (h : m.OnSlot) (small : m.core.stack.size < 2 ^ 32)
    (hr : r.first.toNat + r.count ≤ 256)
    (room : m.core.stack.inBounds m.core.regs.sp (Int64.ofNat r.bytes) = true) :
    m.core.regs.sp.toInt + r.count * (slotSize r.float).toInt ≤ m.core.stack.size := by
  have hshort := (bytes_range hr).1
  have hn := toInt_ofNat_short hshort
  have hhi := h.le_size
  have hin := (Arena.inBounds_iff (by omega) (by omega)).mp room
  rw [← bytes_eq_slots, ← hn]
  exact hin.stop

/-- The check of a pop is exact: the slots fit between the start and the stack pointer. -/
theorem OnSlot.held {m : Machine} {r : RegRange} (h : m.OnSlot) (small : m.core.stack.size < 2 ^ 32)
    (hr : r.first.toNat + r.count ≤ 256)
    (held : m.core.stack.inBounds (m.core.regs.sp - Int64.ofNat r.bytes) (Int64.ofNat r.bytes)
      = true) :
    0 ≤ (m.core.regs.sp - Int64.ofNat r.bytes).toInt ∧
      (m.core.regs.sp - Int64.ofNat r.bytes).toInt + r.count * (slotSize r.float).toInt
        ≤ m.core.stack.size := by
  have hshort := (bytes_range hr).1
  have hn := toInt_ofNat_short hshort
  have hlo := h.nonneg
  have hhi := h.le_size
  have hsub : (m.core.regs.sp - Int64.ofNat r.bytes).toInt = m.core.regs.sp.toInt - r.bytes := by
    rw [toInt_sub_of_bounds (by omega) (by omega), hn]
  have hin := (Arena.inBounds_iff (by omega) (by omega)).mp held
  rw [← bytes_eq_slots, ← hn]
  exact ⟨hin.start, hin.stop⟩

/-! ## Transfers and dispatches -/

/-- The stack pointer lies on a slot of the stack, or the core has halted. -/
def OnSlotOrHalted (m : Machine) : Prop :=
  m.OnSlot ∨ m.core.regs.sp = -4 ∧ m.core.pc = haltPc

/-- A core that has an instruction to perform has not halted. -/
theorem OnSlotOrHalted.onSlot {m : Machine} {i : Inst} (h : m.OnSlotOrHalted)
    (read : Isa.decode m.proc.program.code m.core.pc = .ok i) : m.OnSlot := by
  rcases h with hs | ⟨-, hpc⟩
  · exact hs
  · have := (Isa.decode_eq_ok read).nonneg
    rw [hpc] at this
    exact absurd this (by decide)

/-- A control transfer leaves the stack pointer on a slot, or it is the return from an empty stack
that halts the core. -/
theorem Jumped.onSlot {m m' : Machine} {i : Inst} {e : Option Stop} (h : Jumped m i m' e)
    (small : m.core.stack.size < 2 ^ 32) (hs : m.OnSlot) :
    m'.OnSlot ∨ (m'.core.regs.sp = -4 ∧ m'.core.pc = haltPc) ∧ i.family = .ret ∧
      m.core.regs.sp = 0 := by
  cases h with
  | next => exact .inl ⟨hs.1, hs.2, hs.3⟩
  | absolute => exact .inl ⟨hs.1, hs.2, hs.3⟩
  | relative => exact .inl ⟨hs.1, hs.2, hs.3⟩
  | called stored =>
    have hsize : m.core.stack.size < 2 ^ 63 := by omega
    obtain ⟨hin, -⟩ := Arena.write_eq_ok hsize stored
    have hgrown := hs.grow small (n := 4) (by omega) (by omega)
      ((Arena.inBounds_iff hsize (hin.add_lt hsize)).mpr hin)
    exact .inl ⟨hgrown.1, hgrown.2, hgrown.3⟩
  | overflowed => exact .inl hs
  -- The one transfer that takes the stack pointer below the stack also halts the core.
  | halted empty family => exact .inr ⟨⟨hs.empty empty, rfl⟩, family, hs.sp_eq_zero empty⟩
  | returned held =>
    have hret := hs.ret small held
    exact .inl ⟨hret.1, hret.2, hret.3⟩
  | underflowed held => exact .inl (hs.ret small held)

/-- A transfer keeps the pointer on a slot, or is the return that halts. -/
theorem Jumped.onSlotOrHalted {m m' : Machine} {i : Inst} {e : Option Stop} (h : Jumped m i m' e)
    (small : m.core.stack.size < 2 ^ 32) (hs : m.OnSlot) : m'.OnSlotOrHalted :=
  (h.onSlot small hs).imp_right And.left

/-- The same for a dispatch: what is on a slot stays there unless a return halts the core, and a
core that has halted stays as it is. -/
theorem Dispatched.onSlot {m m' : Machine} {e : Option Stop} (h : Dispatched m m' e)
    (small : m.core.stack.size < 2 ^ 32) (hm : m.OnSlotOrHalted) :
    m'.OnSlot ∨ (m'.core.regs.sp = -4 ∧ m'.core.pc = haltPc) ∧ (m' = m ∨
      ∃ i, Isa.decode m.proc.program.code m.core.pc = .ok i ∧ i.family = .ret ∧
        m.core.regs.sp = 0) := by
  -- Only a return can leave the slots, and it halts the core.
  cases h with
  | undecoded =>
    rcases hm with hs | halted
    · exact .inl hs
    · exact .inr ⟨halted, .inl rfl⟩
  | jumped read done =>
    rcases done.onSlot small (hm.onSlot read) with hs | ⟨halted, hret⟩
    · exact .inl ⟨hs.1, hs.2, hs.3⟩
    · exact .inr ⟨halted, .inr ⟨_, read, hret⟩⟩
  | stuck read failed =>
    rcases failed.onSlot small (hm.onSlot read) with hs | ⟨halted, hret⟩
    · exact .inl hs
    · exact .inr ⟨halted, .inr ⟨_, read, hret⟩⟩
  | stepped read done =>
    have hs := hm.onSlot read
    have hstep := (effect_step (Isa.decode_eq_ok read) m.countInterpreted).onSlot small
      ⟨hs.1, hs.2, hs.3⟩
    rw [done] at hstep
    exact .inl ⟨hstep.1, hstep.2, hstep.3⟩
  | failed read failed =>
    have hs := hm.onSlot read
    have hstep := (effect_step (Isa.decode_eq_ok read) m.countInterpreted).onSlot small
      ⟨hs.1, hs.2, hs.3⟩
    rw [failed] at hstep
    exact .inl hstep

/-! ## Reachable states -/

/-- What the stack instructions of a core can do. -/
structure StackSafe (m : Machine) (i : Inst) : Prop where
  /-- A return never fails, and reads inside the stack unless it halts. -/
  ret : i.family = .ret → (m.ret i).2 = none ∧ (¬ m.core.regs.sp - returnSize < 0 →
    m.core.stack.Within (m.core.regs.sp - returnSize) returnSize)
  /-- A call that does not overflow the stack writes inside it. -/
  call : i.family = .call → (m.call i).2 = none → m.core.stack.Within m.core.regs.sp returnSize
  /-- A push that there is room for stores every register, and stores it inside the stack. -/
  push : ∀ a r, Action.ofInst i (Int64.ofNat m.proc.global.size) = .ok a → a.pushed = some r →
    m.core.stack.inBounds m.core.regs.sp (Int64.ofNat r.bytes) = true →
    (storeRange m.core.stack m.core.regs r.float r.count r.first m.core.regs.sp m.memory).2 = none ∧
    ∀ o ∈ slots r.float r.count m.core.regs.sp, m.core.stack.Within o (slotSize r.float)
  /-- A pop that the stack holds enough for loads every register, and loads it from the stack. -/
  pop : ∀ a r, Action.ofInst i (Int64.ofNat m.proc.global.size) = .ok a → a.popped = some r →
    m.core.stack.inBounds (m.core.regs.sp - Int64.ofNat r.bytes) (Int64.ofNat r.bytes) = true →
    (loadRange m.core.stack m.memory r.float r.count r.first
      (m.core.regs.sp - Int64.ofNat r.bytes) m.core.regs).2 = none ∧
    ∀ o ∈ slots r.float r.count (m.core.regs.sp - Int64.ofNat r.bytes),
      m.core.stack.Within o (slotSize r.float)

/-- A return that does not halt finds its address on the stack. -/
theorem OnSlot.within_ret {m : Machine} (h : m.OnSlot) (small : m.core.stack.size < 2 ^ 32)
    (held : ¬ m.core.regs.sp - returnSize < 0) :
    m.core.stack.Within (m.core.regs.sp - returnSize) returnSize := by
  have hfour : returnSize.toInt = 4 := rfl
  have hlo := h.nonneg
  have hhi := h.le_size
  have hsub : (m.core.regs.sp - returnSize).toInt = m.core.regs.sp.toInt - 4 := by
    rw [toInt_sub_of_bounds (by omega) (by omega), hfour]
  exact ⟨toInt_nonneg_iff.mp (Int64.not_lt.mp held), by omega, by omega⟩

theorem OnSlot.ret_snd {m : Machine} (h : m.OnSlot) (small : m.core.stack.size < 2 ^ 32)
    (i : Inst) : (m.ret i).2 = none := by
  have hsize : m.core.stack.size < 2 ^ 63 := by omega
  unfold Machine.ret
  dsimp only
  split
  · rfl
  next held =>
    have hread : (m.setSp (m.core.regs.sp - returnSize)).core.stack.read
        (m.setSp (m.core.regs.sp - returnSize)).memory (m.core.regs.sp - returnSize) returnSize =
        _ :=
      Arena.read_of_within hsize (h.within_ret small held) rfl
    rw [hread]

/-- A stack instruction fails exactly if its range does not fit. -/
theorem OnSlot.stackSafe {m : Machine} {i : Inst} (h : m.OnSlot)
    (small : m.core.stack.size < 2 ^ 32)
    (read : Isa.decode m.proc.program.code m.core.pc = .ok i) : m.StackSafe i := by
  have hsize : m.core.stack.size < 2 ^ 63 := by omega
  have hi := Isa.decode_eq_ok read
  constructor
  · exact fun _ => ⟨h.ret_snd small i, h.within_ret small⟩
  -- A call is within the stack because the access it makes is checked.
  · intro _ done
    unfold Machine.call at done
    dsimp only at done
    split at done
    · cases done
    next stored => exact (Arena.write_eq_ok hsize stored).1
  · intro a r ha hr room
    have hrange := ((Action.lawful_of_ofInst hi ha).pushed r hr).2
    have hfit := h.room small hrange room
    exact ⟨storeRange_snd _ _ _ _ hsize h.nonneg hfit,
      fun o ho => within_of_mem_slots hsize h.nonneg hfit ho⟩
  · intro a r ha hr held
    have hrange := ((Action.lawful_of_ofInst hi ha).popped r hr).2
    obtain ⟨hstart, hfit⟩ := h.held small hrange held
    exact ⟨loadRange_snd _ _ _ _ hsize hstart hfit,
      fun o ho => within_of_mem_slots hsize hstart hfit ho⟩

/-- The core is in the state in which a return from an empty stack has left it. -/
def HaltedByReturn (first m : Machine) : Prop :=
  m.core.regs.sp = -4 ∧ m.core.pc = haltPc ∧
    ∃ m₀ i, Reachable Proc.SameProgram first m₀ ∧
      Isa.decode m₀.proc.program.code m₀.core.pc = .ok i ∧ i.family = .ret ∧
      m₀.core.regs.sp = 0 ∧ m.core = m₀.dispatch.1.core

/-- Wherever a core gets, its pointer is on a slot, or a return from an empty stack was the last
thing it did. -/
theorem Reachable.onSlot {first m : Machine} (h : Reachable Proc.SameProgram first m)
    (hmode : first.proc.mode = .interpret) (small : first.core.stack.size < 2 ^ 32)
    (hfirst : first.OnSlot) : m.OnSlot ∨ HaltedByReturn first m := by
  induction h with
  | start => exact .inl hfirst
  | change _ _ ih =>
    rcases ih with hs | halted
    · exact .inl ⟨hs.1, hs.2, hs.3⟩
    · exact .inr halted
  | @dispatch m reached ih =>
    have kept := reached.kept hmode
    have hm : m.OnSlotOrHalted := ih.imp_right fun halted => ⟨halted.1, halted.2.1⟩
    have hd := dispatched (kept.proc.mode.trans hmode) runBlock
    rcases hd.onSlot (kept.stack ▸ small) hm with hs | ⟨halted, same | ⟨i, read, family, hsp⟩⟩
    · exact .inl hs
    -- A core that had halted before was halted by a return, and that is still how it stands.
    · rw [show m.dispatch.1 = m from same]
      exact ih
    · exact .inr ⟨halted.1, halted.2, m, i, reached, read, family, hsp, rfl⟩

/-- Whatever a core interprets: while its address is not negative its stack pointer lies on a slot,
a negative stack pointer is -4 and that of a core that a return has halted, and no instruction that
is about to be performed can fail on the stack behind its first check or access anything else. -/
theorem stack_pointer_stays_on_slots {p p' : Proc} {c : Core} {start : Int64} {param : UInt64}
    {m : Machine} (made : p.newCore start param = (p', .ok c)) (hmode : p.mode = .interpret)
    (h : Reachable Proc.SameProgram ⟨c, p'⟩ m) :
    (0 ≤ m.core.pc → m.OnSlot) ∧
      (m.core.regs.sp < 0 → HaltedByReturn ⟨c, p'⟩ m) ∧
      ∀ i, Isa.decode m.proc.program.code m.core.pc = .ok i → m.StackSafe i := by
  have same := p.sameProgram_newCore start param
  rw [made] at same
  obtain ⟨small, hsp⟩ := Proc.newCore_stack made
  have hfirst : OnSlot ⟨c, p'⟩ := by
    have hzero : c.regs.sp.toInt = 0 := by rw [hsp]; rfl
    exact ⟨by show 0 ≤ c.regs.sp.toInt; omega, by show c.regs.sp.toInt ≤ _; omega,
      by show 4 ∣ c.regs.sp.toInt; omega⟩
  have hmode' : p'.mode = .interpret := same.mode.trans hmode
  -- Either the pointer is on a slot or the core was halted by a return, in every reachable state.
  have hm := h.onSlot hmode' small hfirst
  have kept := h.kept hmode'
  refine ⟨?_, ?_, ?_⟩
  · intro running
    rcases hm with hs | ⟨-, hpc, -⟩
    · exact hs
    · rw [hpc] at running
      exact absurd running (by decide)
  · intro below
    rcases hm with hs | halted
    · exact absurd (toInt_neg_iff.mp below) (Int.not_lt.mpr hs.nonneg)
    · exact halted
  · intro i read
    have hm' : m.OnSlotOrHalted := hm.imp_right fun halted => ⟨halted.1, halted.2.1⟩
    exact (hm'.onSlot read).stackSafe (kept.stack ▸ small) read

/-- A program that pushes a register, pops it into another one and returns. -/
def pushesAndReturns : Program where
  header := ⟨64, 64, 0, 0⟩
  code := #[0x91, 0x00, 0x00, 0x92, 0x00, 0x01, 0x86, 0x01]
  global := []

/-- The stack pointer of `pushesAndReturns`, before its second instruction and behind its last. -/
theorem run_pushesAndReturns :
    ∃ m, boot pushesAndReturns { mode := .interpret } 0 0 = .ok m ∧
      (let m' := m.dispatch.1
       m'.core.regs.sp = 8 ∧ m'.core.pc = 3 ∧
         (Isa.decode m'.proc.program.code m'.core.pc).toOption.any (·.family = .pop) = true ∧
         m'.dispatch.1.dispatch.1.core.regs.sp = -4) := by
  have run : ((boot pushesAndReturns { mode := .interpret } 0 0).toOption.any fun m =>
      let m' := m.dispatch.1
      m'.core.regs.sp = 8 ∧ m'.core.pc = 3 ∧
        (Isa.decode m'.proc.program.code m'.core.pc).toOption.any (·.family = .pop) = true ∧
        m'.dispatch.1.dispatch.1.core.regs.sp = -4) = true := by
    decide +kernel
  obtain ⟨m, hm, run⟩ := exists_of_any run
  exact ⟨m, hm, of_decide_eq_true run⟩

/-- A register that was pushed stands on a slot, is popped from it, and the return halts. -/
theorem stack_pointer_stays_on_slots_pushesAndReturns :
    ∃ m, boot pushesAndReturns { mode := .interpret } 0 0 = .ok m ∧
      (let m' := m.dispatch.1
       m'.core.regs.sp = 8 ∧ m'.OnSlot ∧
         (∃ i, Isa.decode m'.proc.program.code m'.core.pc = .ok i ∧ i.family = .pop ∧
           m'.StackSafe i) ∧
         HaltedByReturn m m'.dispatch.1.dispatch.1) := by
  obtain ⟨m, hm, hsp, hpc, hread, hhalted⟩ := run_pushesAndReturns
  obtain ⟨p, hp, made⟩ := boot_eq_ok hm
  have hmode := (new_eq_ok hp).2.1
  have pushed := stack_pointer_stays_on_slots made hmode (.dispatch .start)
  have returned :=
    stack_pointer_stays_on_slots made hmode (.dispatch (.dispatch (.dispatch .start)))
  obtain ⟨i, read, hi⟩ := exists_of_any hread
  refine ⟨m, hm, hsp, pushed.1 ?_, ⟨i, read, of_decide_eq_true hi, pushed.2.2 i read⟩,
    returned.2.1 ?_⟩
  · show 0 ≤ m.dispatch.1.core.pc
    rw [hpc]
    decide
  · show m.dispatch.1.dispatch.1.dispatch.1.core.regs.sp < 0
    rw [hhalted]
    decide

end Machine

end BlockVM
