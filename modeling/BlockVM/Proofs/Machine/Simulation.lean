import BlockVM.Proofs.Block.Compiled
import BlockVM.Proofs.Machine.Blocks
import BlockVM.Proofs.Machine.IntegerCode
import BlockVM.Proofs.Machine.StackCode

/-!
# Machine code simulates the machine

The machine code of a block of plain instructions does what the machine does when it performs the
instructions one by one. `runs_action` follows one action through its code: the processor stays in
step with the machine, or the code returns the token of a stack fault where the machine fails.
`runs_steps` follows a run of instructions, and `native_simulates` puts the entry in front and the
exit behind it.
-/

namespace BlockVM.Native

open Isa (Inst)
open Layout (insts)
open Machine (stepAll runAt)
open X86 (Reg Mem Size execAll Runs Loaded behind)

/-! ## What plain actions leave alone -/

/-- The arenas that a core uses are the same. -/
structure SameArenas (m m' : Machine) : Prop where
  space : m'.proc.space = m.proc.space
  global : m'.proc.global = m.proc.global
  stack : m'.core.stack = m.core.stack

/-- Where a core runs depends on its arenas and not on what they contain. -/
theorem Site.Hosts.of_same {x : Site} {m m' : Machine} (h : x.Hosts m) (same : SameArenas m m') :
    x.Hosts m' where
  apart := by rw [same.space]; exact h.apart
  backed := by rw [same.space]; exact h.backed
  global := by rw [same.space, same.global]; exact h.global
  stack := by rw [same.space, same.stack]; exact h.stack
  away := h.away
  room := h.room

section
variable {m m' : Machine} {i : Inst} {a : Action} {r : RegRange} {o : Operand} {v : UInt64}

/-- What was committed without a failure was made without one. -/
theorem ok_of_commit {r : Except Stop Machine} (h : m.commit r = (m', none)) : r = .ok m' := by
  cases r with
  | ok m₁ =>
    cases h
    rfl
  | error e => cases h

/-- A write moves neither the arenas nor the stack pointer. -/
theorem same_write (h : m.write i o v = .ok m') :
    SameArenas m m' ∧ m'.core.regs.sp = m.core.regs.sp := by
  unfold Machine.write at h
  split at h
  · cases h
    exact ⟨⟨rfl, rfl, rfl⟩, rfl⟩
  · obtain ⟨memory, -, h⟩ := bind_eq_ok.mp h
    cases h
    exact ⟨⟨rfl, rfl, rfl⟩, rfl⟩
  · obtain ⟨⟨arena, off⟩, -, h⟩ := bind_eq_ok.mp h
    obtain ⟨memory, -, h⟩ := bind_eq_ok.mp h
    cases h
    exact ⟨⟨rfl, rfl, rfl⟩, rfl⟩
  all_goals cases h

/-- What a stack action that succeeds has checked, and where it leaves the stack pointer. -/
theorem inBounds_of_done (hmoved : a.moved = some r)
    (h : m.perform i a = (m', none)) :
    m.core.stack.inBounds (offsetOf m a) (Int64.ofNat r.bytes) = true ∧ SameArenas m m' ∧
      (m'.core.regs.sp = offsetOf m a + Int64.ofNat r.bytes ∨ m'.core.regs.sp = offsetOf m a) := by
  cases a with
  | push _ | pushRange _ =>
    cases hmoved
    simp only [Machine.perform, Machine.push] at h
    split at h
    next hin =>
      split at h
      · cases h
      · cases h
        exact ⟨hin, ⟨rfl, rfl, rfl⟩, .inl rfl⟩
    · cases h
  | pop _ | popRange _ =>
    cases hmoved
    simp only [Machine.perform, Machine.pop] at h
    split at h
    next hin =>
      split at h
      · cases h
      · cases h
        exact ⟨hin, ⟨rfl, rfl, rfl⟩, .inr rfl⟩
    · cases h
  | _ => cases hmoved

/-- A stack action fails because its range does not fit. -/
theorem inBounds_of_failed {e : Stop} (ha : a.Lawful) (hmoved : a.moved = some r) (on : OnStack m)
    (hsize : m.core.stack.size + 4096 ≤ 2 ^ 63) (h : m.perform i a = (m', some e)) :
    m.core.stack.inBounds (offsetOf m a) (Int64.ofNat r.bytes) = false := by
  obtain ⟨hbytes, hlo, hhi⟩ := toInt_offsetOf ha hmoved on hsize
  have hn := Machine.toInt_ofNat_short hbytes
  rw [Bool.eq_false_iff]
  intro hin
  have hwithin := (Arena.inBounds_iff (by omega) (by omega)).mp hin
  have hstop := hwithin.stop
  rw [hn, Machine.bytes_eq_slots] at hstop
  -- A range that fits is moved as a whole.
  cases a with
  | push _ | pushRange _ =>
    cases hmoved
    have hnone := Machine.storeRange_snd m.core.regs r.count r.first m.memory (by omega)
      hwithin.start hstop
    have hdone := Machine.push_snd (i := i) hin hnone
    rw [show m.push i _ = _ from h] at hdone
    cases hdone
  | pop _ | popRange _ =>
    cases hmoved
    have hnone := Machine.loadRange_snd m.memory r.count r.first m.core.regs (by omega)
      hwithin.start hstop
    have hdone := Machine.pop_snd (i := i) hin hnone
    rw [show m.pop i _ = _ from h] at hdone
    cases hdone
  | _ => cases hmoved

/-- A plain action that succeeds keeps the arenas and leaves the stack pointer on the stack. -/
theorem OnStack.perform (on : OnStack m) (hplain : a.isPlain = true) (ha : a.Lawful)
    (hsize : m.core.stack.size + 4096 ≤ 2 ^ 63) (h : m.perform i a = (m', none)) :
    SameArenas m m' ∧ OnStack m' := by
  have write {o : Operand} {v : UInt64} (h : m.write i o v = .ok m') :
      SameArenas m m' ∧ OnStack m' := by
    obtain ⟨same, hsp⟩ := same_write h
    exact ⟨same, by rw [hsp]; exact on.nonneg, by rw [hsp, same.stack]; exact on.le_size⟩
  -- A range was moved, so its bytes are on the stack and the pointer is at one of its ends.
  have stack {r : RegRange} (hmoved : a.moved = some r) : SameArenas m m' ∧ OnStack m' := by
    obtain ⟨hin, same, hsp⟩ := inBounds_of_done hmoved h
    obtain ⟨hbytes, hlo, hhi⟩ := toInt_offsetOf ha hmoved on hsize
    have hn := Machine.toInt_ofNat_short hbytes
    have hwithin := (Arena.inBounds_iff (by omega) (by omega)).mp hin
    have hstart := hwithin.start
    have hstop := hwithin.stop
    have hadd : (offsetOf m a + Int64.ofNat r.bytes).toInt = (offsetOf m a).toInt + r.bytes := by
      rw [toInt_add_of_bounds (by omega) (by omega), hn]
    refine ⟨same, ?_, ?_⟩
    · rcases hsp with hsp | hsp <;> rw [hsp] <;> omega
    · rw [same.stack]
      rcases hsp with hsp | hsp <;> rw [hsp] <;> omega
  cases a with
  | move dst src =>
    obtain ⟨v, -, hw⟩ := bind_eq_ok.mp (ok_of_commit h)
    exact write hw
  | arith op dst src =>
    obtain ⟨a, -, hw⟩ := bind_eq_ok.mp (ok_of_commit h)
    obtain ⟨b, -, hw⟩ := bind_eq_ok.mp hw
    obtain ⟨v, -, hw⟩ := bind_eq_ok.mp hw
    exact write hw
  | compare rel dst src =>
    obtain ⟨a, -, hw⟩ := bind_eq_ok.mp (ok_of_commit h)
    obtain ⟨b, -, hw⟩ := bind_eq_ok.mp hw
    exact write hw
  | nop =>
    cases h
    exact ⟨⟨rfl, rfl, rfl⟩, on⟩
  | push | pop | pushRange | popRange => exact stack rfl
  | fcompare | fmove | farith | service => cases hplain

/-- The machine code of a plain action that does not touch the stack does what the machine does. -/
theorem InStep.exec_action {x : Site} {s : X86.State View} (h : InStep x m s) (hosts : x.Hosts m)
    (hplain : a.isPlain = true) (hstack : a.isStack = false) (ha : a.Lawful) (t : Target)
    (hdone : m.perform i a = (m', none)) :
    ∃ s', execAll (insts (a.lower t i.pc)) s = some s' ∧ InStep x m' s' := by
  cases a with
  | move dst src =>
    obtain ⟨v, hread, hwrite⟩ := bind_eq_ok.mp (ok_of_commit hdone)
    exact h.exec_move hosts hread hwrite
  | arith op dst src =>
    obtain ⟨a, hdst, hwrite⟩ := bind_eq_ok.mp (ok_of_commit hdone)
    obtain ⟨b, hsrc, hwrite⟩ := bind_eq_ok.mp hwrite
    obtain ⟨v, hres, hwrite⟩ := bind_eq_ok.mp hwrite
    exact h.exec_arith hosts (ha.wide op dst src rfl) hdst hsrc hres hwrite
  | compare rel dst src =>
    obtain ⟨a, hdst, hwrite⟩ := bind_eq_ok.mp (ok_of_commit hdone)
    obtain ⟨b, hsrc, hwrite⟩ := bind_eq_ok.mp hwrite
    exact h.exec_compare hosts hdst hsrc hwrite
  | nop =>
    cases hdone
    exact ⟨s, rfl, h⟩
  | push | pop | pushRange | popRange => cases hstack
  | fcompare | fmove | farith | service => cases hplain

end

/-! ## Exits -/

def Site.Keeps (x : Site) (v : View) : Prop := v.code = x.code ∧ v.place = x.place

/-- The instructions stand at the start of the machine code. -/
abbrev Site.Loads (x : Site) (is : List X86.Inst) : Prop :=
  Loaded x.Keeps x.place.code x.place.returnAddress is

/-- The processor after the return of a block. -/
structure Returned (x : Site) (m : Machine) (token : UInt64) (s : X86.State View) : Prop
    extends Mirrors x m s.mem where
  rip : s.cpu.rip = x.place.returnAddress
  rax : s.cpu.reg .rax = token
  rsp : s.cpu.reg .rsp = x.top + 8

section
variable {x : Site} {m m' : Machine} {s : X86.State View} {pre post : List X86.Inst}

theorem Mirrors.keeps {v : View} (h : Mirrors x m v) : x.Keeps v := ⟨h.code, h.place⟩

/-- A return with the stack as the caller left it ends the run. -/
theorem runs_ret (l : x.Loads (pre ++ .ret :: post)) (hosts : x.Hosts m) (h : Mirrors x m s.mem)
    (hreturns : s.mem.scratch.word x.top 8 = x.place.returnAddress)
    (hrsp : s.cpu.reg .rsp = x.top) (hrip : s.cpu.rip = behind x.place.code pre) :
    ∃ s', Runs x.place.returnAddress 1 s s' ∧ Returned x m (s.cpu.reg .rax) s' := by
  have hload : X86.loadWord s.mem 8 x.top = some x.place.returnAddress := by
    rw [X86.loadWord, View.loadBytes_scratch]
    · exact congrArg some hreturns
    · intro k hk
      have hin := isScratch_of_room h hosts (k := 40 + k) (by omega)
      rwa [UInt64.ofNat_add, ← UInt64.add_assoc, show UInt64.ofNat 40 = 40 from rfl,
        UInt64.sub_add_cancel] at hin
  let s' := (s.setReg .rsp (x.top + 8)).goto x.place.returnAddress
  have hexec : X86.exec .ret (s.goto (behind x.place.code (pre ++ [.ret]))) = some s' := by
    simp only [X86.exec, X86.State.pop, X86.State.goto_reg, X86.State.goto_mem, hrsp, hload,
      Option.bind_eq_bind, Option.bind_some]
    rfl
  refine ⟨s', (l.runs_exec h.keeps hrip hexec).1, ?_⟩
  exact {
    toMirrors := h
    rip := rfl
    rax := s.reg_setReg_of_ne _ (by decide)
    rsp := s.reg_setReg_self _ _ }

/-- The stack frame is released. -/
theorem InStep.exec_addFrame (h : InStep x m s) :
    ∃ f, X86.exec (.addImm .rsp Lower.frameSize) s = some ((s.setReg .rsp x.top).setFlags f) := by
  obtain ⟨f, hadd⟩ := X86.computes_add.qword s.cpu.flags (x.top - 32) 32
  have himm : X86.immediate .qword Lower.frameSize = 32 := rfl
  have hreg : s.cpu.regAt .qword .rsp = x.top - 32 := h.frame
  rw [UInt64.sub_add_cancel] at hadd
  refine ⟨some f, ?_⟩
  simp only [X86.Inst.addImm, X86.exec, hreg, himm, hadd, Option.bind_eq_bind, Option.bind_some]
  rfl

/-- A fault loads its token, takes the frame off and returns. -/
theorem runs_faultExit {pc : Int64} (l : x.Loads (pre ++ insts (Lower.faultExit pc) ++ post))
    (hosts : x.Hosts m) (h : InStep x m s) (hrip : s.cpu.rip = behind x.place.code pre) :
    ∃ s', Runs x.place.returnAddress 3 s s' ∧ Returned x m (Lower.token pc Lower.faultMark) s' := by
  have h₁ := h.setReg (r := .rax) rfl (Lower.token pc Lower.faultMark)
  obtain ⟨f, hframe⟩ := h₁.exec_addFrame
  -- The exit is straight up to the return, which is executed on its own.
  let is : List X86.Inst := [.movRegImm64 .rax (Lower.token pc Lower.faultMark),
    .addImm .rsp Lower.frameSize]
  let s₂ := ((s.setReg .rax (Lower.token pc Lower.faultMark)).setReg .rsp x.top).setFlags f
  have hexec : execAll is s = some s₂ := (X86.execAll_cons rfl _).trans (X86.execAll_cons hframe _)
  have hstraight : ∀ i ∈ is, i.isStraight = true := by
    simp [is, X86.Inst.addImm, X86.Inst.isStraight]
  have hcode : pre ++ insts (Lower.faultExit pc) ++ post = pre ++ is ++ .ret :: post := by
    rw [List.append_assoc, List.append_assoc]
    rfl
  rw [hcode] at l
  obtain ⟨hruns, -⟩ := l.runs_execAll hstraight h.keeps hrip hexec
  obtain ⟨s', hret, hreturned⟩ := runs_ret (s := s₂.goto (behind x.place.code (pre ++ is))) l hosts
    h₁.toMirrors h₁.returns (X86.State.reg_setReg_self ..) rfl
  refine ⟨s', hruns.trans hret, ?_⟩
  have hrax : s₂.cpu.reg .rax = Lower.token pc Lower.faultMark := by
    rw [X86.State.setFlags_reg, X86.State.reg_setReg_of_ne _ _ (by decide),
      X86.State.reg_setReg_self]
  rw [X86.State.goto_reg, hrax] at hreturned
  exact hreturned

/-- The accumulator is cleared by an exclusive or with itself. -/
theorem exec_clear (s : X86.State View) :
    ∃ f, X86.exec (.xorReg .rax .rax) s = some ((s.setReg .rax 0).setFlags f) := by
  obtain ⟨r, f, hxor, hlow⟩ :=
    X86.computes_xor.low .dword s.cpu.flags (s.cpu.reg .rax) (s.cpu.reg .rax)
  refine ⟨some f, ?_⟩
  rw [UInt64.xor_self, show Size.truncate .dword 0 = 0 from rfl] at hlow
  simp only [X86.Inst.xorReg, X86.exec, InStep.regAt_eq, hxor, Option.bind_eq_bind,
    Option.bind_some, InStep.setRegAt_eq, hlow]
  rfl

theorem runs_finish (l : x.Loads (pre ++ insts Lower.finish)) (hosts : x.Hosts m) (h : InStep x m s)
    (hrip : s.cpu.rip = behind x.place.code pre) :
    ∃ s', Runs x.place.returnAddress 3 s s' ∧ Returned x m 0 s' := by
  obtain ⟨f, hframe⟩ := h.exec_addFrame
  obtain ⟨f', hclear⟩ := exec_clear ((s.setReg .rsp x.top).setFlags f)
  -- As in the exit, all but the return is straight.
  let is : List X86.Inst := [.addImm .rsp Lower.frameSize, .xorReg .rax .rax]
  let s₂ := (((s.setReg .rsp x.top).setFlags f).setReg .rax 0).setFlags f'
  have hexec : execAll is s = some s₂ :=
    (X86.execAll_cons hframe _).trans (X86.execAll_cons hclear _)
  have hstraight : ∀ i ∈ is, i.isStraight = true := by
    simp [is, X86.Inst.addImm, X86.Inst.xorReg, X86.Inst.isStraight]
  have hcode : pre ++ insts Lower.finish = pre ++ is ++ [.ret] := by
    rw [List.append_assoc]
    rfl
  rw [hcode] at l
  obtain ⟨hruns, -⟩ := l.runs_execAll hstraight h.keeps hrip hexec
  have hrsp : s₂.cpu.reg .rsp = x.top := by
    rw [X86.State.setFlags_reg, X86.State.reg_setReg_of_ne _ _ (by decide), X86.State.setFlags_reg,
      X86.State.reg_setReg_self]
  have hrax : s₂.cpu.reg .rax = 0 := by rw [X86.State.setFlags_reg, X86.State.reg_setReg_self]
  obtain ⟨s', hret, hreturned⟩ := runs_ret (s := s₂.goto (behind x.place.code (pre ++ is))) l hosts
    h.toMirrors h.returns hrsp rfl
  refine ⟨s', hruns.trans hret, ?_⟩
  rw [X86.State.goto_reg, hrax] at hreturned
  exact hreturned

/-! ## The entry -/

/-- The processor at the entry of a block: `rdi` holds the address of the register file and the
return address is on top of the stack. -/
structure Entered (x : Site) (m : Machine) (s : X86.State View) : Prop
    extends Mirrors x m s.mem where
  returns : s.mem.scratch.word x.top 8 = x.place.returnAddress
  rip : s.cpu.rip = x.place.code
  rdi : s.cpu.reg .rdi = x.place.file
  rsp : s.cpu.reg .rsp = x.top

/-- The entry makes room for the frame and loads the base of the global data. -/
theorem runs_enter (l : x.Loads (insts Lower.enter ++ post)) (h : Entered x m s)
    (hbase : m.core.regs.int globalReg = m.proc.global.base) :
    ∃ s', Runs x.place.returnAddress 2 s s' ∧ InStep x m s' ∧
      s'.cpu.rip = behind x.place.code (insts Lower.enter) := by
  obtain ⟨f, hsub⟩ := X86.computes_sub.qword s.cpu.flags x.top 32
  have himm : X86.immediate .qword Lower.frameSize = 32 := rfl
  have hreg : s.cpu.regAt .qword .rsp = x.top := h.rsp
  let s₁ := (s.setReg .rsp (x.top - 32)).setFlags (some f)
  have hframe : X86.exec (.subImm .rsp Lower.frameSize) s = some s₁ := by
    simp only [X86.Inst.subImm, X86.exec, hreg, himm, hsub, Option.bind_eq_bind, Option.bind_some]
    rfl
  have hrdi : s₁.cpu.reg .rdi = x.place.file := (s.reg_setReg_of_ne _ (by decide)).trans h.rdi
  -- The reserved register holds the base of the global data, and the code relies on it.
  have hload : X86.exec (.load .qword .r11 (Lower.regSlot globalReg)) s₁ =
      some (s₁.setReg .r11 m.proc.global.base) := by
    apply X86.exec_load
    rw [address_regSlot hrdi, ← hbase]
    exact h.load_int_qword globalReg
  let s₂ := s₁.setReg .r11 m.proc.global.base
  have hexec : execAll (insts Lower.enter) s = some s₂ :=
    (X86.execAll_cons hframe _).trans (X86.execAll_cons hload _)
  have hstraight : ∀ i ∈ insts Lower.enter, i.isStraight = true := by
    simp [Lower.enter, X86.Inst.subImm, X86.Inst.isStraight, Lower.regSlot, Mem.isAbsolute]
  have hrip : s.cpu.rip = behind x.place.code [] := by
    rw [h.rip]
    simp [behind, X86.encodeAll]
  obtain ⟨hruns, -⟩ := Loaded.runs_execAll l hstraight h.keeps hrip hexec
  refine ⟨_, hruns, ?_, rfl⟩
  exact {
    toMirrors := h.toMirrors
    returns := h.returns
    file := (s₁.reg_setReg_of_ne _ (by decide)).trans hrdi
    global := s₁.reg_setReg_self _ _
    frame := (s₁.reg_setReg_of_ne _ (by decide)).trans (s.reg_setReg_self _ _) }

/-! ## The check of a stack action -/

/-- The jump over a fault exit goes behind it. -/
theorem length_faultExit (pc : Int64) :
    (X86.encodeAll (insts (Lower.faultExit pc))).length = 15 := by
  have hload : (X86.Inst.movRegImm64 .rax (Lower.token pc Lower.faultMark)).encode.length = 10 := by
    simp only [X86.Inst.encode, List.length_append, LittleEndian.ofUInt64,
      LittleEndian.length_bytes]
    rfl
  have hrest : (X86.encodeAll [.addImm .rsp Lower.frameSize, .ret]).length = 5 := by decide
  show (X86.encodeAll ([X86.Inst.movRegImm64 .rax (Lower.token pc Lower.faultMark)] ++
    [.addImm .rsp Lower.frameSize, .ret])).length = 15
  rw [X86.encodeAll_append, X86.encodeAll_singleton, List.length_append, hload, hrest]

/-- The comparison in front of the jump of a check. -/
def compareLimit (limit : Int64) : List X86.Inst :=
  [.movRegImm .rcx limit.toUInt64, .aluRegReg .cmp .qword .rax .rcx]

/-- Where the limit is not negative, the guard is a comparison and a jump over the exit. -/
theorem insts_stackGuard (pc : Int64) {limit : Int64} (h : ¬ limit < 0) :
    insts (Lower.stackGuard pc limit) =
      compareLimit limit ++ .jccShort .belowEqual 15 :: insts (Lower.faultExit pc) := by
  rw [Lower.stackGuard, if_neg h]
  rfl

/-- The jump is taken exactly if the offset, unsigned, is at most the limit. -/
theorem exec_compareLimit (h : InStep x m s) (limit : Int64) :
    ∃ s' f, execAll (compareLimit limit) s = some s' ∧ InStep x m s' ∧
      s'.cpu.reg .rax = s.cpu.reg .rax ∧ s'.cpu.flags = some f ∧
      X86.Cond.belowEqual.holds f = decide (s.cpu.reg .rax ≤ limit.toUInt64) := by
  let f := (X86.subBorrow .qword (s.cpu.reg .rax) limit.toUInt64 false).2
  let s₁ := s.setReg .rcx limit.toUInt64
  have hrax : s₁.cpu.regAt .qword .rax = s.cpu.reg .rax := s.reg_setReg_of_ne _ (by decide)
  have hrcx : s₁.cpu.regAt .qword .rcx = limit.toUInt64 := s.reg_setReg_self _ _
  have hcmp : X86.exec (.aluRegReg .cmp .qword .rax .rcx) s₁ = some (s₁.setFlags f) := by
    simp only [X86.exec, hrax, hrcx, X86.alu_cmp, Option.bind_eq_bind, Option.bind_some, ↓reduceIte]
    rfl
  refine ⟨s₁.setFlags f, f, ?_, (h.setReg (r := .rcx) rfl _).setFlags _, ?_, rfl,
    X86.belowEqual_qword _ _⟩
  · exact (X86.execAll_cons (X86.exec_movRegImm s .rcx limit.toUInt64) _).trans
      (X86.execAll_cons hcmp _)
  · exact hrax

/-- The comparison and its jump: an offset within the limit goes 15 bytes further. -/
theorem runs_compareLimit {limit : Int64}
    (l : x.Loads (pre ++ compareLimit limit ++ .jccShort .belowEqual 15 :: post))
    (h : InStep x m s) (hrip : s.cpu.rip = behind x.place.code pre) :
    ∃ s', Runs x.place.returnAddress ((compareLimit limit).length + 1) s s' ∧ InStep x m s' ∧
      s'.cpu.reg .rax = s.cpu.reg .rax ∧
      s'.cpu.rip = behind x.place.code (pre ++ compareLimit limit ++ [.jccShort .belowEqual 15]) +
        if s.cpu.reg .rax ≤ limit.toUInt64 then 15 else 0 := by
  obtain ⟨s₁, f, hexec, h₁, hrax, hflags, hcond⟩ := exec_compareLimit h limit
  have hstraight : ∀ i ∈ compareLimit limit, i.isStraight = true := by
    have hload := (Lower.straight_movRegImm Lower.num_source limit.toUInt64).2
    intro i hi
    simp only [compareLimit, List.mem_cons, List.not_mem_nil, or_false] at hi
    rcases hi with rfl | rfl
    · exact hload
    · rfl
  obtain ⟨hruns, -⟩ := l.runs_execAll hstraight h.keeps hrip hexec
  let next := behind x.place.code (pre ++ compareLimit limit ++ [X86.Inst.jccShort .belowEqual 15])
  let s₂ := s₁.goto (behind x.place.code (pre ++ compareLimit limit))
  let s₃ := s₁.goto (next + if s.cpu.reg .rax ≤ limit.toUInt64 then 15 else 0)
  -- The short jump leads over the exit exactly when the offset is within the limit.
  have hjump : X86.exec (.jccShort .belowEqual 15) (s₂.goto next) = some s₃ := by
    show (s₁.cpu.flags.bind _) = _
    rw [hflags, Option.bind_some, hcond]
    by_cases hle : s.cpu.reg .rax ≤ limit.toUInt64
    · simp only [s₃, hle, decide_true, if_true]
      rfl
    · simp only [s₃, hle, decide_false, if_false, UInt64.add_zero]
      rfl
  obtain ⟨hstep, -⟩ := l.runs_exec (s := s₂) h₁.keeps rfl hjump
  exact ⟨s₃, hruns.trans hstep, h₁.goto _, hrax, rfl⟩

/-- An offset that passes the check goes on behind it, any other ends in a fault. -/
theorem runs_guard {pc limit : Int64}
    (l : x.Loads (pre ++ insts (Lower.stackGuard pc limit) ++ post)) (hosts : x.Hosts m)
    (h : InStep x m s) (hrip : s.cpu.rip = behind x.place.code pre) :
    ∃ n s', n ≤ (insts (Lower.stackGuard pc limit)).length ∧ Runs x.place.returnAddress n s s' ∧
      if passes limit (s.cpu.reg .rax) then
        InStep x m s' ∧ s'.cpu.reg .rax = s.cpu.reg .rax ∧
          s'.cpu.rip = behind x.place.code (pre ++ insts (Lower.stackGuard pc limit))
      else Returned x m (Lower.token pc Lower.faultMark) s' := by
  by_cases hneg : limit < 0
  · -- No offset can pass: the check is the exit alone.
    have hguard : Lower.stackGuard pc limit = Lower.faultExit pc := by
      rw [Lower.stackGuard, if_pos hneg]
    have hfails : passes limit (s.cpu.reg .rax) = false := by
      rw [passes, decide_eq_false (Int64.not_le.mpr hneg), Bool.false_and]
    rw [hguard] at l ⊢
    obtain ⟨s', hruns, hreturned⟩ := runs_faultExit l hosts h hrip
    refine ⟨3, s', Nat.le_refl 3, hruns, ?_⟩
    rw [hfails]
    exact hreturned
  · have hpasses : passes limit (s.cpu.reg .rax) = decide (s.cpu.reg .rax ≤ limit.toUInt64) := by
      rw [passes, decide_eq_true (Int64.not_lt.mp hneg), Bool.true_and]
    rw [insts_stackGuard pc hneg] at l ⊢
    rw [hpasses]
    have hcode : pre ++
        (compareLimit limit ++ .jccShort .belowEqual 15 :: insts (Lower.faultExit pc))
        ++ post = pre ++ compareLimit limit ++
          .jccShort .belowEqual 15 :: (insts (Lower.faultExit pc) ++ post) := by
      simp only [List.append_assoc, List.cons_append]
    rw [hcode] at l
    let next := pre ++ compareLimit limit ++ [X86.Inst.jccShort .belowEqual 15]
    obtain ⟨s₁, hruns, h₁, hrax, hrip₁⟩ := runs_compareLimit l h hrip
    by_cases hle : s.cpu.reg .rax ≤ limit.toUInt64
    · rw [if_pos hle] at hrip₁
      refine ⟨_, s₁, ?_, hruns, ?_⟩
      · simp only [List.length_append, List.length_cons]
        omega
      · rw [decide_eq_true hle]
        refine ⟨h₁, hrax, ?_⟩
        -- The exit is what the jump skips.
        have hbehind := X86.behind_append x.place.code next (insts (Lower.faultExit pc))
        rw [length_faultExit] at hbehind
        rw [hrip₁, show (15 : UInt64) = UInt64.ofNat 15 from rfl, ← hbehind]
        simp only [next, List.append_assoc, List.cons_append, List.nil_append]
    · rw [if_neg hle, UInt64.add_zero] at hrip₁
      have l' : x.Loads (next ++ insts (Lower.faultExit pc) ++ post) := by
        simpa only [next, List.append_assoc, List.cons_append, List.nil_append] using l
      obtain ⟨s', hexit, hreturned⟩ := runs_faultExit l' hosts h₁ hrip₁
      refine ⟨_, s', ?_, hruns.trans hexit, ?_⟩
      · have hlen : (insts (Lower.faultExit pc)).length = 3 := rfl
        simp only [List.length_append, List.length_cons, hlen]
        omega
      · rw [decide_eq_false hle]
        exact hreturned

/-! ## One action -/

variable {i : Inst} {a : Action} {t : Target}

/-- The machine and the place where its code runs fit each other and the target of the code. -/
structure Fits (x : Site) (t : Target) (m : Machine) : Prop where
  hosts : x.Hosts m
  on : OnStack m
  base : t.stackBase = m.core.stack.base
  size : t.stackSize = Int64.ofNat m.core.stack.size

theorem Fits.size_le (h : Fits x t m) : m.core.stack.size + 4096 ≤ 2 ^ 63 :=
  (h.hosts.backed _ h.hosts.stack).size_le

theorem Fits.perform (h : Fits x t m) (hplain : a.isPlain = true) (ha : a.Lawful)
    (hdone : m.perform i a = (m', none)) : Fits x t m' ∧ m'.proc.global = m.proc.global := by
  obtain ⟨same, on⟩ := h.on.perform hplain ha h.size_le hdone
  refine ⟨⟨h.hosts.of_same same, on, ?_, ?_⟩, same.global⟩
  · rw [same.stack]
    exact h.base
  · rw [same.stack]
    exact h.size

/-- The run reaches a state in step with another machine behind some instructions. -/
def Reaches (x : Site) (m' : Machine) (is pre : List X86.Inst) (s : X86.State View) : Prop :=
  ∃ n s', n ≤ is.length ∧ Runs x.place.returnAddress n s s' ∧ InStep x m' s' ∧
    s'.cpu.rip = behind x.place.code (pre ++ is)

/-- The run returns a token before the end of some instructions. -/
def Leaves (x : Site) (m : Machine) (token : UInt64) (is : List X86.Inst) (s : X86.State View) :
    Prop :=
  ∃ n s', n ≤ is.length ∧ Runs x.place.returnAddress n s s' ∧ Returned x m token s'

/-- A stack instruction runs through the computation of its offset and then through the guard. -/
theorem runs_offset {r : RegRange} (l : x.Loads (pre ++ insts (a.lower t i.pc) ++ post))
    (hosts : x.Hosts m) (hmoved : a.moved = some r) (hbytes : r.bytes < 4096) (h : InStep x m s)
    (hrip : s.cpu.rip = behind x.place.code pre) :
    ∃ n s', n ≤
    (insts a.offsetCode).length + (insts (Lower.stackGuard i.pc (Lower.stackLimit t r))).length ∧
      Runs x.place.returnAddress n s s' ∧
      if passes (Lower.stackLimit t r) (offsetOf m a).toUInt64 then
        InStep x m s' ∧ s'.cpu.reg .rax = (offsetOf m a).toUInt64 ∧
          s'.cpu.rip = behind x.place.code (pre ++ insts a.offsetCode ++
            insts (Lower.stackGuard i.pc (Lower.stackLimit t r)))
      else Returned x m (Lower.token i.pc Lower.faultMark) s' := by
  rw [Action.lower_stack hmoved, Layout.insts_append, Layout.insts_append] at l
  obtain ⟨s₁, hexec, h₁, hrax⟩ := h.exec_offsetCode hmoved hbytes
  let guard := insts (Lower.stackGuard i.pc (Lower.stackLimit t r))
  have l₁ : x.Loads
      (pre ++ insts a.offsetCode ++ (guard ++ (insts (a.transferCode t) ++ post))) := by
    simpa only [guard, List.append_assoc] using l
  have l₂ : x.Loads (pre ++ insts a.offsetCode ++ guard ++ (insts (a.transferCode t) ++ post)) := by
    simpa only [List.append_assoc] using l₁
  obtain ⟨hruns, -⟩ := l₁.runs_execAll
    (Layout.isStraight_of_straight (Action.straight_offsetCode a)) h.keeps hrip hexec
  obtain ⟨n, s', hn, hguard, hcase⟩ := runs_guard l₂ hosts (h₁.goto _) rfl
  rw [X86.State.goto_reg, hrax] at hcase
  exact ⟨_, s', Nat.add_le_add_left hn _, hruns.trans hguard, hcase⟩

/-- An action that succeeds. -/
theorem runs_action (l : x.Loads (pre ++ insts (a.lower t i.pc) ++ post)) (fits : Fits x t m)
    (hplain : a.isPlain = true) (ha : a.Lawful) (h : InStep x m s)
    (hrip : s.cpu.rip = behind x.place.code pre) (hdone : m.perform i a = (m', none)) :
    Reaches x m' (insts (a.lower t i.pc)) pre s := by
  have hosts := fits.hosts
  cases hstack : a.isStack with
  | false =>
    obtain ⟨s', hexec, h'⟩ := h.exec_action hosts hplain hstack ha t hdone
    obtain ⟨hruns, -⟩ := l.runs_execAll
      (Layout.isStraight_of_straight (Action.straight_lower hplain hstack t i.pc))
      h.keeps hrip hexec
    exact ⟨_, _, Nat.le_refl _, hruns, h'.goto _, rfl⟩
  | true =>
    obtain ⟨r, hmoved⟩ := Action.moved_of_isStack hstack
    have hbytes := (toInt_offsetOf ha hmoved fits.on fits.size_le).1
    obtain ⟨n, s₁, hn, hruns, hcase⟩ := runs_offset l hosts hmoved (by omega) h hrip
    -- The action succeeds, so its offset passes the guard and the exit is jumped over.
    rw [passes_iff ha hmoved fits.on fits.size_le fits.size, (inBounds_of_done hmoved hdone).1]
      at hcase
    obtain ⟨h₁, hrax, hrip₁⟩ := hcase
    obtain ⟨s', hexec, h'⟩ := h₁.exec_transfer hosts fits.base ha hmoved hrax hdone
    rw [Action.lower_stack hmoved, Layout.insts_append, Layout.insts_append] at l ⊢
    have l' : x.Loads (pre ++ insts a.offsetCode ++
        insts (Lower.stackGuard i.pc (Lower.stackLimit t r)) ++
        insts (a.transferCode t) ++ post) := by
      simpa only [List.append_assoc] using l
    obtain ⟨htransfer, -⟩ := l'.runs_execAll
      (Layout.isStraight_of_straight (Action.straight_transferCode t a)) h₁.keeps hrip₁ hexec
    refine ⟨_, _, ?_, hruns.trans htransfer, h'.goto _, ?_⟩
    · simp only [List.length_append]
      omega
    · rw [X86.State.goto_rip]
      simp only [List.append_assoc]

/-- A stack action that fails. -/
theorem leaves_action {e : Stop} (l : x.Loads (pre ++ insts (a.lower t i.pc) ++ post))
    (fits : Fits x t m) (hstack : a.isStack = true) (ha : a.Lawful) (h : InStep x m s)
    (hrip : s.cpu.rip = behind x.place.code pre)
    (hfailed : m.perform i a = (m', some e)) :
    Leaves x m (Lower.token i.pc Lower.faultMark) (insts (a.lower t i.pc)) s := by
  obtain ⟨r, hmoved⟩ := Action.moved_of_isStack hstack
  have hbytes := (toInt_offsetOf ha hmoved fits.on fits.size_le).1
  obtain ⟨n, s', hn, hruns, hcase⟩ := runs_offset l fits.hosts hmoved (by omega) h hrip
  rw [passes_iff ha hmoved fits.on fits.size_le fits.size,
    inBounds_of_failed ha hmoved fits.on fits.size_le hfailed] at hcase
  refine ⟨n, s', ?_, hruns, hcase⟩
  rw [Action.lower_stack hmoved, Layout.insts_append, Layout.insts_append]
  simp only [List.length_append]
  omega

/-! ## Runs of instructions -/

/-- The instruction asks for the action, which is plain. -/
structure IsStep (size : Nat) (p : Inst × Action) : Prop where
  prepared : Action.ofInst p.1 (Int64.ofNat size) = .ok p.2
  lawful : p.2.Lawful
  plain : p.2.isPlain = true

/-- Stepping through a decoded instruction performs its prepared action. -/
theorem IsStep.step_eq {p : Inst × Action} (h : IsStep m.proc.global.size p) :
    m.step p.1 = m.perform p.1 p.2 := by
  rw [Machine.step, h.prepared]

/-- The instructions of the machine code of a run. -/
def codeOf (t : Target) (steps : List (Inst × Action)) : List X86.Inst :=
  insts (steps.flatMap fun (i, a) => a.lower t i.pc)

theorem codeOf_append (t : Target) (p q : List (Inst × Action)) :
    codeOf t (p ++ q) = codeOf t p ++ codeOf t q := by
  rw [codeOf, List.flatMap_append, Layout.insts_append]
  rfl

theorem codeOf_cons (t : Target) (p : Inst × Action) (q : List (Inst × Action)) :
    codeOf t (p :: q) = insts (p.2.lower t p.1.pc) ++ codeOf t q := by
  rw [codeOf, List.flatMap_cons, Layout.insts_append]
  rfl

/-- Instructions that succeed one after the other. -/
theorem runs_steps {steps : List (Inst × Action)}
    (hsteps : ∀ p ∈ steps, IsStep m.proc.global.size p)
    (l : x.Loads (pre ++ codeOf t steps ++ post)) (fits : Fits x t m) (h : InStep x m s)
    (hrip : s.cpu.rip = behind x.place.code pre)
    (hdone : stepAll (steps.map (·.1)) m = (m', none)) :
    Reaches x m' (codeOf t steps) pre s ∧ Fits x t m' ∧ m'.proc.global = m.proc.global := by
  -- The code of the instructions that are done moves from `steps` to `pre`, so the address of the
  -- processor is always the end of `pre`.
  induction steps generalizing m s pre with
  | nil =>
    cases hdone
    refine ⟨⟨0, s, Nat.le_refl 0, .refl s, h, ?_⟩, fits, rfl⟩
    rw [hrip, codeOf, List.flatMap_nil, Layout.insts_nil, List.append_nil]
  | cons p steps ih =>
    have hp := hsteps p (List.mem_cons_self ..)
    rw [List.map_cons, stepAll, hp.step_eq] at hdone
    split at hdone
    · cases hdone
    next m₁ hperform =>
      rw [codeOf_cons] at l ⊢
      let head := insts (p.2.lower t p.1.pc)
      have l₁ : x.Loads (pre ++ head ++ (codeOf t steps ++ post)) := by
        simpa only [head, List.append_assoc] using l
      have l₂ : x.Loads (pre ++ head ++ codeOf t steps ++ post) := by
        simpa only [List.append_assoc] using l₁
      obtain ⟨n, s₁, hn, hruns, h₁, hrip₁⟩ :=
        runs_action l₁ fits hp.plain hp.lawful h hrip hperform
      obtain ⟨fits₁, hglobal⟩ := fits.perform hp.plain hp.lawful hperform
      obtain ⟨⟨k, s', hk, hruns', h', hrip'⟩, fits', hglobal'⟩ := ih
        (fun q hq => by rw [hglobal]; exact hsteps q (List.mem_cons_of_mem _ hq))
        l₂ fits₁ h₁ hrip₁ hdone
      refine ⟨⟨n + k, s', ?_, hruns.trans hruns', h', ?_⟩, fits', hglobal'.trans hglobal⟩
      · rw [List.length_append]
        omega
      · rw [hrip', List.append_assoc]

/-! ## Blocks -/

/-- Machine code that does not overlap the register file is not as long as the address space. -/
theorem Placement.Apart.codeSize_le {p : Placement} {n : Nat} {arenas : List Arena}
    (h : p.Apart n arenas) : n ≤ 2 ^ 64 := by
  apply Nat.le_of_not_lt
  intro hlong
  -- The code would then cover every address, that of the register file too.
  have hin : (p.codeRegion n).has p.file = true := by
    have := (p.file - p.code).toNat_lt
    exact decide_eq_true (by show (p.file - p.code).toNat < n; omega)
  have hfile := (View.file_offset p (show 0 < 3080 by decide)).1
  rw [show p.file + UInt64.ofNat 0 = p.file from UInt64.add_zero _] at hfile
  rw [h.code_file _ hin] at hfile
  cases hfile

variable {exec : ExecMemory} {increment start : Int64} {b : Block}

theorem isStep_of_mem {p : Inst × Action} (hp : p ∈ (m.runAt start).steps)
    (hplain : p.1.family.isPlain = true) : IsStep m.proc.global.size p := by
  have prepared := Machine.prepared_of_mem_take hp
  obtain ⟨pc, decoded⟩ := Machine.decoded_of_mem_take hp
  obtain ⟨-, ops, -, hof⟩ := Action.ofInst_eq_ok prepared
  exact ⟨prepared, Action.lawful_of_ofInst decoded prepared, Action.isPlain_of? hof hplain⟩

/-- The machine code of a plain block: an entry, the code of its instructions and an exit. -/
theorem loads_block
    (compiled : compile exec m.proc.program.code m.codeTarget increment start = .ok b)
    (hsteps : ∀ p ∈ (m.runAt start).steps, IsStep m.proc.global.size p) (hcode : x.code = b.code)
    (hosts : x.Hosts m) :
    x.Loads (insts Lower.enter ++ codeOf m.codeTarget (m.runAt start).steps ++ insts Lower.finish) ∧
      b.code.size = (X86.encodeAll (insts Lower.enter ++
        codeOf m.codeTarget (m.runAt start).steps ++ insts Lower.finish)).length := by
  -- Of the three ends of a compilation only one gives a block.
  have hrun : b.IsRun m.proc.program.code m.codeTarget start := by
    rcases compile_cases exec m.proc.program.code m.codeTarget increment start with
      ⟨b', hok, hrun⟩ | ⟨-, herror⟩ | ⟨e, -, herror⟩
    · rw [compiled] at hok
      cases hok
      exact hrun
    · rw [compiled] at herror
      cases herror
    · rw [compiled] at herror
      cases herror
  have hready := Run.ready_items m.codeTarget fun p hp => (hsteps p hp).plain
  have hitems : insts ((m.runAt start).items m.codeTarget) = insts Lower.enter ++
      codeOf m.codeTarget (m.runAt start).steps ++ insts Lower.finish := by
    rw [Run.items, Layout.insts_append, Layout.insts_append]
    rfl
  have hbytes : b.code = (X86.encodeAll (insts Lower.enter ++
      codeOf m.codeTarget (m.runAt start).steps ++ insts Lower.finish)).toArray := by
    rw [hrun.code_eq, ← hitems, ← Layout.flatten_pieces hready]
    rfl
  refine ⟨?_, by rw [hbytes, List.size_toArray]⟩
  have whole : x.code.toList = X86.encodeAll (insts Lower.enter ++
      codeOf m.codeTarget (m.runAt start).steps ++ insts Lower.finish) ++ [] := by
    rw [hcode, hbytes, List.append_nil]
  exact View.loaded whole (hitems ▸ Layout.valid_of_ready hready)
    hosts.apart.codeSize_le hosts.apart.code_file hosts.away

section Entry

variable (compiled : compile exec m.proc.program.code m.codeTarget increment start = .ok b)
  (plain : ∀ p ∈ (m.runAt start).steps, p.1.family.isPlain = true) (hcode : x.code = b.code)
  (hosts : x.Hosts m) (on : OnStack m) (hbase : m.core.regs.int globalReg = m.proc.global.base)
  (entered : Entered x m s)

include compiled plain hcode hosts on hbase entered

/-- A plain block is entered: its code lies in memory, and behind the first two instructions of it
stands the code of the core's instructions. -/
theorem enters_block :
    (∀ p ∈ (m.runAt start).steps, IsStep m.proc.global.size p) ∧ Fits x m.codeTarget m ∧
      x.Loads (insts Lower.enter ++ codeOf m.codeTarget (m.runAt start).steps ++
        insts Lower.finish) ∧
      (codeOf m.codeTarget (m.runAt start).steps).length + 5 ≤ b.code.size ∧
      ∃ s₁, Runs x.place.returnAddress 2 s s₁ ∧ InStep x m s₁ ∧
        s₁.cpu.rip = behind x.place.code (insts Lower.enter) := by
  have hsteps : ∀ p ∈ (m.runAt start).steps, IsStep m.proc.global.size p :=
    fun p hp => isStep_of_mem hp (plain p hp)
  obtain ⟨l, hsize⟩ := loads_block compiled hsteps hcode hosts
  -- Every instruction takes a byte at least.
  have hlength := X86.length_le_encodeAll (insts Lower.enter ++
    codeOf m.codeTarget (m.runAt start).steps ++ insts Lower.finish)
  rw [← hsize, List.length_append, List.length_append] at hlength
  have henter : (insts Lower.enter).length = 2 := rfl
  have hfinish : (insts Lower.finish).length = 3 := rfl
  have l₀ : x.Loads (insts Lower.enter ++
      (codeOf m.codeTarget (m.runAt start).steps ++ insts Lower.finish)) := by
    simpa only [List.append_assoc] using l
  exact ⟨hsteps, ⟨hosts, on, rfl, rfl⟩, l, by omega, runs_enter l₀ entered hbase⟩

/-- A plain block whose instructions the core can step through returns 0. It takes no more steps
than its code has bytes. -/
theorem returns_of_done (hdone : stepAll ((m.runAt start).steps.map (·.1)) m = (m', none)) :
    ∃ n s', n ≤ b.code.size ∧ Runs x.place.returnAddress n s s' ∧ Returned x m' 0 s' := by
  obtain ⟨hsteps, fits, l, hlength, s₁, hruns₁, h₁, hrip₁⟩ :=
    enters_block compiled plain hcode hosts on hbase entered
  obtain ⟨⟨n, s₂, hn, hruns₂, h₂, hrip₂⟩, fits₂, -⟩ := runs_steps hsteps l fits h₁ hrip₁ hdone
  obtain ⟨s', hruns₃, hreturned⟩ := runs_finish l fits₂.hosts h₂ hrip₂
  exact ⟨_, s', by omega, (hruns₁.trans hruns₂).trans hruns₃, hreturned⟩

/-- A plain block of which a stack instruction fails returns the token of its fault. -/
theorem returns_of_failed {before rest : List Inst} {m₁ m₂ : Machine} {e : Stop}
    (hsplit : (m.runAt start).steps.map (·.1) = before ++ i :: rest)
    (hdone : stepAll before m = (m₁, none)) (hfailed : m₁.step i = (m₂, some e))
    (hstack : i.family.isStack = true) :
    ∃ n s', n ≤ b.code.size ∧ Runs x.place.returnAddress n s s' ∧
      Returned x m₁ (Lower.token i.pc Lower.faultMark) s' := by
  obtain ⟨hsteps, fits, l, hlength, s₁, hruns₁, h₁, hrip₁⟩ :=
    enters_block compiled plain hcode hosts on hbase entered
  -- The instructions in front of the failing one succeed; its own code leaves the block, and what
  -- follows it is never reached.
  obtain ⟨before', tail, heq, rfl, htail⟩ := List.map_eq_append_iff.mp hsplit
  obtain ⟨p, rest', rfl, rfl, rfl⟩ := List.map_eq_cons_iff.mp htail
  rw [heq, codeOf_append, codeOf_cons] at l hlength
  have hp : IsStep m.proc.global.size p := hsteps p (by rw [heq]; simp)
  let here := insts (p.2.lower m.codeTarget p.1.pc)
  let behind := codeOf m.codeTarget rest' ++ insts Lower.finish
  have l₁ : x.Loads (insts Lower.enter ++ codeOf m.codeTarget before' ++ (here ++ behind)) := by
    simpa only [here, behind, List.append_assoc] using l
  have l₂ : x.Loads (insts Lower.enter ++ codeOf m.codeTarget before' ++ here ++ behind) := by
    simpa only [List.append_assoc] using l₁
  obtain ⟨⟨n, s₂, hn, hruns₂, h₂, hrip₂⟩, fits₂, hglobal⟩ := runs_steps
    (fun q hq => hsteps q (by rw [heq]; exact List.mem_append_left _ hq)) l₁ fits h₁ hrip₁ hdone
  have hp₁ : IsStep m₁.proc.global.size p := by rw [hglobal]; exact hp
  have hstack' : p.2.isStack = true := by
    obtain ⟨-, ops, -, hof⟩ := Action.ofInst_eq_ok hp.prepared
    rw [Action.isStack_of? hof]
    exact hstack
  rw [hp₁.step_eq] at hfailed
  obtain ⟨k, s', hk, hruns₃, hreturned⟩ :=
    leaves_action l₂ fits₂ hstack' hp.lawful h₂ hrip₂ hfailed
  simp only [List.length_append] at hlength
  exact ⟨_, s', by omega, (hruns₁.trans hruns₂).trans hruns₃, hreturned⟩

end Entry

/-- A block whose code was compiled for a core does what the core does when it steps through the
block's instructions: if every step succeeds the block returns 0, and if a stack instruction fails
first it returns the token of that instruction's fault. In both cases the processor's stack is as it
was before the call, and the registers and the memory are those of the core. -/
theorem native_simulates
    (compiled : compile exec m.proc.program.code m.codeTarget increment start = .ok b)
    (plain : ∀ p ∈ (m.runAt start).steps, p.1.family.isPlain = true)
    (hcode : x.code = b.code) (hosts : x.Hosts m) (on : OnStack m)
    (hbase : m.core.regs.int globalReg = m.proc.global.base) (entered : Entered x m s) :
    (∀ m', stepAll ((m.runAt start).steps.map (·.1)) m = (m', none) →
      ∃ s', X86.run x.place.returnAddress b.code.size s = some s' ∧ Returned x m' 0 s') ∧
    ∀ before i rest m₁ m₂ e, (m.runAt start).steps.map (·.1) = before ++ i :: rest →
      stepAll before m = (m₁, none) → m₁.step i = (m₂, some e) → i.family.isStack = true →
      ∃ s', X86.run x.place.returnAddress b.code.size s = some s' ∧
        Returned x m₁ (Lower.token i.pc Lower.faultMark) s' := by
  constructor
  · intro m' hdone
    obtain ⟨n, s', hn, hruns, hreturned⟩ :=
      returns_of_done compiled plain hcode hosts on hbase entered hdone
    exact ⟨s', hruns.run_eq hreturned.rip hn, hreturned⟩
  · intro before i rest m₁ m₂ e hsplit hdone hfailed hstack
    obtain ⟨n, s', hn, hruns, hreturned⟩ :=
      returns_of_failed compiled plain hcode hosts on hbase entered hsplit hdone hfailed hstack
    exact ⟨s', hruns.run_eq hreturned.rip hn, hreturned⟩

end

/-! ## The standard placement -/

/-- The standard placement keeps away from arenas that lie above it. -/
theorem Placement.apart_standard {n : Nat} {arenas : List Arena} (hn : n ≤ 0x10000000)
    (h : ∀ a ∈ arenas, 0x50000000 ≤ a.base.toNat ∧ a.base.toNat + a.size ≤ 2 ^ 64) :
    Placement.standard.Apart n arenas := by
  have hend : Placement.standard.code.toNat + n ≤ 0x50000000 := by
    show 0x40000000 + n ≤ 0x50000000
    omega
  -- The arenas are mapped above all that belongs to the native
  -- code, and that ends where they begin.
  have above : ∀ a ∈ arenas, ∀ r : Region, r.base.toNat + r.size ≤ 0x50000000 →
      (Region.usable a).Disjoint r := by
    intro a ha r hr
    obtain ⟨hlow, hhigh⟩ := h a ha
    exact (Region.disjoint_of_below (Nat.le_trans hr hlow) hhigh).2
  have below : ∀ r : Region, r.base.toNat + r.size ≤ 0x40000000 →
      r.Disjoint (standard.codeRegion n) ∧ (standard.codeRegion n).Disjoint r :=
    fun r hr => Region.disjoint_of_below hr (Nat.le_trans hend (by decide))
  have file_stack : standard.fileRegion.Disjoint standard.stackRegion ∧
      standard.stackRegion.Disjoint standard.fileRegion :=
    Region.disjoint_of_below (by decide) (by decide)
  exact {
    code_file := (below standard.fileRegion (by decide)).2
    stack_file := file_stack.2
    stack_code := (below standard.stackRegion (by decide)).1
    arena_file := fun a ha => above a ha _ (by decide)
    arena_code := fun a ha => above a ha (standard.codeRegion n) hend
    arena_stack := fun a ha => above a ha _ (by decide) }

/-- The standard placement, entered with an empty stack. -/
def Site.standard (code : Array UInt8) : Site :=
  ⟨.standard, code, Placement.standard.stackTop - 8⟩

/-- The standard placement can run the code of every machine whose arenas lie above it. -/
theorem Site.hosts_standard {m : Machine} {code : Array UInt8} (hcode : code.size ≤ 0x10000000)
    (arenas : ∀ a ∈ m.proc.space.arenas, View.Backed a ∧ 0x50000000 ≤ a.base.toNat)
    (global : m.proc.global ∈ m.proc.space.arenas) (stack : m.core.stack ∈ m.proc.space.arenas) :
    (Site.standard code).Hosts m := by
  have hfar : (Placement.standard.returnAddress - Placement.standard.code).toNat =
      2 ^ 64 - 0x10000000 := rfl
  have hroom : ∀ k < 48, Placement.standard.stackRegion.has
      (Placement.standard.stackTop - 8 - 40 + UInt64.ofNat k) = true := by decide
  refine ⟨Placement.apart_standard hcode ?_, fun a ha => (arenas a ha).1, global, stack, ?_, hroom⟩
  · intro a ha
    have := (arenas a ha).1.high
    exact ⟨(arenas a ha).2, by omega⟩
  · apply decide_eq_false
    show ¬ (Placement.standard.returnAddress - Placement.standard.code).toNat < code.size
    omega

/-- The arenas of a core, the only ones of its process, far above the code of its block. -/
theorem Site.hosts_core {p : Proc} {c : Core} {code : Array UInt8} (hcode : code.size ≤ 0x10000000)
    (arenas : p.space.arenas.Perm [c.data, c.stack, p.global])
    (place : ∀ a ∈ [c.data, c.stack, p.global], a.isOpen = true ∧ 0x50000000 ≤ a.base.toNat ∧
      a.base.toNat + a.mapped ≤ 2 ^ 63 ∧ a.size ≤ a.mapped) :
    (Site.standard code).Hosts ⟨c, p⟩ := by
  refine Site.hosts_standard hcode ?_ (arenas.mem_iff.mpr (by simp)) (arenas.mem_iff.mpr (by simp))
  intro a ha
  obtain ⟨hopen, hlow, hhigh, hle⟩ := place a (arenas.mem_iff.mp ha)
  exact ⟨⟨⟨hopen, by omega, by omega⟩, hle⟩, hlow⟩

/-- A new process of another code differs in its code only. -/
theorem new_code {program : Program} {o : Options} {p : Proc} (h : Proc.new program o = .ok p)
    (code : Array UInt8) : Proc.new { program with code := code } o =
      .ok { p with program := { p.program with code := code } } := by
  unfold Proc.new at h ⊢
  dsimp only at h ⊢
  split at h
  · cases h
  next made =>
    cases h
    rfl

/-- A new core does not depend on the code it will run. -/
theorem newCore_code {p p' : Proc} {c : Core} {start : Int64} {param : UInt64}
    (h : p.newCore start param = (p', .ok c)) (code : Array UInt8) :
    ({ p with program := { p.program with code := code } } : Proc).newCore start param =
      ({ p' with program := { p'.program with code := code } }, .ok c) := by
  unfold Proc.newCore at h ⊢
  dsimp only at h ⊢
  split at h
  · cases h
  next made =>
    cases h
    rfl

/-- A new core is alone in its process, and its arenas lie far above the code of a block. What its
program does makes no difference to that. -/
theorem newCore_of_code (code : Array UInt8) :
    ∃ p p' c, Proc.new ⟨⟨64, 64, 0, 0⟩, code, [1, 2, 3, 4]⟩ {} = .ok p ∧
      p.newCore 0 0 = (p', .ok c) ∧ p'.space.arenas.Perm [c.data, c.stack, p'.global] ∧
      p'.program.code = code ∧ Machine.codeTarget ⟨c, p'⟩ = ⟨4, 0x6d3f9a584000, 64⟩ ∧
      (∀ a ∈ [c.data, c.stack, p'.global], a.isOpen = true ∧ 0x50000000 ≤ a.base.toNat ∧
        a.base.toNat + a.mapped ≤ 2 ^ 63 ∧ a.size ≤ a.mapped) ∧
      c.regs.int globalReg = p'.global.base ∧ c.regs.sp = 0 := by
  obtain ⟨p, p', c, hp, made, arenas, htarget, hplace, hglobal, hsp⟩ :
      ∃ p p' c, Proc.new ⟨⟨64, 64, 0, 0⟩, #[], [1, 2, 3, 4]⟩ {} = .ok p ∧
        p.newCore 0 0 = (p', .ok c) ∧ p'.space.arenas.Perm [c.data, c.stack, p'.global] ∧
        Machine.codeTarget ⟨c, p'⟩ = ⟨4, 0x6d3f9a584000, 64⟩ ∧
        (∀ a ∈ [c.data, c.stack, p'.global], a.isOpen = true ∧ 0x50000000 ≤ a.base.toNat ∧
          a.base.toNat + a.mapped ≤ 2 ^ 63 ∧ a.size ≤ a.mapped) ∧
        c.regs.int globalReg = p'.global.base ∧ c.regs.sp = 0 := by
    refine ⟨_, _, _, rfl, Prod.ext rfl rfl, ?_, rfl, ?_, rfl, rfl⟩
    · exact (Space.perm_add _ _).trans
        (.cons _ ((Space.perm_add _ _).trans (.cons _ (Space.perm_add {} _))))
    · simp only [List.forall_mem_cons]
      refine ⟨⟨?_, ?_⟩, ⟨?_, ?_⟩, ⟨?_, ?_⟩, nofun⟩ <;> decide
  exact ⟨_, _, c, new_code hp code, newCore_code made code, arenas, rfl, htarget, hplace, hglobal,
    hsp⟩

/-- Where a core calls a block: the standard placement, with the return address on the stack. -/
theorem entered_standard (m : Machine) (b : Block) :
    Entered (.standard b.code) m ⟨entryCpu .standard Placement.standard.code,
      { m.view .standard b with
        scratch := ({} : Memory).setWord (Placement.standard.stackTop - 8) 8
          Placement.standard.returnAddress }⟩ :=
  ⟨⟨rfl, rfl, rfl, rfl, rfl⟩, Memory.word_setWord_qword _ _ _, rfl, rfl, rfl⟩

/-- A core that runs a plain block on the standard placement ends as it does when it steps through
the block's instructions. -/
theorem runBlock_of_done {m m' : Machine} {exec : ExecMemory} {increment start : Int64} {b : Block}
    (compiled : compile exec m.proc.program.code m.codeTarget increment start = .ok b)
    (plain : ∀ p ∈ (m.runAt start).steps, p.1.family.isPlain = true)
    (hosts : (Site.standard b.code).Hosts m) (on : OnStack m)
    (hbase : m.core.regs.int globalReg = m.proc.global.base)
    (hdone : stepAll ((m.runAt start).steps.map (·.1)) m = (m', none)) :
    ∃ v, m.runBlock b = (m.adopt v, none) ∧ Mirrors (.standard b.code) m' v := by
  obtain ⟨n, s', hn, hruns, hreturned⟩ :=
    returns_of_done compiled plain rfl hosts on hbase (entered_standard m b) hdone
  have hrun : X86.run Placement.standard.returnAddress (b.code.size + 1) _ = some s' :=
    hruns.run_eq hreturned.rip (by omega)
  have hentry : Placement.standard.code + (0 : UInt32).toUInt64 = Placement.standard.code := by
    decide
  have hcall : call (m.view .standard b) 0 = some (0, s'.mem) := by
    unfold call
    dsimp only [Machine.view]
    rw [hentry]
    unfold Machine.view at hrun
    rw [hrun, ← hreturned.rax]
    rfl
  refine ⟨s'.mem, ?_, hreturned.toMirrors⟩
  show m.resume b (b.code.size + 1) 0 = _
  unfold Machine.resume
  rw [hcall]
  exact if_pos rfl

def pushesOne : Program where
  header := ⟨64, 64, 0, 0⟩
  code := #[0x91, 0x00, 0x05]
  global := [1, 2, 3, 4]

def onlyPush : Inst :=
  ⟨0, Isa.Definition.info ⟨.push, 0, [.plain .reg]⟩ 145, [⟨.reg, 5⟩]⟩

theorem decode_pushesOne : Isa.decode pushesOne.code 0 = .ok onlyPush := by
  have hpeek : Isa.peek pushesOne.code 0 =
      .ok (Isa.Definition.info ⟨.push, 0, [.plain .reg]⟩ 145) :=
    @Isa.entry_eq_ok 0 145 _ rfl
  unfold Isa.decode
  rw [hpeek]
  rfl

theorem run_pushesOne :
    Run.at pushesOne.code 4 0 = ⟨[(onlyPush, .push ⟨false, 5, 1⟩)], 3, none⟩ := by
  have stop : Run.take pushesOne.code 4 3 3 = ⟨[], 3, none⟩ := by
    rw [Run.take, if_neg (by decide)]
  have next : onlyPush.next = 3 := rfl
  have action : Action.ofInst onlyPush 4 = .ok (.push ⟨false, 5, 1⟩) := rfl
  show Run.take pushesOne.code 4 4 0 = _
  rw [take_of_decode (by decide) decode_pushesOne rfl action, next, stop]

theorem compile_pushesOne :
    ∃ b, compile .unlimited pushesOne.code ⟨4, 0x6d3f9a584000, 64⟩ 0 0 = .ok b ∧
      b.code.size ≤ 4096 := by
  have hok : ((compile .unlimited pushesOne.code ⟨4, 0x6d3f9a584000, 64⟩ 0 0).toOption.any
      fun b => b.code.size ≤ 4096) = true := by
    unfold compile
    rw [show Run.at pushesOne.code 4 0 = _ from run_pushesOne]
    decide +kernel
  obtain ⟨b, hb, hsize⟩ := exists_of_any hok
  exact ⟨b, hb, of_decide_eq_true hsize⟩

/-- The block of `pushesOne` on a new core, run on the placement below all arenas. -/
theorem native_simulates_pushesOne : ∃ p p' c b m' s', Proc.new pushesOne {} = .ok p ∧
    p.newCore 0 0 = (p', .ok c) ∧
    compile .unlimited p'.program.code (Machine.codeTarget ⟨c, p'⟩) 0 0 = .ok b ∧
    stepAll [onlyPush] ⟨c, p'⟩ = (m', none) ∧
    Returned (.standard b.code) m' 0 s' := by
  obtain ⟨p, p', c, hp, made, arenas, hprogram, htarget, hplace, hglobal, hsp⟩ :=
    newCore_of_code pushesOne.code
  obtain ⟨m', hdone⟩ : ∃ m', stepAll [onlyPush] ⟨c, p'⟩ = (m', none) := by
    cases hp
    cases made
    exact ⟨_, Prod.ext rfl rfl⟩
  obtain ⟨b, compiled, hsize⟩ := compile_pushesOne
  rw [← hprogram, ← htarget] at compiled
  have hrun : (Machine.runAt ⟨c, p'⟩ 0).steps = [(onlyPush, .push ⟨false, 5, 1⟩)] := by
    show (Run.at p'.program.code (Machine.codeTarget ⟨c, p'⟩).globalSize 0).steps = _
    rw [hprogram, htarget, run_pushesOne]
  have plain : ∀ q ∈ (Machine.runAt ⟨c, p'⟩ 0).steps, q.1.family.isPlain = true := by
    intro q hq
    rw [hrun, List.mem_singleton] at hq
    subst hq
    rfl
  have on : OnStack ⟨c, p'⟩ := ⟨by rw [hsp]; decide, by rw [hsp]; exact Int.natCast_nonneg _⟩
  have hosts : (Site.standard b.code).Hosts ⟨c, p'⟩ := Site.hosts_core (by omega) arenas hplace
  obtain ⟨s', -, hreturned⟩ := (native_simulates compiled plain rfl hosts on hglobal
    (entered_standard ⟨c, p'⟩ b)).1 m' (by rw [hrun]; exact hdone)
  exact ⟨p, p', c, b, m', s', hp, made, compiled, hdone, hreturned⟩

end BlockVM.Native
