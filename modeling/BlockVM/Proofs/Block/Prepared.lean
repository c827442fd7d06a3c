import BlockVM.Block.Action
import BlockVM.Proofs.Isa.Decoded
import BlockVM.Proofs.Result

/-!
# What a prepared instruction asks for

An instruction is validated once, before its operands get their roles. `lawful_of_ofInst` says what
every later step may rely on: the action of a decoded instruction writes no reserved register, its
arithmetic is never that of single bytes, its ranges of registers are not empty and end inside the
file, and no range that is popped reaches the reserved registers.
-/

namespace BlockVM

open Isa (Inst Kind Family Decoded Shaped)

/-! ## Roles -/

namespace Isa.Family

/-- Instructions that move registers to or from the stack. -/
def isStack : Family → Bool
  | push | pop | pushes | pops | fpush | fpop | fpushes | fpops => true
  | _ => false

/-- Moves, integer arithmetic, integer comparisons and stack instructions: what a processor does
without float arithmetic and without the host. -/
def isPlain : Family → Bool
  | mov | movp | bmov | add | sub | mul | div | mod | and | or | xor | shl | shr | cmpe | cmpne
  | cmpg | cmpl | cmpge | cmple | nop => true
  | f => f.isStack

end Isa.Family

namespace Action

def isStack : Action → Bool
  | push _ | pop _ | pushRange _ | popRange _ => true
  | _ => false

def isPlain : Action → Bool
  | move .. | arith .. | compare .. | nop => true
  | a => a.isStack

def destination : Action → Option Operand
  | move dst _ | arith _ dst _ | compare _ dst _ | fcompare _ dst _ _ | fmove dst _
  | farith _ dst _ | service (.input dst _ _) | service (.finput dst _) => some dst
  | push _ | pop _ | pushRange _ | popRange _ | nop | service _ => none

def pushed : Action → Option RegRange
  | push r | pushRange r => some r
  | _ => none

def popped : Action → Option RegRange
  | pop r | popRange r => some r
  | _ => none

/-- What holds of every action that a decoded instruction asks for. -/
structure Lawful (a : Action) : Prop where
  free : ∀ r, a.destination = some (.reg r) → reserved r = false
  pushed : ∀ r, a.pushed = some r → 0 < r.count ∧ r.first.toNat + r.count ≤ 256
  popped : ∀ r, a.popped = some r → 0 < r.count ∧ r.first.toNat + r.count ≤ 256
  kept : ∀ r, a.popped = some r → r.float = false → r.first.toNat + r.count ≤ 254
  wide : ∀ op dst src, a = arith op dst src → dst.width ≠ .byte
  single : ∀ r, a = push r ∨ a = pop r → r.count = 1

end Action

/-! ## Operands -/

theorem toNatClampNeg_bytes (w : Access) : (Int64.ofNat w.bytes).toNatClampNeg = w.bytes := by
  cases w <;> rfl

/-- What the operand of a slot can stand for. -/
inductive Addressed (g : Int64) (a : Isa.Operand) : Operand → Prop
  | reg (kind : a.kind = .reg) : Addressed g a (.reg a.index)
  | freg (kind : a.kind = .freg) : Addressed g a (.freg a.index)
  | pointer (kind : a.kind.isPointer = true) :
      Addressed g a (.pointer a.index (Access.ofKind a.kind) a.kind.isFloat)
  | global (kind : a.kind.isGlobal = true)
      (fits : ¬ g < Int64.ofNat (a.low.toNat + (Access.ofKind a.kind).bytes)) :
      Addressed g a (.global a.low.toInt32 (Access.ofKind a.kind) a.kind.isFloat)
  | imm (kind : a.kind.isImmediate = true) : Addressed g a (.imm a.value)
  | fimm (kind : a.kind = .fimm) : Addressed g a (.fimm a.low)

/-- An operand that is resolved is addressed as its kind says; one case for each kind. -/
theorem addressed_of_operandOf {i : Inst} {slot : Nat} {a : Isa.Operand} {g : Int64} {o : Operand}
    (h : operandOf i slot a g = .ok o) : Addressed g a o := by
  unfold operandOf at h
  cases hk : a.kind <;> simp only [hk] at h
  case reg =>
    cases h
    exact .reg hk
  case freg =>
    cases h
    exact .freg hk
  case ptr | bytePtr | quadPtr | fptr =>
    cases h
    rw [← hk]
    exact .pointer (by rw [hk]; rfl)
  -- The only kinds that are checked: their bytes must lie in the global data.
  case mem | byteMem | quadMem | fmem =>
    split at h
    · cases h
    next hfits =>
      cases h
      rw [← hk] at hfits ⊢
      exact .global (by rw [hk]; rfl) hfits
  case imm8 | imm16 | imm32 | imm64 =>
    cases h
    exact .imm (by rw [hk]; rfl)
  case fimm =>
    cases h
    exact .fimm hk
  case addr | disp => cases h

/-- Operands are resolved from left to right, and the first refusal is the whole one's. -/
theorem operandsFrom_cons {i : Inst} {g : Int64} {slot : Nat} {a : Isa.Operand}
    {args : List Isa.Operand} {ops : List Operand}
    (h : operandsFrom i g slot (a :: args) = .ok ops) :
    ∃ o rest, operandOf i slot a g = .ok o ∧ operandsFrom i g (slot + 1) args = .ok rest ∧
      ops = o :: rest := by
  unfold operandsFrom at h
  obtain ⟨o, ho, h⟩ := bind_eq_ok.mp h
  obtain ⟨rest, hrest, h⟩ := bind_eq_ok.mp h
  cases h
  exact ⟨o, rest, ho, hrest, rfl⟩

/-- Every addressed operand comes from the operand of the same slot. -/
theorem operandsFrom_getElem? {i : Inst} {g : Int64} {slot k : Nat} {args : List Isa.Operand}
    {ops : List Operand} {o : Operand} (h : operandsFrom i g slot args = .ok ops)
    (hk : ops[k]? = some o) :
    ∃ a, args[k]? = some a ∧ operandOf i (slot + k) a g = .ok o := by
  -- Both lists are walked together; the slot counts what is behind.
  induction args generalizing slot k ops with
  | nil =>
    unfold operandsFrom at h
    cases h
    simp at hk
  | cons a args ih =>
    obtain ⟨o', rest, ho, hrest, rfl⟩ := operandsFrom_cons h
    cases k with
    | zero =>
      simp only [List.getElem?_cons_zero, Option.some.injEq] at hk
      subst hk
      exact ⟨a, rfl, ho⟩
    | succ k =>
      simp only [List.getElem?_cons_succ] at hk ⊢
      obtain ⟨a', ha', ho'⟩ := ih hrest hk
      rw [Nat.add_right_comm, Nat.add_assoc] at ho'
      exact ⟨a', ha', ho'⟩

/-- The operand of a slot, with the kind that the opcode gives the slot. -/
theorem addressed_of_operandsOf {code : Array UInt8} {pc g : Int64} {i : Inst}
    {ops : List Operand} {k : Nat} {o : Operand} (hi : Decoded code pc i)
    (h : operandsOf i g = .ok ops) (hk : ops[k]? = some o) :
    Addressed g (i.arg k) o ∧ i.info.kinds[k]? = some (i.arg k).kind := by
  obtain ⟨a, ha, ho⟩ := operandsFrom_getElem? h hk
  have harg : i.arg k = a := by
    simp only [Isa.Inst.arg, List.getD_eq_getElem?_getD, ha, Option.getD_some]
  rw [harg, ← hi.kinds_eq, List.getElem?_map, ha]
  exact ⟨addressed_of_operandOf ho, rfl⟩

theorem Addressed.index_eq {g : Int64} {a : Isa.Operand} {o : Operand} (h : Addressed g a o)
    (hk : a.kind = .reg ∨ a.kind = .freg) : o.index = a.index := by
  cases h with
  | reg | freg | pointer => rfl
  | global kind | imm kind | fimm kind =>
    rcases hk with hk | hk <;> rw [hk] at kind <;> cases kind

/-! ## Validation -/

/-- A register that is written is not reserved. -/
theorem free_of_validate {i : Inst} (h : validate i = .ok ()) (hr : isRange i.family = false)
    (hk : i.info.kinds.head? = some .reg) (hw : writesFirst i.family = true) :
    reserved (i.arg 0).index = false := by
  unfold validate at h
  rw [hr, hk, hw] at h
  simp only [Bool.false_eq_true, ↓reduceIte, true_and] at h
  split at h
  · cases h
  next hfree => exact Bool.eq_false_iff.mpr hfree

/-- A range has a register, and one that is popped ends below the reserved registers. -/
theorem ordered_of_validate {i : Inst} (h : validate i = .ok ()) (hr : isRange i.family = true) :
    (i.arg 0).index ≤ (i.arg 1).index ∧ (i.family = .pops → (i.arg 1).index < globalReg) := by
  unfold validate at h
  rw [hr] at h
  simp only [↓reduceIte] at h
  split at h
  · cases h
  next horder =>
    split at h
    · cases h
    next hpops =>
      refine ⟨UInt8.not_lt.mp horder, fun hf => ?_⟩
      exact UInt8.not_le.mp fun hle => hpops ⟨hf, hle⟩

/-! ## Actions -/

namespace Action

/-- Which action a family asks for on its operands; `w` is the width of a port access. -/
inductive Asked (w : Nat) : Family → List Operand → Action → Prop
  | move {f : Family} {dst src : Operand} (family : f = .mov ∨ f = .movp ∨ f = .bmov) :
      Asked w f [dst, src] (.move dst src)
  | arith {f : Family} {op : ArithOp} {dst src : Operand} (family : arith? f = some op) :
      Asked w f [dst, src] (.arith op dst src)
  | compare {f : Family} {rel : Relation} {dst src : Operand} (family : relation? f = some rel) :
      Asked w f [dst, src] (.compare rel dst src)
  | fcompare {f : Family} {rel : Relation} {dst a b : Operand}
      (family : floatRelation? f = some rel) : Asked w f [dst, a, b] (.fcompare rel dst a b)
  | fmove {f : Family} {dst src : Operand} (family : f = .fmov ∨ f = .fcon) :
      Asked w f [dst, src] (.fmove dst src)
  | farith {f : Family} {op : FloatOp} {dst src : Operand} (family : floatArith? f = some op) :
      Asked w f [dst, src] (.farith op dst src)
  | push (float : Bool) (o : Operand) :
      Asked w (if float then .fpush else .push) [o] (.push (.single float o))
  | pop (float : Bool) (o : Operand) :
      Asked w (if float then .fpop else .pop) [o] (.pop (.single float o))
  | pushRange (float : Bool) (o o' : Operand) :
      Asked w (if float then .fpushes else .pushes) [o, o'] (.pushRange (.between float o o'))
  | popRange (float : Bool) (o o' : Operand) :
      Asked w (if float then .fpops else .pops) [o, o'] (.popRange (.between float o o'))
  | nop : Asked w .nop [] .nop
  | time : Asked w .time [] (.service .time)
  | sleep : Asked w .sleep [] (.service .sleep)
  | rand : Asked w .rand [] (.service .rand)
  | output (p v : Operand) : Asked w .output [p, v] (.service (.output p v w))
  | input (dst p : Operand) : Asked w .input [dst, p] (.service (.input dst p w))
  | foutput (p v : Operand) : Asked w .foutput [p, v] (.service (.foutput p v))
  | finput (dst p : Operand) : Asked w .finput [dst, p] (.service (.finput dst p))
  | draw (x y image : Operand) : Asked w .draw [x, y, image] (.service (.draw x y image))

variable {f : Family} {w : Nat} {ops : List Operand} {a : Action}

theorem asked_of_ofNone? (h : ofNone? f = some a) : Asked w f [] a := by
  cases f <;> cases h
  · exact .nop
  · exact .time
  · exact .sleep
  · exact .rand

theorem asked_of_ofOne? {o : Operand} (h : ofOne? o f = some a) : Asked w f [o] a := by
  cases f <;> cases h
  · exact .push false o
  · exact .pop false o
  · exact .push true o
  · exact .pop true o

theorem asked_of_ofTwo? {o o' : Operand} (h : ofTwo? w o o' f = some a) : Asked w f [o, o'] a := by
  unfold ofTwo? at h
  split at h
  case h_14 =>
    -- No row of its own: arithmetic or a comparison.
    split at h <;> cases h
    next harith => exact .arith harith
    next hrel => exact .compare hrel
    next hfloat => exact .farith hfloat
  all_goals cases h
  · exact .move (.inl rfl)
  · exact .move (.inr (.inl rfl))
  · exact .move (.inr (.inr rfl))
  · exact .fmove (.inl rfl)
  · exact .fmove (.inr rfl)
  · exact .pushRange false o o'
  · exact .popRange false o o'
  · exact .pushRange true o o'
  · exact .popRange true o o'
  · exact .output o o'
  · exact .input o o'
  · exact .foutput o o'
  · exact .finput o o'

theorem asked_of_ofThree? {o o' o'' : Operand} (h : ofThree? o o' o'' f = some a) :
    Asked w f [o, o', o''] a := by
  unfold ofThree? at h
  split at h <;> cases h
  · exact .draw o o' o''
  next hrel => exact .fcompare hrel

/-- An action is what the family asks for: the cases by the number of operands, put together. -/
theorem asked_of_of? (h : of? f w ops = some a) : Asked w f ops a := by
  unfold of? at h
  split at h
  · exact asked_of_ofNone? h
  · exact asked_of_ofOne? h
  · exact asked_of_ofTwo? h
  · exact asked_of_ofThree? h
  · cases h

/-- Only families that write their first operand have a destination. -/
theorem head?_of_destination {dst : Operand} (h : of? f w ops = some a)
    (hd : a.destination = some dst) :
    ops.head? = some dst ∧ writesFirst f = true ∧ isRange f = false := by
  cases asked_of_of? h with
  | move family =>
    cases hd
    rcases family with rfl | rfl | rfl <;> exact ⟨rfl, rfl, rfl⟩
  | fmove family =>
    cases hd
    rcases family with rfl | rfl <;> exact ⟨rfl, rfl, rfl⟩
  | arith family | compare family | fcompare family | farith family =>
    cases hd
    cases f <;> cases family <;> exact ⟨rfl, rfl, rfl⟩
  | input | finput =>
    cases hd
    exact ⟨rfl, rfl, rfl⟩
  | _ => cases hd

/-- An action is a stack action exactly if its family is. -/
theorem isStack_of? (h : of? f w ops = some a) : a.isStack = f.isStack := by
  cases asked_of_of? h with
  | move family => rcases family with rfl | rfl | rfl <;> rfl
  | fmove family => rcases family with rfl | rfl <;> rfl
  | arith family | compare family | fcompare family | farith family =>
    cases f <;> cases family <;> rfl
  | push float | pop float | pushRange float | popRange float => cases float <;> rfl
  | _ => rfl

theorem isPlain_of? (h : of? f w ops = some a) (hf : f.isPlain = true) : a.isPlain = true := by
  cases asked_of_of? h with
  | fmove family => rcases family with rfl | rfl <;> cases hf
  | fcompare family | farith family => cases f <;> cases family <;> cases hf
  | move | arith | compare | push | pop | pushRange | popRange | nop => rfl
  | _ => cases hf

/-- Arithmetic is that of a family of arithmetic, on its two operands. -/
theorem arith_of? {op : ArithOp} {dst src : Operand} (h : of? f w ops = some (.arith op dst src)) :
    ops = [dst, src] ∧ arith? f = some op := by
  cases asked_of_of? h with
  | arith family => exact ⟨rfl, family⟩

theorem single_of? {r : RegRange} (h : of? f w ops = some a) (ha : a = .push r ∨ a = .pop r) :
    r.count = 1 := by
  cases asked_of_of? h with
  | push | pop =>
    rcases ha with ha | ha <;> cases ha
    rfl
  | _ => rcases ha with ha | ha <;> cases ha

/-- What a push pushes: a single register or all registers between two. -/
theorem range_of_pushed {r : RegRange} (h : of? f w ops = some a) (hp : a.pushed = some r) :
    (∃ o, ops = [o] ∧ r = .single r.float o ∧ f = if r.float then .fpush else .push) ∨
    (∃ o o', ops = [o, o'] ∧ r = .between r.float o o' ∧
      f = if r.float then .fpushes else .pushes) := by
  cases asked_of_of? h with
  | push float o =>
    cases hp
    exact .inl ⟨o, rfl, rfl, rfl⟩
  | pushRange float o o' =>
    cases hp
    exact .inr ⟨o, o', rfl, rfl, rfl⟩
  | _ => cases hp

theorem range_of_popped {r : RegRange} (h : of? f w ops = some a) (hp : a.popped = some r) :
    (∃ o, ops = [o] ∧ r = .single r.float o ∧ f = if r.float then .fpop else .pop) ∨
    (∃ o o', ops = [o, o'] ∧ r = .between r.float o o' ∧
      f = if r.float then .fpops else .pops) := by
  cases asked_of_of? h with
  | pop float o =>
    cases hp
    exact .inl ⟨o, rfl, rfl, rfl⟩
  | popRange float o o' =>
    cases hp
    exact .inr ⟨o, o', rfl, rfl, rfl⟩
  | _ => cases hp

/-- An instruction has an action exactly if it is valid, its operands are resolved and its family
asks for them. -/
theorem ofInst_eq_ok {i : Inst} {g : Int64} (h : ofInst i g = .ok a) :
    validate i = .ok () ∧
      ∃ ops, operandsOf i g = .ok ops ∧ of? i.family i.info.width ops = some a := by
  unfold ofInst prepare at h
  obtain ⟨ops, hops, h⟩ := bind_eq_ok.mp h
  obtain ⟨⟨⟩, hv, hops⟩ := bind_eq_ok.mp hops
  refine ⟨hv, ops, hops, ?_⟩
  split at h
  next found =>
    cases h
    exact found
  · cases h

/-- Registers that one instruction names. -/
theorem named_range {code : Array UInt8} {pc g : Int64} {i : Inst} {r : RegRange}
    (hi : Decoded code pc i) (hops : operandsOf i g = .ok ops) (hv : validate i = .ok ())
    (hkind : ∀ k ∈ i.info.kinds, k = .reg ∨ k = .freg)
    (h : (∃ o, ops = [o] ∧ r = .single r.float o) ∨
      (∃ o o', ops = [o, o'] ∧ r = .between r.float o o' ∧ isRange i.family = true)) :
    0 < r.count ∧ r.first.toNat + r.count ≤ 256 := by
  have hlt := r.first.toNat_lt
  rcases h with ⟨o, rfl, hr⟩ | ⟨o, o', rfl, hr, hf⟩
  · have hc : r.count = 1 := by rw [hr]; rfl
    omega
  · obtain ⟨ha, hka⟩ := addressed_of_operandsOf hi hops (k := 0) rfl
    obtain ⟨hb, hkb⟩ := addressed_of_operandsOf hi hops (k := 1) rfl
    have hia := ha.index_eq (hkind _ (List.mem_of_getElem? hka))
    have hib := hb.index_eq (hkind _ (List.mem_of_getElem? hkb))
    obtain ⟨horder, -⟩ := ordered_of_validate hv hf
    rw [← hia, ← hib, UInt8.le_iff_toNat_le] at horder
    have hlast := o'.index.toNat_lt
    have hfirst : r.first = o.index := by rw [hr]; rfl
    have hcount : r.count = o'.index.toNat + 1 - o.index.toNat := by rw [hr]; rfl
    rw [hfirst]
    omega

/-- A register that is not reserved lies below the two reserved ones. -/
theorem lt_of_not_reserved {r : UInt8} (h : reserved r = false) : r.toNat < 254 := by
  simp only [reserved, dataReg, globalReg, Bool.or_eq_false_iff, beq_eq_false_iff_ne, ne_eq,
    ← UInt8.toNat_inj] at h
  have := r.toNat_lt
  have h₁ : (255 : UInt8).toNat = 255 := rfl
  have h₂ : (254 : UInt8).toNat = 254 := rfl
  omega

/-- All operands of stack instructions are registers. -/
theorem kinds_of_isStack {f : Family} {kinds : List Kind} (hs : Shaped f kinds = true)
    (hf : f.isStack = true) : ∀ k ∈ kinds, k = .reg ∨ k = .freg := by
  cases f <;> cases hf <;> simp only [Shaped, beq_iff_eq] at hs <;> subst hs <;> simp

/-- The destination of arithmetic is a register or 32-bit memory. -/
theorem width_of_arith {g : Int64} {x : Isa.Operand} {o : Operand} {f : Family} {op : ArithOp}
    {kinds : List Kind} (hs : Shaped f kinds = true) (hf : arith? f = some op)
    (hk : kinds[0]? = some x.kind) (ho : Addressed g x o) : o.width ≠ .byte := by
  have hkind : x.kind = .reg ∨ x.kind = .mem ∨ x.kind = .ptr := by
    cases f <;> cases hf <;> simp only [Shaped] at hs <;> split at hs <;> simp_all
  cases ho with
  | reg | freg | imm | fimm => simp [Operand.width]
  | pointer kind | global kind =>
    show Access.ofKind x.kind ≠ .byte
    rcases hkind with hk | hk | hk <;> rw [hk] at kind ⊢ <;> cases kind
    decide

theorem isStack_of_pushed {r : RegRange} (h : of? f w ops = some a) (hp : a.pushed = some r) :
    f.isStack = true := by
  rw [← isStack_of? h]
  cases a <;> cases hp <;> rfl

theorem isStack_of_popped {r : RegRange} (h : of? f w ops = some a) (hp : a.popped = some r) :
    f.isStack = true := by
  rw [← isStack_of? h]
  cases a <;> cases hp <;> rfl

/-- A range that is popped into the integer registers ends below the reserved ones. -/
theorem kept_of_validate {code : Array UInt8} {pc g : Int64} {i : Inst} {r : RegRange}
    (hi : Decoded code pc i) (hops : operandsOf i g = .ok ops) (hv : validate i = .ok ())
    (hof : of? i.family i.info.width ops = some a) (hp : a.popped = some r)
    (hfloat : r.float = false) : r.first.toNat + r.count ≤ 254 := by
  have hshape := Isa.shaped_of_mem_table hi.known
  have hkind := kinds_of_isStack hshape (isStack_of_popped hof hp)
  obtain ⟨o, rfl, hr, hf⟩ | ⟨o, o', rfl, hr, hf⟩ := range_of_popped hof hp
  · rw [hfloat] at hf hr
    obtain ⟨ha, hk⟩ := addressed_of_operandsOf hi hops (k := 0) rfl
    have hia := ha.index_eq (hkind _ (List.mem_of_getElem? hk))
    have hpop : i.info.kinds = [.reg] := by
      rw [show i.info.family = .pop from hf] at hshape
      simpa only [Shaped, beq_iff_eq] using hshape
    have hfree := free_of_validate hv (by rw [hf]; rfl) (by rw [hpop]; rfl) (by rw [hf]; rfl)
    have := lt_of_not_reserved hfree
    rw [hr]
    show o.index.toNat + 1 ≤ 254
    rw [hia]
    omega
  · rw [hfloat] at hf hr
    obtain ⟨hb, hk⟩ := addressed_of_operandsOf hi hops (k := 1) rfl
    have hib := hb.index_eq (hkind _ (List.mem_of_getElem? hk))
    -- A range is checked by its last register: it is not before the first and not reserved.
    obtain ⟨hord, hlast⟩ := ordered_of_validate hv (by rw [hf]; rfl)
    have hlt := hlast hf
    rw [← hib, UInt8.lt_iff_toNat_lt] at hlt
    have hg : globalReg.toNat = 254 := rfl
    have hcount :=
      (named_range hi hops hv hkind (.inr ⟨o, o', rfl, hfloat ▸ hr, by rw [hf]; rfl⟩)).1
    rw [hr] at hcount ⊢
    simp only [RegRange.between] at hcount ⊢
    omega

/-- The action of a decoded instruction is lawful. -/
theorem lawful_of_ofInst {code : Array UInt8} {pc g : Int64} {i : Inst} (hi : Decoded code pc i)
    (h : ofInst i g = .ok a) : a.Lawful := by
  obtain ⟨hv, ops, hops, hof⟩ := ofInst_eq_ok h
  have hshape := Isa.shaped_of_mem_table hi.known
  constructor
  case free =>
    intro r hd
    -- Whatever is written first is checked not to be a reserved register.
    obtain ⟨hhead, hw, hr⟩ := head?_of_destination hof hd
    rw [List.head?_eq_getElem?] at hhead
    obtain ⟨ha, hk⟩ := addressed_of_operandsOf hi hops hhead
    cases ha with
    | reg kind =>
      rw [kind, ← List.head?_eq_getElem?] at hk
      exact free_of_validate hv hr hk hw
  case pushed =>
    intro r hp
    have hkind := kinds_of_isStack hshape (isStack_of_pushed hof hp)
    obtain ⟨o, rfl, hr, hf⟩ | ⟨o, o', rfl, hr, hf⟩ := range_of_pushed hof hp
    · exact named_range hi hops hv hkind (.inl ⟨o, rfl, hr⟩)
    · refine named_range hi hops hv hkind (.inr ⟨o, o', rfl, hr, ?_⟩)
      rw [hf]
      cases r.float <;> rfl
  case popped =>
    intro r hp
    have hkind := kinds_of_isStack hshape (isStack_of_popped hof hp)
    obtain ⟨o, rfl, hr, hf⟩ | ⟨o, o', rfl, hr, hf⟩ := range_of_popped hof hp
    · exact named_range hi hops hv hkind (.inl ⟨o, rfl, hr⟩)
    · refine named_range hi hops hv hkind (.inr ⟨o, o', rfl, hr, ?_⟩)
      rw [hf]
      cases r.float <;> rfl
  case kept => exact fun r hp hfloat => kept_of_validate hi hops hv hof hp hfloat
  case wide =>
    intro op dst src ha
    subst ha
    obtain ⟨rfl, hf⟩ := arith_of? hof
    obtain ⟨hdst, hk⟩ := addressed_of_operandsOf hi hops (k := 0) rfl
    exact width_of_arith hshape hf hk hdst
  case single => exact fun r ha => single_of? hof ha

end Action

end BlockVM
