import BlockVM.Machine.Eval
import BlockVM.Proofs.Memory.Words

/-!
# Arithmetic at the width of the destination

`arith` computes on whole words and leaves it to the store to cut the result. `Access.low` is what a
store of a width keeps of a word. Sums, products, bitwise operations and left shifts of whole words
keep the operation on the low bits (`low_add`, `low_shiftLeft`); a right shift and a division need
operands that were cut before (`low_shiftRight`, `divide_eq`).

`ArithOp.Computes` says what an operation is on words of any width, with divisions in terms of
signed numbers, and `arith_is_exact` that `arith` is this operation on the low bits of its operands.
There is one such result (`Computes.unique`), so what is stored does not depend on anything else
(`store_arith_congr`).
-/

namespace BlockVM

open Isa (Inst)

/-! ## Operations on words of a width -/

/-- `r` is what a division of `x` by `y` toward zero leaves over. -/
structure IsRemainder (x y r : Int) : Prop where
  total : x = x.tdiv y * y + r
  lt : r.natAbs < y.natAbs
  nonneg : 0 ≤ x → 0 ≤ r
  nonpos : x ≤ 0 → r ≤ 0

theorem IsRemainder.unique {x y r r' : Int} (h : IsRemainder x y r) (h' : IsRemainder x y r') :
    r = r' :=
  Int.add_left_cancel (h.total.symm.trans h'.total)

/-- The remainder toward zero is one: it has the sign of the dividend. -/
theorem isRemainder_tmod {x y : Int} (hy : y ≠ 0) : IsRemainder x y (x.tmod y) where
  total := by rw [Int.mul_comm, Int.mul_tdiv_add_tmod]
  lt := by
    rw [Int.natAbs_tmod]
    exact Nat.mod_lt _ (Int.natAbs_pos.mpr hy)
  nonneg := Int.tmod_nonneg y
  nonpos h := by
    have hneg := Int.tmod_nonneg y (Int.neg_nonneg_of_nonpos h)
    rw [Int.neg_tmod] at hneg
    omega

variable {n : Nat}

/-- The quotient of `x` and `y` does not exist or is no signed word of `n` bits. -/
def NoQuotient (n : Nat) (x y : Int) : Prop := y = 0 ∨ (x = -2 ^ (n - 1) ∧ y = -1)

instance (x y : Int) : Decidable (NoQuotient n x y) := inferInstanceAs (Decidable (_ ∨ _))

namespace ArithOp

/-- `r` is the result of the operation on words of `n` bits. The count of a shift is taken modulo
`n`, a right shift fills with zeros, and a division is one of signed numbers, toward zero. -/
def Computes (op : ArithOp) (x y r : BitVec n) : Prop :=
  match op with
  | add => r = x + y
  | sub => r = x - y
  | mul => r = x * y
  | and => r = x &&& y
  | or => r = x ||| y
  | xor => r = x ^^^ y
  | shl => r = x <<< (y.toNat % n)
  | shr => r = x >>> (y.toNat % n)
  | div => r.toInt = x.toInt.tdiv y.toInt
  | mod => IsRemainder x.toInt y.toInt r.toInt

theorem Computes.unique {op : ArithOp} {x y r r' : BitVec n} (h : op.Computes x y r)
    (h' : op.Computes x y r') : r = r' := by
  cases op with
  | div => exact BitVec.toInt_inj.mp (h.trans h'.symm)
  | mod => exact BitVec.toInt_inj.mp (IsRemainder.unique h h')
  | _ => exact h.trans h'.symm

/-- The operation has no result. -/
def Undefined (op : ArithOp) (x y : BitVec n) : Prop :=
  (op = div ∨ op = mod) ∧ NoQuotient n x.toInt y.toInt

instance (op : ArithOp) (x y : BitVec n) : Decidable (op.Undefined x y) :=
  inferInstanceAs (Decidable ((_ ∨ _) ∧ _))

end ArithOp

/-! ## What a store keeps -/

namespace Access

/-- The bits of a word that a store keeps. -/
def low (w : Access) (v : UInt64) : BitVec w.bits := v.toBitVec.setWidth w.bits

variable (w : Access) (a b : UInt64)

theorem bits_le : w.bits ≤ 64 := by
  cases w <;> decide

theorem bits_pos : 0 < w.bits := by
  cases w <;> decide

theorem toNat_low : (w.low a).toNat = a.toNat % 2 ^ w.bits := by
  rw [low, BitVec.toNat_setWidth, UInt64.toNat_toBitVec]

/-- Words with the same low bits are stored as the same bytes. -/
theorem mod_eq_of_low {w : Access} {a b : UInt64} (h : w.low a = w.low b) :
    a.toNat % 256 ^ w.bytes = b.toNat % 256 ^ w.bytes := by
  have hmod := congrArg BitVec.toNat h
  rwa [toNat_low, toNat_low, bits, Nat.pow_mul] at hmod

theorem low_add : w.low (a + b) = w.low a + w.low b := by
  rw [low, UInt64.toBitVec_add, BitVec.setWidth_add _ _ w.bits_le]
  rfl

theorem low_sub : w.low (a - b) = w.low a - w.low b := by
  have hback : w.low (a - b) + w.low b = w.low a := by rw [← low_add, UInt64.sub_add_cancel]
  rw [← hback, BitVec.add_sub_cancel]

theorem low_mul : w.low (a * b) = w.low a * w.low b := by
  rw [low, UInt64.toBitVec_mul, BitVec.setWidth_mul _ _ w.bits_le]
  rfl

theorem low_and : w.low (a &&& b) = w.low a &&& w.low b := by
  rw [low, UInt64.toBitVec_and, BitVec.setWidth_and]
  rfl

theorem low_or : w.low (a ||| b) = w.low a ||| w.low b := by
  rw [low, UInt64.toBitVec_or, BitVec.setWidth_or]
  rfl

theorem low_xor : w.low (a ^^^ b) = w.low a ^^^ w.low b := by
  rw [low, UInt64.toBitVec_xor, BitVec.setWidth_xor]
  rfl

/-- A word of the width, extended with zeros, is itself at its width. -/
theorem low_extended (x : BitVec w.bits) : w.low ⟨x.setWidth 64⟩ = x := by
  rw [low, BitVec.setWidth_setWidth_of_le _ w.bits_le, BitVec.setWidth_eq]

end Access

/-! ## Shifts -/

section Shift

variable {w : Access} (hw : w ≠ .byte) (a b : UInt64)

include hw

/-- The count of a shift is taken from the low bits, modulo the width. -/
theorem toNat_shiftCount : (shiftCount w b).toNat = (w.low b).toNat % w.bits := by
  rw [Access.toNat_low]
  cases w with
  | byte => exact absurd rfl hw
  | dword =>
    show (b &&& 31).toNat = b.toNat % 2 ^ 32 % 32
    rw [UInt64.toNat_and, show (31 : UInt64).toNat = 2 ^ 5 - 1 from rfl,
      Nat.and_two_pow_sub_one_eq_mod]
    omega
  | qword =>
    show (b &&& 63).toNat = b.toNat % 2 ^ 64 % 64
    rw [UInt64.toNat_and, show (63 : UInt64).toNat = 2 ^ 6 - 1 from rfl,
      Nat.and_two_pow_sub_one_eq_mod]
    omega

theorem shiftCount_lt : (shiftCount w b).toNat < w.bits := by
  rw [toNat_shiftCount hw]
  exact Nat.mod_lt _ w.bits_pos

/-- The amount by which whole words are shifted. -/
theorem toNat_shiftCount_mod : (shiftCount w b).toNat % 64 = (w.low b).toNat % w.bits := by
  have hlt := shiftCount_lt hw b
  have hle := w.bits_le
  rw [Nat.mod_eq_of_lt (by omega), toNat_shiftCount hw]

/-- Bits only move up in a left shift, so it can be cut afterwards. -/
theorem low_shiftLeft : w.low (a <<< shiftCount w b) = w.low a <<< ((w.low b).toNat % w.bits) := by
  apply BitVec.eq_of_toNat_eq
  rw [Access.toNat_low, BitVec.toNat_shiftLeft, Access.toNat_low, UInt64.toNat_shiftLeft,
    toNat_shiftCount_mod hw, Nat.shiftLeft_eq, Nat.shiftLeft_eq,
    Nat.mod_mod_of_dvd _ (Nat.pow_dvd_pow 2 w.bits_le), Nat.mod_mul_mod]

/-- Bits move down in a right shift, so what is shifted must have been cut before. -/
theorem low_shiftRight {v : UInt64} (hv : v.toNat = (w.low a).toNat) :
    w.low (v >>> shiftCount w b) = w.low a >>> ((w.low b).toNat % w.bits) := by
  apply BitVec.eq_of_toNat_eq
  rw [Access.toNat_low, BitVec.toNat_ushiftRight, UInt64.toNat_shiftRight,
    toNat_shiftCount_mod hw, hv]
  exact Nat.mod_eq_of_lt (Nat.lt_of_le_of_lt (Nat.shiftRight_le _ _) (w.low a).isLt)

end Shift

/-! ## Divisions -/

/-- Where there is a quotient, the division of words gives it. -/
theorem toInt_sdiv_of_quotient (hn : 0 < n) {x y : BitVec n} (h : ¬ NoQuotient n x.toInt y.toInt) :
    (x.sdiv y).toInt = x.toInt.tdiv y.toInt := by
  have hone : (-1#n).toInt = -1 := by
    rw [BitVec.neg_one_eq_allOnes, BitVec.toInt_allOnes, if_pos hn]
  apply BitVec.toInt_sdiv_of_ne_or_ne
  by_cases hmin : x = BitVec.intMin n
  · refine .inr fun hy => h (.inr ⟨?_, hy ▸ hone⟩)
    rw [hmin, BitVec.toInt_intMin_of_pos hn]
  · exact .inl hmin

/-- A division looks at the low bits of its operands only. -/
theorem divide_eq (i : Inst) (remainder : Bool) {w : Access} (hw : w ≠ .byte) (a b : UInt64) :
    divide i remainder w a b =
      if NoQuotient w.bits (w.low a).toInt (w.low b).toInt then
        .error (divideFault i (w.low a).toInt (w.low b).toInt)
      else .ok ⟨(if remainder then (w.low a).srem (w.low b)
        else (w.low a).sdiv (w.low b)).setWidth 64⟩ := by
  -- Both widths divide signed words, whose bits are the low bits of the operands.
  cases w with
  | byte => exact absurd rfl hw
  | dword =>
    have hlow : ∀ v : UInt64, v.toUInt32.toInt32.toBitVec = Access.low .dword v :=
      UInt64.toBitVec_toUInt32
    rw [← hlow, ← hlow]
    show divide32 i remainder a.toUInt32.toInt32 b.toUInt32.toInt32 = _
    generalize a.toUInt32.toInt32 = x, b.toUInt32.toInt32 = y
    have hcond : (y = 0 ∨ (x = Int32.minValue ∧ y = -1)) = NoQuotient 32 x.toInt y.toInt := by
      rw [← Int32.toInt_inj, ← Int32.toInt_inj, ← Int32.toInt_inj]
      rfl
    refine ite_congr hcond (fun _ => rfl) fun _ => ?_
    cases remainder <;> rfl
  | qword =>
    have hlow : ∀ v : UInt64, v.toInt64.toBitVec = Access.low .qword v := fun v =>
      (BitVec.setWidth_eq v.toBitVec).symm
    rw [← hlow, ← hlow]
    show divide64 i remainder a.toInt64 b.toInt64 = _
    generalize a.toInt64 = x, b.toInt64 = y
    have hcond : (y = 0 ∨ (x = Int64.minValue ∧ y = -1)) = NoQuotient 64 x.toInt y.toInt := by
      rw [← Int64.toInt_inj, ← Int64.toInt_inj, ← Int64.toInt_inj]
      rfl
    refine ite_congr hcond (fun _ => rfl) fun _ => ?_
    cases remainder <;> exact congrArg (Except.ok ∘ UInt64.ofBitVec) (BitVec.setWidth_eq _).symm

/-! ## All operations -/

section Arith

variable (i : Inst) (op : ArithOp) {w : Access} (hw : w ≠ .byte) (a b : UInt64)

include hw

/-- Where there is none, the operation fails and says what it would have divided. -/
theorem arith_of_undefined (h : op.Undefined (w.low a) (w.low b)) :
    arith i op w a b = .error (divideFault i (w.low a).toInt (w.low b).toInt) := by
  obtain ⟨rfl | rfl, hnone⟩ := h
  · exact (divide_eq i false hw a b).trans (if_pos hnone)
  · exact (divide_eq i true hw a b).trans (if_pos hnone)

/-- Everywhere else it gives the result, one case for each operation. -/
theorem arith_of_defined (h : ¬ op.Undefined (w.low a) (w.low b)) :
    ∃ r, arith i op w a b = .ok r ∧ op.Computes (w.low a) (w.low b) (w.low r) := by
  cases op with
  | add => exact ⟨_, rfl, w.low_add a b⟩
  | sub => exact ⟨_, rfl, w.low_sub a b⟩
  | mul => exact ⟨_, rfl, w.low_mul a b⟩
  | and => exact ⟨_, rfl, w.low_and a b⟩
  | or => exact ⟨_, rfl, w.low_or a b⟩
  | xor => exact ⟨_, rfl, w.low_xor a b⟩
  | shl => exact ⟨_, rfl, low_shiftLeft hw a b⟩
  | shr =>
    -- The count is masked by the width of the operands, so the two widths differ here.
    cases w with
    | byte => exact absurd rfl hw
    | dword =>
      refine ⟨_, rfl, low_shiftRight hw a b ?_⟩
      rw [Access.toNat_low, UInt32.toNat_toUInt64, UInt64.toNat_toUInt32]
      rfl
    | qword =>
      refine ⟨_, rfl, low_shiftRight hw a b ?_⟩
      rw [Access.toNat_low]
      exact (Nat.mod_eq_of_lt a.toNat_lt).symm
  | div =>
    have hquot : ¬ NoQuotient w.bits (w.low a).toInt (w.low b).toInt := fun hnone =>
      h ⟨.inl rfl, hnone⟩
    refine ⟨_, (divide_eq i false hw a b).trans (if_neg hquot), ?_⟩
    rw [Access.low_extended]
    exact toInt_sdiv_of_quotient w.bits_pos hquot
  | mod =>
    have hquot : ¬ NoQuotient w.bits (w.low a).toInt (w.low b).toInt := fun hnone =>
      h ⟨.inr rfl, hnone⟩
    refine ⟨_, (divide_eq i true hw a b).trans (if_neg hquot), ?_⟩
    rw [Access.low_extended]
    show IsRemainder _ _ (BitVec.srem _ _).toInt
    rw [BitVec.toInt_srem]
    exact isRemainder_tmod fun hzero => hquot (.inl hzero)

theorem arith_error_iff :
    (∃ e, arith i op w a b = .error e) ↔ op.Undefined (w.low a) (w.low b) := by
  constructor
  · rintro ⟨e, he⟩
    by_cases h : op.Undefined (w.low a) (w.low b)
    · exact h
    · obtain ⟨r, hr, -⟩ := arith_of_defined i op hw a b h
      rw [hr] at he
      cases he
  · intro h
    exact ⟨_, arith_of_undefined i op hw a b h⟩

end Arith

/-! ## Stored results -/

/-- A write at a width depends on the low bits of the value. -/
theorem Arena.write_congr {x : Arena} {mem : Memory} {off : Int64} {w : Access} {u v : UInt64}
    (h : w.low u = w.low v) :
    x.write mem off (Int64.ofNat w.bytes) u = x.write mem off (Int64.ofNat w.bytes) v := by
  have hbytes : (Int64.ofNat w.bytes).toNatClampNeg = w.bytes := by
    cases w <;> rfl
  simp only [write, Memory.setWord, hbytes, LittleEndian.bytes_congr (Access.mod_eq_of_low h)]

/-- A store keeps the low bits of a word. -/
theorem Machine.write_congr {m : Machine} {i : Inst} {dst : Operand} {u v : UInt64}
    (h : dst.width.low u = dst.width.low v) : m.write i dst u = m.write i dst v := by
  cases dst with
  | reg r =>
    have hsame : u = v := by
      rw [← UInt64.toBitVec_inj, ← BitVec.setWidth_eq u.toBitVec, ← BitVec.setWidth_eq v.toBitVec]
      exact h
    rw [hsame]
  | global off w float =>
    have harena : ∀ mem off', m.proc.global.write mem off' (Int64.ofNat w.bytes) u
        = m.proc.global.write mem off' (Int64.ofNat w.bytes) v := fun _ _ => Arena.write_congr h
    simp only [write, harena]
  | pointer r w float =>
    have harena : ∀ (x : Arena) mem off', x.write mem off' (Int64.ofNat w.bytes) u
        = x.write mem off' (Int64.ofNat w.bytes) v := fun _ _ _ => Arena.write_congr h
    simp only [write, harena]
  | freg | imm | fimm => rfl

/-- What an operation stores at a destination, or how it fails, depends on the low bits of its
operands. -/
theorem store_arith_congr (i : Inst) (op : ArithOp) {m : Machine} {dst : Operand}
    (hw : dst.width ≠ .byte) {a a' b b' : UInt64} (ha : dst.width.low a' = dst.width.low a)
    (hb : dst.width.low b' = dst.width.low b) :
    (arith i op dst.width a' b' >>= m.write i dst) =
    (arith i op dst.width a b >>= m.write i dst) := by
  by_cases h : op.Undefined (dst.width.low a) (dst.width.low b)
  · rw [arith_of_undefined i op hw a b h,
      arith_of_undefined i op hw a' b' (by rwa [ha, hb]), ha, hb]
  · -- Low bits have one result, and a store keeps nothing else.
    obtain ⟨r, hr, hlow⟩ := arith_of_defined i op hw a b h
    obtain ⟨r', hr', hlow'⟩ := arith_of_defined i op hw a' b' (by rwa [ha, hb])
    rw [ha, hb] at hlow'
    rw [hr, hr']
    exact Machine.write_congr (hlow'.unique hlow)

/-- Integer operations are exact at the width of their destination. An operation fails, with a fault
of the division, exactly if it divides and there is no quotient; otherwise the low bits of its
result are the operation on the low bits of its operands. So what is stored at a destination of that
width, or how the instruction fails, depends on the low bits of the operands only. -/
theorem arith_is_exact (i : Inst) (op : ArithOp) {w : Access} (hw : w ≠ .byte) (a b : UInt64) :
    ((∃ e, arith i op w a b = .error e) ↔ op.Undefined (w.low a) (w.low b)) ∧
    (∀ e, arith i op w a b = .error e →
      e = .fault .divide i.pc
        (i.name ++ ": " ++ toString (w.low a).toInt ++ " / " ++ toString (w.low b).toInt)) ∧
    (¬ op.Undefined (w.low a) (w.low b) →
      ∃ r, arith i op w a b = .ok r ∧ op.Computes (w.low a) (w.low b) (w.low r)) ∧
    ∀ a' b' (m : Machine) dst, dst.width = w → w.low a' = w.low a → w.low b' = w.low b →
      (arith i op w a' b' >>= m.write i dst) = (arith i op w a b >>= m.write i dst) := by
  have hiff := arith_error_iff i op hw a b
  refine ⟨hiff, fun e he => ?_, arith_of_defined i op hw a b, ?_⟩
  · rw [arith_of_undefined i op hw a b (hiff.mp ⟨e, he⟩)] at he
    cases he
    rfl
  · rintro a' b' m dst rfl ha hb
    exact store_arith_congr i op hw ha hb

/-- The remainder of 32-bit global data by a register. -/
def globalRemainder : Inst :=
  ⟨0, Isa.Definition.info ⟨.mod, 0, [.plain .mem, .plain .reg]⟩ 64, [⟨.mem, 0⟩, ⟨.reg, 1⟩]⟩

/-- At 32 bits, -7 leaves -1 by 2, and the least number has no quotient by -1, whatever stands in
the upper halves. -/
theorem arith_is_exact_negative :
    (∃ r, arith globalRemainder .mod .dword 0x12345678fffffff9 0x9abcdef000000002 = .ok r ∧
      (Access.low .dword r).toInt = -1) ∧
    ∃ e, arith globalRemainder .mod .dword 0x180000000 0x2ffffffff = .error e := by
  obtain ⟨-, -, hdefined, -⟩ := arith_is_exact globalRemainder .mod (w := .dword) (by decide)
    0x12345678fffffff9 0x9abcdef000000002
  obtain ⟨r, hr, hrest⟩ := hdefined (by decide)
  have htotal := hrest.total
  rw [show (Access.low .dword 0x12345678fffffff9).toInt = -7 by decide,
    show (Access.low .dword 0x9abcdef000000002).toInt = 2 by decide,
    show Int.tdiv (-7) 2 = -3 by decide] at htotal
  refine ⟨⟨r, hr, by omega⟩, ?_⟩
  exact (arith_is_exact globalRemainder .mod (w := .dword)
    (by decide) 0x180000000 0x2ffffffff).1.mpr
    (by decide)

end BlockVM
