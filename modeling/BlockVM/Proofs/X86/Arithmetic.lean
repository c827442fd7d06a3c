import BlockVM.Proofs.Memory.Words
import BlockVM.X86.Machine

/-!
# Arithmetic of the processor

What the instructions compute, in terms of words: the low bits of a sum, a product or a shift are
those of the operation on whole words (`Computes`, `truncate_mul`, `shift_shl`), a signed division
of a sign-extended dividend is the division of signed words, and after a comparison the conditions
say how the operands compare as signed or as unsigned numbers.
-/

namespace BlockVM.X86

namespace Size

variable (z : Size) (v w : UInt64)

theorem truncate_dword : truncate .dword v = v.toUInt32.toUInt64 := by
  apply UInt64.toNat_inj.mp
  rw [truncate, UInt64.toNat_and, show (0xffffffff : UInt64).toNat = 2 ^ 32 - 1 from rfl,
    Nat.and_two_pow_sub_one_eq_mod, UInt32.toNat_toUInt64, UInt64.toNat_toUInt32]

@[simp] theorem truncate_truncate : z.truncate (z.truncate v) = z.truncate v := by
  cases z with
  | dword => rw [truncate_dword, truncate_dword, UInt32.toUInt32_toUInt64]
  | qword => rfl

theorem truncate_dword_eq_iff {v w : UInt64} :
    truncate .dword v = truncate .dword w ↔ v.toUInt32 = w.toUInt32 := by
  rw [truncate_dword, truncate_dword, UInt32.toUInt64_inj]

/-- Words with equal low bits are stored as the same bytes. -/
theorem mod_eq_of_truncate {z : Size} {v w : UInt64} (h : z.truncate v = z.truncate w) :
    v.toNat % 256 ^ z.bytes = w.toNat % 256 ^ z.bytes := by
  cases z with
  | dword =>
    have := congrArg UInt32.toNat (truncate_dword_eq_iff.mp h)
    rwa [UInt64.toNat_toUInt32, UInt64.toNat_toUInt32] at this
  | qword =>
    have : v = w := h
    rw [this]

/-- The bytes of a size hold the word cut to that size. -/
theorem ofNat_mod_bytes : UInt64.ofNat (v.toNat % 256 ^ z.bytes) = z.truncate v := by
  cases z with
  | dword =>
    have hlt : v.toNat % 256 ^ 4 < 2 ^ 64 := by omega
    apply UInt64.toNat_inj.mp
    rw [truncate_dword, UInt32.toNat_toUInt64, UInt64.toNat_toUInt32]
    exact UInt64.toNat_ofNat_of_lt' hlt
  | qword => exact LittleEndian.ofNat_mod_qword v

/-- A product may be truncated once or at every step. -/
theorem truncate_mul (a b : UInt64) :
    z.truncate (z.truncate a * z.truncate b) = z.truncate (a * b) := by
  cases z with
  | dword =>
    apply truncate_dword_eq_iff.mpr
    simp only [truncate_dword, UInt64.toUInt32_mul, UInt32.toUInt32_toUInt64]
  | qword => rfl

end Size

/-! ## Sums and bitwise operations -/

/-- The operation computes a function of whole words, of which it keeps the low bits. -/
structure Computes (op : AluOp) (f : UInt64 → UInt64 → UInt64) : Prop where
  result : op ≠ .cmp
  low : ∀ z flags a b, ∃ r fl, alu op z flags (z.truncate a) (z.truncate b) = some (r, fl) ∧
    z.truncate r = z.truncate (f a b)

/-- At full width the result is all of it. -/
theorem Computes.qword {op : AluOp} {f : UInt64 → UInt64 → UInt64} (h : Computes op f)
    (flags : Option Flags) (a b : UInt64) : ∃ fl, alu op .qword flags a b = some (f a b, fl) := by
  obtain ⟨r, fl, hr, hlow⟩ := h.low .qword flags a b
  have hres : r = f a b := hlow
  rw [hres] at hr
  exact ⟨fl, hr⟩

/-- The processor's sum, truncated, is the sum; its flags are those of the size. -/
theorem computes_add : Computes .add (· + ·) := by
  refine ⟨by decide, fun z flags a b => ⟨_, _, rfl, ?_⟩⟩
  have hsum : UInt64.ofNat ((z.truncate a).toNat + (z.truncate b).toNat + false.toNat)
      = z.truncate a + z.truncate b := by
    apply UInt64.toNat_inj.mp
    simp
  rw [hsum, Size.truncate_truncate]
  cases z with
  | dword =>
    apply Size.truncate_dword_eq_iff.mpr
    simp only [Size.truncate_dword, UInt64.toUInt32_add, UInt32.toUInt32_toUInt64]
  | qword => rfl

/-- The difference, truncated, is what sets the flags of a comparison. -/
theorem computes_sub : Computes .sub (· - ·) := by
  refine ⟨by decide, fun z flags a b => ⟨_, _, rfl, ?_⟩⟩
  have hzero : z.truncate a - z.truncate b - false.toUInt64 = z.truncate a - z.truncate b :=
    UInt64.sub_zero _
  rw [hzero, Size.truncate_truncate]
  cases z with
  | dword =>
    apply Size.truncate_dword_eq_iff.mpr
    simp only [Size.truncate_dword, UInt64.toUInt32_sub, UInt32.toUInt32_toUInt64]
  | qword => rfl

theorem computes_and : Computes .and (· &&& ·) := by
  refine ⟨by decide, fun z flags a b => ⟨_, _, rfl, ?_⟩⟩
  cases z with
  | dword =>
    apply Size.truncate_dword_eq_iff.mpr
    simp only [Size.truncate_dword, UInt64.toUInt32_and, UInt32.toUInt32_toUInt64]
  | qword => rfl

theorem computes_or : Computes .or (· ||| ·) := by
  refine ⟨by decide, fun z flags a b => ⟨_, _, rfl, ?_⟩⟩
  cases z with
  | dword =>
    apply Size.truncate_dword_eq_iff.mpr
    simp only [Size.truncate_dword, UInt64.toUInt32_or, UInt32.toUInt32_toUInt64]
  | qword => rfl

theorem computes_xor : Computes .xor (· ^^^ ·) := by
  refine ⟨by decide, fun z flags a b => ⟨_, _, rfl, ?_⟩⟩
  cases z with
  | dword =>
    apply Size.truncate_dword_eq_iff.mpr
    simp only [Size.truncate_dword, UInt64.toUInt32_xor, UInt32.toUInt32_toUInt64]
  | qword => rfl

/-! ## Shifts -/

def Size.count (z : Size) (b : UInt64) : UInt64 := b &&& z.countMask.toUInt64

/-- The mask of a shift count is a remainder, since sizes are powers of two. -/
theorem toUInt64_and_countMask (z : Size) (b : UInt64) :
    (b.toUInt8 &&& z.countMask).toUInt64 = z.count b := by
  apply UInt64.toNat_inj.mp
  cases z with
  | dword =>
    rw [Size.count, UInt8.toNat_toUInt64, UInt8.toNat_and, UInt64.toNat_and, UInt64.toNat_toUInt8,
      show Size.dword.countMask.toNat = 2 ^ 5 - 1 from rfl,
      show Size.dword.countMask.toUInt64.toNat = 2 ^ 5 - 1 from rfl,
      Nat.and_two_pow_sub_one_eq_mod, Nat.and_two_pow_sub_one_eq_mod]
    omega
  | qword =>
    rw [Size.count, UInt8.toNat_toUInt64, UInt8.toNat_and, UInt64.toNat_and, UInt64.toNat_toUInt8,
      show Size.qword.countMask.toNat = 2 ^ 6 - 1 from rfl,
      show Size.qword.countMask.toUInt64.toNat = 2 ^ 6 - 1 from rfl,
      Nat.and_two_pow_sub_one_eq_mod, Nat.and_two_pow_sub_one_eq_mod]
    omega

/-- A left shift of truncated operands, and one truncated in the end. -/
theorem truncate_shiftLeft (z : Size) (a b : UInt64) :
    z.truncate (z.truncate a <<< z.count b) = z.truncate (a <<< z.count b) := by
  cases z with
  | dword =>
    have hlt : Size.dword.count b < 32 := by
      rw [UInt64.lt_iff_toNat_lt, Size.count, UInt64.toNat_and,
        show Size.dword.countMask.toUInt64.toNat = 2 ^ 5 - 1 from rfl,
        Nat.and_two_pow_sub_one_eq_mod]
      exact Nat.mod_lt _ (by decide)
    apply Size.truncate_dword_eq_iff.mpr
    rw [UInt64.toUInt32_shiftLeft _ _ hlt, UInt64.toUInt32_shiftLeft _ _ hlt, Size.truncate_dword,
      UInt32.toUInt32_toUInt64]
  | qword => rfl

/-! ## Signs -/

theorem and_two_pow_eq_zero_iff (n k : Nat) : n &&& 2 ^ k = 0 ↔ n.testBit k = false := by
  constructor
  · intro h
    have hbit := congrArg (Nat.testBit · k) h
    simpa [Nat.testBit_two_pow_self] using hbit
  · intro h
    apply Nat.eq_of_testBit_eq
    intro i
    rw [Nat.testBit_and, Nat.testBit_two_pow, Nat.zero_testBit]
    by_cases hi : k = i
    · rw [← hi, h, Bool.false_and]
    · rw [decide_eq_false hi, Bool.and_false]

theorem and_two_pow_ne_zero (v : UInt64) {k : Nat} (hk : k < 64) :
    (v &&& UInt64.ofNat (2 ^ k) != 0) = decide (v.toNat / 2 ^ k % 2 = 1) := by
  have hpow : (UInt64.ofNat (2 ^ k)).toNat = 2 ^ k :=
    UInt64.toNat_ofNat_of_lt' (Nat.pow_lt_pow_right (by decide) hk)
  rw [Bool.eq_iff_iff, bne_iff_ne, decide_eq_true_iff, ne_eq, ← UInt64.toNat_inj, UInt64.toNat_and,
    hpow, show (0 : UInt64).toNat = 0 from rfl, and_two_pow_eq_zero_iff,
    Nat.testBit_eq_decide_div_mod_eq, decide_eq_false_iff_not, Decidable.not_not]

/-- The sign bit tells whether a number is negative. -/
theorem signBit_dword (v : UInt64) :
    Size.signBit .dword v = decide (2 ^ 31 ≤ v.toUInt32.toNat) := by
  have h := and_two_pow_ne_zero v (k := 31) (by decide)
  rw [UInt64.toNat_toUInt32]
  refine Eq.trans h ?_
  rw [decide_eq_decide]
  omega

theorem signBit_qword (v : UInt64) : Size.signBit .qword v = decide (2 ^ 63 ≤ v.toNat) := by
  have h := and_two_pow_ne_zero v (k := 63) (by decide)
  have := v.toNat_lt
  refine Eq.trans h ?_
  rw [decide_eq_decide]
  omega

theorem toInt_toInt32 (v : UInt32) :
    v.toInt32.toInt = if v.toNat < 2 ^ 31 then (v.toNat : Int) else v.toNat - 2 ^ 32 := by
  show v.toBitVec.toInt = _
  rw [BitVec.toInt_eq_toNat_cond, UInt32.toNat_toBitVec]
  split <;> split <;> omega

theorem toInt_toInt64 (v : UInt64) :
    v.toInt64.toInt = if v.toNat < 2 ^ 63 then (v.toNat : Int) else v.toNat - 2 ^ 64 := by
  show v.toBitVec.toInt = _
  rw [BitVec.toInt_eq_toNat_cond, UInt64.toNat_toBitVec]
  split <;> split <;> omega

/-! ## Division -/

def signHalf (z : Size) (a : UInt64) : UInt64 :=
  z.truncate (if z.signBit (z.truncate a) then -1 else 0)

/-- The dividend that widening makes of a 32-bit number is that number. -/
theorem dividend_dword (a : UInt64) :
    Size.toInt .dword (signHalf .dword a) * 2 ^ (8 * Size.dword.bytes)
      + (Size.truncate .dword (Size.truncate .dword a)).toNat = a.toUInt32.toInt32.toInt := by
  have hlt := a.toUInt32.toNat_lt
  rw [signHalf, signBit_dword, Size.truncate_truncate, Size.truncate_dword a,
    UInt32.toUInt32_toUInt64, UInt32.toNat_toUInt64, toInt_toInt32]
  by_cases h : 2 ^ 31 ≤ a.toUInt32.toNat
  · rw [decide_eq_true h, if_pos rfl, if_neg (by omega)]
    show (-1 : Int) * 2 ^ 32 + _ = _
    omega
  · rw [decide_eq_false h, if_neg (by decide), if_pos (by omega)]
    show (0 : Int) * 2 ^ 32 + _ = _
    omega

theorem dividend_qword (a : UInt64) :
    Size.toInt .qword (signHalf .qword a) * 2 ^ (8 * Size.qword.bytes)
      + (Size.truncate .qword (Size.truncate .qword a)).toNat = a.toInt64.toInt := by
  have hlt := a.toNat_lt
  show Size.toInt .qword (if Size.signBit .qword a then -1 else 0) * 2 ^ 64 + (a.toNat : Int) = _
  rw [signBit_qword, toInt_toInt64]
  by_cases h : 2 ^ 63 ≤ a.toNat
  · rw [decide_eq_true h, if_pos rfl, if_neg (by omega)]
    show (-1 : Int) * 2 ^ 64 + _ = _
    omega
  · rw [decide_eq_false h, if_neg (by decide), if_pos (by omega)]
    show (0 : Int) * 2 ^ 64 + _ = _
    omega

/-- The division of 64 by 32 bits is that of signed 32-bit numbers, wherever these have a
quotient. -/
theorem divide_dword {a b : UInt64} (hzero : b.toUInt32.toInt32 ≠ 0)
    (hmin : ¬ (a.toUInt32.toInt32 = Int32.minValue ∧ b.toUInt32.toInt32 = -1)) :
    divide .dword (signHalf .dword a) (Size.truncate .dword a) (Size.truncate .dword b) =
      some ((a.toUInt32.toInt32 / b.toUInt32.toInt32).toUInt32.toUInt64,
        (a.toUInt32.toInt32 % b.toUInt32.toInt32).toUInt32.toUInt64) := by
  have hd : Size.toInt .dword (Size.truncate .dword b) = b.toUInt32.toInt32.toInt := by
    rw [Size.truncate_dword, Size.toInt, UInt32.toUInt32_toUInt64]
  unfold divide
  dsimp only
  rw [dividend_dword, hd]
  generalize a.toUInt32.toInt32 = x at *
  generalize b.toUInt32.toInt32 = y at *
  have hy : y.toInt ≠ 0 := fun h => hzero (Int32.toInt_inj.mp h)
  have hq : (x / y).toInt = x.toInt.tdiv y.toInt := by
    by_cases hx : x = Int32.minValue
    · exact Int32.toInt_div_of_ne_right _ _ fun hy' => hmin ⟨hx, hy'⟩
    · exact Int32.toInt_div_of_ne_left _ _ hx
  -- The quotient fits into the register, because the one that does not is excluded.
  have hback : Size.toInt .dword (Size.ofInt .dword (x.toInt.tdiv y.toInt)) =
      x.toInt.tdiv y.toInt := by
    rw [← hq]
    simp [Size.toInt, Size.ofInt]
  rw [if_neg (not_or.mpr ⟨hy, fun h => h hback⟩), ← hq, ← Int32.toInt_mod]
  show some ((Int32.ofInt (x / y).toInt).toUInt32.toUInt64,
    (Int32.ofInt (x % y).toInt).toUInt32.toUInt64) = _
  rw [Int32.ofInt_toInt, Int32.ofInt_toInt]

theorem divide_qword {a b : UInt64} (hzero : b.toInt64 ≠ 0)
    (hmin : ¬ (a.toInt64 = Int64.minValue ∧ b.toInt64 = -1)) :
    divide .qword (signHalf .qword a) (Size.truncate .qword a) (Size.truncate .qword b) =
      some ((a.toInt64 / b.toInt64).toUInt64, (a.toInt64 % b.toInt64).toUInt64) := by
  have hd : Size.toInt .qword (Size.truncate .qword b) = b.toInt64.toInt := rfl
  unfold divide
  dsimp only
  rw [dividend_qword, hd]
  generalize a.toInt64 = x at *
  generalize b.toInt64 = y at *
  have hy : y.toInt ≠ 0 := fun h => hzero (Int64.toInt_inj.mp h)
  have hq : (x / y).toInt = x.toInt.tdiv y.toInt := by
    by_cases hx : x = Int64.minValue
    · exact Int64.toInt_div_of_ne_right _ _ fun hy' => hmin ⟨hx, hy'⟩
    · exact Int64.toInt_div_of_ne_left _ _ hx
  have hback : Size.toInt .qword (Size.ofInt .qword (x.toInt.tdiv y.toInt)) =
      x.toInt.tdiv y.toInt := by
    rw [← hq]
    simp [Size.toInt, Size.ofInt]
  rw [if_neg (not_or.mpr ⟨hy, fun h => h hback⟩), ← hq, ← Int64.toInt_mod]
  show some ((Int64.ofInt (x / y).toInt).toUInt64, (Int64.ofInt (x % y).toInt).toUInt64) = _
  rw [Int64.ofInt_toInt, Int64.ofInt_toInt]

/-! ## Comparison -/

/-- The flags of a comparison. -/
theorem alu_cmp (z : Size) (flags : Option Flags) (a b : UInt64) :
    alu .cmp z flags a b = some (subBorrow z a b false) := rfl

theorem toUInt32_truncate (v : UInt64) : (Size.truncate .dword v).toUInt32 = v.toUInt32 := by
  rw [Size.truncate_dword, UInt32.toUInt32_toUInt64]

theorem toNat_sub_dword (a b : UInt64) :
    (a.toUInt32 - b.toUInt32).toNat = (2 ^ 32 - b.toUInt32.toNat + a.toUInt32.toNat) % 2 ^ 32 :=
  UInt32.toNat_sub _ _

/-- The difference that a comparison looks at. -/
theorem difference (a b : UInt64) : a - b - false.toUInt64 = a - b := UInt64.sub_zero _

/-- After a 32-bit comparison the sign differs from the overflow where the first operand is less as
a signed number. -/
theorem less_dword (a b : UInt64) :
    let f := (subBorrow .dword (Size.truncate .dword a) (Size.truncate .dword b) false).2
    (f.sf != f.of) = decide (a.toUInt32.toInt32 < b.toUInt32.toInt32) := by
  have ha := a.toUInt32.toNat_lt
  have hb := b.toUInt32.toNat_lt
  simp only [subBorrow, resultFlags, difference, signBit_dword, toUInt32_truncate,
    UInt64.toUInt32_sub, toNat_sub_dword, Int32.lt_iff_toInt_lt, toInt_toInt32]
  generalize a.toUInt32.toNat = na at *
  generalize b.toUInt32.toNat = nb at *
  -- The difference is negative as an integer exactly when one of sign and overflow is set.
  by_cases h₁ : 2 ^ 31 ≤ na <;> by_cases h₂ : 2 ^ 31 ≤ nb <;>
    by_cases h₃ : 2 ^ 31 ≤ (2 ^ 32 - nb + na) % 2 ^ 32
  all_goals
    simp only [h₁, h₂, h₃, decide_true, decide_false]
    rw [eq_comm]
    simp
    split <;> split <;> omega

/-- After a 32-bit comparison the zero flag says that both operands are equal. -/
theorem equal_dword (a b : UInt64) :
    (subBorrow .dword (Size.truncate .dword a) (Size.truncate .dword b) false).2.zf
      = (a.toUInt32.toInt32 == b.toUInt32.toInt32) := by
  have ha := a.toUInt32.toNat_lt
  have hb := b.toUInt32.toNat_lt
  simp only [subBorrow, resultFlags, difference]
  rw [Bool.eq_iff_iff, beq_iff_eq, beq_iff_eq, ← UInt64.toNat_inj, Size.truncate_dword,
    UInt32.toNat_toUInt64, UInt64.toUInt32_sub, toUInt32_truncate, toUInt32_truncate,
    toNat_sub_dword, ← Int32.toInt_inj, toInt_toInt32, toInt_toInt32,
    show (0 : UInt64).toNat = 0 from rfl]
  split <;> split <;> omega

/-- After a 64-bit comparison "below or equal" is the order of unsigned numbers. -/
theorem belowEqual_qword (a b : UInt64) :
    Cond.holds .belowEqual (subBorrow .qword a b false).2 = decide (a ≤ b) := by
  have ha := a.toNat_lt
  have hb := b.toNat_lt
  show (decide (a.toNat < b.toNat + 0) || (a - b - 0 == 0)) = _
  rw [Bool.eq_iff_iff, Bool.or_eq_true, decide_eq_true_iff, decide_eq_true_iff, beq_iff_eq,
    UInt64.sub_zero, ← UInt64.toNat_inj, UInt64.toNat_sub, UInt64.le_iff_toNat_le,
    show (0 : UInt64).toNat = 0 from rfl]
  omega

end BlockVM.X86
