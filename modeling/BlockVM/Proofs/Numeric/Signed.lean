import BlockVM.Numeric.Instances

/-!
# Signed words without overflow

Addresses, offsets and sizes are signed 64-bit numbers that stay far from the ends of their range.
These lemmas move sums, differences and conversions of such numbers to the integers, where the
bounds are arithmetic. `toInt_add_of_large` says what becomes of a sum that does not stay in range.
-/

namespace BlockVM

theorem toInt_add_of_bounds {x y : Int64} (h : -2 ^ 63 ≤ x.toInt + y.toInt)
    (h' : x.toInt + y.toInt < 2 ^ 63) : (x + y).toInt = x.toInt + y.toInt := by
  rw [Int64.toInt_add]
  exact Int.bmod_eq_of_le (by omega) (by omega)

theorem toInt_sub_of_bounds {x y : Int64} (h : -2 ^ 63 ≤ x.toInt - y.toInt)
    (h' : x.toInt - y.toInt < 2 ^ 63) : (x - y).toInt = x.toInt - y.toInt := by
  rw [Int64.toInt_sub]
  exact Int.bmod_eq_of_le (by omega) (by omega)

theorem toInt_toInt64_of_lt {x : UInt64} (h : x.toNat < 2 ^ 63) : x.toInt64.toInt = x.toNat := by
  show x.toBitVec.toInt = x.toNat
  exact BitVec.toInt_eq_toNat_of_lt (by rw [UInt64.toNat_toBitVec]; omega)

theorem toInt_bounds (x : Int64) : -2 ^ 63 ≤ x.toInt ∧ x.toInt < 2 ^ 63 := by
  have h₁ := x.le_toInt
  have h₂ := x.toInt_lt
  omega

/-- A sum of two words that is too large for one becomes negative. -/
theorem toInt_add_of_large {x y : Int64} (h : 2 ^ 63 ≤ x.toInt + y.toInt) :
    (x + y).toInt = x.toInt + y.toInt - 2 ^ 64 := by
  have := toInt_bounds x
  have := toInt_bounds y
  rw [Int64.toInt_add, Int.bmod]
  split <;> omega

theorem toInt_nonneg_iff {x : Int64} : 0 ≤ x ↔ 0 ≤ x.toInt := by
  rw [Int64.le_iff_toInt_le, Int64.toInt_zero]

theorem toInt_neg_iff {x : Int64} : x < 0 ↔ x.toInt < 0 := by
  rw [Int64.lt_iff_toInt_lt, Int64.toInt_zero]

/-- The address of a non-negative offset. -/
theorem toNat_toUInt64_of_nonneg {x : Int64} (h : 0 ≤ x.toInt) :
    (x.toUInt64.toNat : Int) = x.toInt := by
  rw [Int64.toNat_toUInt64_of_le (toInt_nonneg_iff.mpr h)]
  exact Int.toNat_of_nonneg h

/-- Sign extension keeps the word that it extends. -/
theorem toUInt32_signExtended (x : UInt32) : x.toInt32.toInt64.toUInt64.toUInt32 = x := by
  rw [← UInt32.toBitVec_inj]
  show (x.toBitVec.signExtend 64).setWidth 32 = _
  ext i hi
  have hwide : i < 64 := by omega
  rw [BitVec.getElem_setWidth, BitVec.getLsbD_signExtend, if_pos hi, decide_eq_true hwide,
    Bool.true_and, BitVec.getLsbD_eq_getElem hi]

end BlockVM
