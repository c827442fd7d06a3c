import Mathlib.Algebra.Field.MinimalAxioms
import Mathlib.Dynamics.PeriodicPts.Defs
import Mathlib.NumberTheory.Divisors
import Mathlib.Order.Interval.Finset.Nat
import BlockVM.Numeric.Instances
import BlockVM.ReedSolomon

/-!
# Bytes are a field

The nonzero bytes are the powers of `x`: doubling 1 goes through all of them before it comes back to
1. A product with a power of `x` is therefore doubling so many times (`mul_power`), and since
doubling is linear, the laws of a field follow without a look at the bits.
-/

namespace BlockVM.Gf256

/-! ## Doubling -/

/-- Doubling shifts, and takes off the polynomial of the field where a bit is lost. -/
theorem double_eq (a : UInt8) :
    double a = (a <<< 1) ^^^ (if a.toBitVec.msb then 0x1d else 0) := by
  have hmsb : a < 0x80 ↔ a.toBitVec.msb = false := by
    rw [BitVec.msb_eq_decide, decide_eq_false_iff_not, UInt8.lt_iff_toNat_lt]
    show a.toNat < 128 ↔ ¬ 2 ^ 7 ≤ a.toNat
    omega
  unfold double
  by_cases h : a < 0x80
  · rw [if_pos h, hmsb.mp h]
    simp
  · rw [if_neg h, if_pos (by simpa [hmsb] using h)]

theorem double_xor (a b : UInt8) : double (a ^^^ b) = double a ^^^ double b := by
  have shift : (a ^^^ b) <<< 1 = (a <<< 1) ^^^ (b <<< 1) := by
    apply UInt8.toBitVec_inj.mp
    simp [BitVec.shiftLeft_xor_distrib]
  have carry (p q : Bool) : (if (p ^^ q) = true then (0x1d : UInt8) else 0)
      = (if p then 0x1d else 0) ^^^ (if q then 0x1d else 0) := by
    cases p <;> cases q <;> rfl
  rw [double_eq, double_eq, double_eq, shift, UInt8.toBitVec_xor, BitVec.msb_xor, carry]
  ac_rfl

theorem iterate_double_xor (n : Nat) (a b : UInt8) :
    double^[n] (a ^^^ b) = double^[n] a ^^^ double^[n] b := by
  induction n generalizing a b with
  | zero => rfl
  | succ n ih => rw [Function.iterate_succ_apply, double_xor, ih]; rfl

theorem iterate_double_zero (n : Nat) : double^[n] 0 = 0 := Function.iterate_fixed rfl n

/-! ## Powers of `x` -/

def power (n : Nat) : UInt8 := double^[n] 1

theorem double_iterate_power (m n : Nat) : double^[m] (power n) = power (m + n) :=
  (Function.iterate_add_apply double m n 1).symm

theorem power_255 : power 255 = 1 := by decide +kernel

theorem power_mul_255 (n : Nat) : power (n * 255) = 1 := by
  unfold power
  rw [Nat.mul_comm, Function.iterate_mul]
  exact Function.iterate_fixed power_255 n

/-- None of them is 0, since doubling goes on from each of them to 1. -/
theorem power_ne_zero (n : Nat) : power n ≠ 0 := by
  intro h
  have hone := power_mul_255 n
  rw [Nat.mul_succ, ← double_iterate_power, h, iterate_double_zero] at hone
  exact absurd hone (by decide)

/-- Doubling comes back to 1 after 255 times and not before: 255 is 3 · 5 · 17, and it does not come
back after 85, 51 or 15 times. -/
theorem minimalPeriod_double : Function.minimalPeriod double 1 = 255 := by
  have hdvd : Function.minimalPeriod double 1 ∣ 255 :=
    Function.IsPeriodicPt.minimalPeriod_dvd power_255
  have proper (n : Nat) (h : power n ≠ 1) : ¬ Function.minimalPeriod double 1 ∣ n :=
    fun hn => h (Function.isPeriodicPt_iff_minimalPeriod_dvd.mpr hn)
  have only : ∀ n ∈ Nat.divisors 255, ¬ n ∣ 85 → ¬ n ∣ 51 → ¬ n ∣ 15 → n = 255 := by decide
  exact only _ (Nat.mem_divisors.mpr ⟨hdvd, by decide⟩) (proper 85 (by decide +kernel))
    (proper 51 (by decide +kernel)) (proper 15 (by decide +kernel))

/-- Every nonzero byte is a power of `x`. -/
theorem exists_power {a : UInt8} (h : a ≠ 0) : ∃ n, a = power n := by
  have nonzero {b : UInt8} (hb : b ≠ 0) : b.toNat ∈ Finset.Icc 1 255 := by
    have := b.toNat_lt
    have hpos : b.toNat ≠ 0 := fun h0 => hb (UInt8.toNat_inj.mp h0)
    exact Finset.mem_Icc.mpr ⟨by omega, by omega⟩
  -- The 255 powers are different, and there are no more nonzero bytes.
  have all : (Finset.range 255).image (fun n => (power n).toNat) = Finset.Icc 1 255 := by
    refine Finset.eq_of_subset_of_card_le (fun v hv => ?_) ?_
    · obtain ⟨n, -, rfl⟩ := Finset.mem_image.mp hv
      exact nonzero (power_ne_zero n)
    · rw [Finset.card_image_of_injOn, Finset.card_range, Nat.card_Icc]
      intro m hm n hn hmn
      have period := Function.iterate_injOn_Iio_minimalPeriod (f := double) (x := 1)
      rw [minimalPeriod_double] at period
      exact period (Finset.mem_range.mp hm) (Finset.mem_range.mp hn) (UInt8.toNat_inj.mp hmn)
  have hmem := nonzero h
  rw [← all] at hmem
  obtain ⟨n, -, hn⟩ := Finset.mem_image.mp hmem
  exact ⟨n, (UInt8.toNat_inj.mp hn).symm⟩

/-! ## Products -/

/-- Doubling may be done before or after a multiplication. -/
theorem mulBits_double (n : Nat) (a b : UInt8) :
    mulBits n (double a) b = double (mulBits n a b) := by
  induction n generalizing a b with
  | zero => rfl
  | succ n ih =>
    rw [mulBits, mulBits, ih, double_xor]
    split <;> rfl

theorem one_mul_lt : ∀ a < 256, mul 1 (UInt8.ofNat a) = UInt8.ofNat a := by decide +kernel

theorem one_mul (a : UInt8) : mul 1 a = a := by
  have h := one_mul_lt a.toNat a.toNat_lt
  rwa [UInt8.ofNat_toNat] at h

theorem mul_iterate_double (n : Nat) (a b : UInt8) :
    mul (double^[n] a) b = double^[n] (mul a b) := by
  induction n generalizing a with
  | zero => rfl
  | succ n ih =>
    rw [Function.iterate_succ_apply, ih, Function.iterate_succ_apply]
    exact congrArg _ (mulBits_double 8 a b)

/-- A product with a power of `x` doubles so many times. -/
theorem mul_power (n : Nat) (a : UInt8) : mul (power n) a = double^[n] a := by
  unfold power
  rw [mul_iterate_double, one_mul]

theorem zero_mul (a : UInt8) : mul 0 a = 0 := by
  have h (n : Nat) (b : UInt8) : mulBits n 0 b = 0 := by
    induction n generalizing b with
    | zero => rfl
    | succ n ih =>
      rw [mulBits, show double 0 = 0 from rfl, ih]
      split <;> rfl
  exact h 8 a

theorem mul_zero (a : UInt8) : mul a 0 = 0 := by
  by_cases h : a = 0
  · rw [h, zero_mul]
  · obtain ⟨n, rfl⟩ := exists_power h
    rw [mul_power, iterate_double_zero]

/-- The product is symmetric: every factor but 0 is a power. -/
theorem mul_comm (a b : UInt8) : mul a b = mul b a := by
  by_cases ha : a = 0
  · rw [ha, zero_mul, mul_zero]
  by_cases hb : b = 0
  · rw [hb, zero_mul, mul_zero]
  obtain ⟨m, rfl⟩ := exists_power ha
  obtain ⟨n, rfl⟩ := exists_power hb
  rw [mul_power, mul_power, double_iterate_power, double_iterate_power, Nat.add_comm]

theorem mul_assoc (a b c : UInt8) : mul (mul a b) c = mul a (mul b c) := by
  by_cases h : a = 0
  · rw [h, zero_mul, zero_mul, zero_mul]
  · obtain ⟨n, rfl⟩ := exists_power h
    rw [mul_power, mul_power, mul_iterate_double]

theorem mul_xor (a b c : UInt8) : mul a (b ^^^ c) = mul a b ^^^ mul a c := by
  by_cases h : a = 0
  · rw [h, zero_mul, zero_mul, zero_mul]
    rfl
  · obtain ⟨n, rfl⟩ := exists_power h
    rw [mul_power, mul_power, mul_power, iterate_double_xor]

theorem pow_power (m n : Nat) : pow (power m) n = power (m * n) := by
  induction n with
  | zero => rfl
  | succ n ih => rw [pow, ih, mul_power, double_iterate_power, Nat.mul_succ, Nat.add_comm]

theorem mul_inv {a : UInt8} (h : a ≠ 0) : mul a (inv a) = 1 := by
  obtain ⟨n, rfl⟩ := exists_power h
  rw [inv, pow_power, mul_power, double_iterate_power, Nat.add_comm, ← Nat.mul_succ, power_mul_255]

/-! ## The field -/

def Element : Type := UInt8

/-- The field of 256 elements. -/
noncomputable instance : Field Element :=
  letI : Add Element := ⟨fun a b => UInt8.xor a b⟩
  letI : Mul Element := ⟨mul⟩
  letI : Neg Element := ⟨fun a => a⟩
  letI : Inv Element := ⟨inv⟩
  letI : Zero Element := ⟨(0 : UInt8)⟩
  letI : One Element := ⟨(1 : UInt8)⟩
  Field.ofMinimalAxioms Element UInt8.xor_assoc (fun _ => UInt8.zero_xor)
    (fun _ => UInt8.xor_self) mul_assoc mul_comm one_mul (fun _ => mul_inv) (zero_mul _) mul_xor
    ⟨(0 : UInt8), (1 : UInt8), UInt8.zero_ne_one⟩

end BlockVM.Gf256
