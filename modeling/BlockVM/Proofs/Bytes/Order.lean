import BlockVM.Bytes.Cbor
import Mathlib.Data.List.Infix

/-!
# The order of byte strings

Byte strings are ordered byte by byte, and a string comes after those that begin it. `between_iff`
turns two bounds into a common beginning, and `bigEndian_lt_iff` says that numbers are ordered as
their bytes are, the most significant first.
-/

namespace BlockVM.Bytes

/-! ## The order of byte strings -/

section Order

variable {p q x y t k : List UInt8} {c : UInt8}

/-- Strings whose first parts have one length are compared by these parts first. -/
theorem append_lt_append_iff (h : p.length = q.length) :
    p ++ x < q ++ y ↔ p < q ∨ p = q ∧ x < y := by
  induction p generalizing q with
  | nil =>
    obtain rfl := List.eq_nil_of_length_eq_zero h.symm
    simp [List.lt_irrefl]
  | cons a p ih =>
    obtain ⟨b, q, rfl⟩ := List.exists_cons_of_length_eq_add_one h.symm
    have hlen : p.length = q.length := by simpa using h
    rw [List.cons_append, List.cons_append, List.cons_lt_cons_iff, List.cons_lt_cons_iff, ih hlen,
      List.cons.injEq]
    tauto

/-- The successor of a byte below 255 does not wrap. -/
theorem toNat_next (hc : c < 255) : (c + 1).toNat = c.toNat + 1 := by
  have hc : c.toNat < 255 := hc
  rw [UInt8.toNat_add]
  show (c.toNat + 1) % 256 = c.toNat + 1
  omega

/-- The strings from `p` with the byte `c` up to `p` with the next byte are those that begin with
the former. -/
theorem between_iff (hc : c < 255) :
    ¬ k < p ++ [c] ∧ k < p ++ [c + 1] ↔ p ++ [c] <+: k := by
  have hnext : c < c + 1 := by
    rw [UInt8.lt_iff_toNat_lt, toNat_next hc]
    exact Nat.lt_succ_self _
  have honly : ∀ a : UInt8, ¬ a < c → a < c + 1 → a = c := by
    intro a hlow hhigh
    rw [UInt8.lt_iff_toNat_lt] at hlow hhigh
    rw [toNat_next hc] at hhigh
    exact UInt8.toNat_inj.mp (by omega)
  -- What `k` shares with `p` is the same on both sides, so the byte behind it decides.
  induction p generalizing k with
  | nil =>
    cases k with
    | nil => simp
    | cons a k =>
      simp only [List.nil_append, List.cons_lt_cons_iff, List.not_lt_nil, and_false, or_false,
        List.cons_prefix_cons, List.nil_prefix, and_true]
      constructor
      · rintro ⟨hlow, hhigh⟩
        exact (honly a hlow hhigh).symm
      · rintro rfl
        exact ⟨UInt8.lt_irrefl _, hnext⟩
  | cons b p ih =>
    cases k with
    | nil => simp
    | cons a k =>
      simp only [List.cons_append, List.cons_lt_cons_iff, List.cons_prefix_cons, ← ih]
      constructor
      · rintro ⟨hlow, hlt | ⟨rfl, hhigh⟩⟩
        · exact absurd (.inl hlt) hlow
        · exact ⟨rfl, fun h => hlow (.inr ⟨rfl, h⟩), hhigh⟩
      · rintro ⟨rfl, hlow, hhigh⟩
        refine ⟨?_, .inr ⟨rfl, hhigh⟩⟩
        rintro (hlt | ⟨-, hlt⟩)
        · exact UInt8.lt_irrefl _ hlt
        · exact hlow hlt

/-- Parts that end at the first `c` are equal if one of them begins the other. -/
theorem prefix_mark_iff (hp : c ∉ p) (hq : c ∉ q) : p ++ [c] <+: q ++ c :: t ↔ p = q := by
  induction p generalizing q with
  | nil =>
    cases q with
    | nil => simp
    | cons b q =>
      have hb : c ≠ b := fun h => hq (h ▸ List.mem_cons_self)
      simp [hb]
  | cons a p ih =>
    have ha : a ≠ c := fun h => hp (h ▸ List.mem_cons_self)
    cases q with
    | nil => simp [ha]
    | cons b q =>
      rw [List.cons_append, List.cons_append, List.cons_prefix_cons, List.cons.injEq,
        ih (fun h => hp (List.mem_cons_of_mem _ h)) (fun h => hq (List.mem_cons_of_mem _ h))]

/-- Neither begins the other, so what follows does not matter. -/
theorem append_lt_append_of_apart (hp : ¬ p <+: q) (hq : ¬ q <+: p) :
    p ++ x < q ++ y ↔ p < q := by
  induction p generalizing q with
  | nil => exact absurd List.nil_prefix hp
  | cons a p ih =>
    cases q with
    | nil => exact absurd List.nil_prefix hq
    | cons b q =>
      simp only [List.cons_append, List.cons_lt_cons_iff]
      by_cases hab : a = b
      · subst hab
        have hp' : ¬ p <+: q := fun h => hp (List.cons_prefix_cons.mpr ⟨rfl, h⟩)
        have hq' : ¬ q <+: p := fun h => hq (List.cons_prefix_cons.mpr ⟨rfl, h⟩)
        rw [ih hp' hq']
      · simp [hab]

end Order

/-! ## Numbers -/

@[simp] theorem length_bigEndian (n v : Nat) : (Cbor.bigEndian n v).length = n := by
  induction n with
  | zero => rfl
  | succ n ih => rw [Cbor.bigEndian, List.length_cons, ih]

/-- Numbers are compared by their higher digits first. -/
theorem add_mul_lt_iff {m a b v w : Nat} (hv : v < m) (hw : w < m) :
    v + m * a < w + m * b ↔ a < b ∨ a = b ∧ v < w := by
  have step : ∀ {c d : Nat}, c < d → m * c + m ≤ m * d := fun h => Nat.mul_le_mul_left m h
  rcases Nat.lt_trichotomy a b with h | rfl | h
  · have := step h
    exact ⟨fun _ => .inl h, fun _ => by omega⟩
  · simp
  · have := step h
    exact ⟨fun _ => by omega, fun h' => by omega⟩

/-- The order of numbers is that of their bytes, the most significant first. -/
theorem bigEndian_lt_iff (n v w : Nat) :
    Cbor.bigEndian n v < Cbor.bigEndian n w ↔ v % 256 ^ n < w % 256 ^ n := by
  induction n with
  | zero => simp [Cbor.bigEndian, Nat.mod_one]
  | succ n ih =>
    have hv := Nat.mod_lt v (Nat.pow_pos (n := n) (show 0 < 256 by decide))
    have hw := Nat.mod_lt w (Nat.pow_pos (n := n) (show 0 < 256 by decide))
    rw [Cbor.bigEndian, Cbor.bigEndian, List.cons_lt_cons_iff, ih, UInt8.lt_iff_toNat_lt,
      ← UInt8.toNat_inj, UInt8.toNat_ofNat', UInt8.toNat_ofNat',
      Nat.mod_pow_succ (b := 256) (k := n), Nat.mod_pow_succ (b := 256) (k := n)]
    exact (add_mul_lt_iff hv hw).symm

/-- Digits in the first place determine a number up to what they cannot show. -/
theorem bigEndian_inj {n v w : Nat} (h : Cbor.bigEndian n v = Cbor.bigEndian n w) :
    v % 256 ^ n = w % 256 ^ n := by
  have hlow := (bigEndian_lt_iff n v w).not
  have hhigh := (bigEndian_lt_iff n w v).not
  rw [h] at hlow hhigh
  have := hlow.mp (List.lt_irrefl _)
  have := hhigh.mp (List.lt_irrefl _)
  omega

end BlockVM.Bytes
