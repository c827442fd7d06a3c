import Mathlib.Algebra.BigOperators.Ring.Finset
import Mathlib.Tactic.Ring
import BlockVM.Proofs.Memory.Words

/-!
# What a byte memory remembers

A byte memory is specified by its history: a position holds the byte that was stored there last, or
what it held at first (`latest`), and a run of positions stands for the sum of its bytes, each
weighted by its place (`number`). How a memory keeps its bytes does not matter: one that gets every
single step right (`Follows`) agrees with its history after any number of steps (`Follows.latest`).
-/

namespace BlockVM.Bytes

open LittleEndian

def widths : List Int := [1, 2, 4, 8]

/-- A number that was stored at a position, in so many bytes. -/
structure Stored where
  start : Nat
  width : Nat
  value : Nat
deriving DecidableEq, Repr

/-- The byte that it puts at a position, if it reaches it. -/
def Stored.byte? (w : Stored) (i : Nat) : Option UInt8 :=
  if w.start ≤ i ∧ i < w.start + w.width then some (UInt8.ofNat (w.value / 256 ^ (i - w.start)))
  else none

/-- What a position holds after the stores of a history: the byte of the last one that reaches
it. -/
def latest (initial : Nat → UInt8) (history : List Stored) (i : Nat) : UInt8 :=
  (history.reverse.findSome? (·.byte? i)).getD (initial i)

/-- The number that the `n` bytes from a position on stand for. -/
def number (byte : Nat → UInt8) (start n : Nat) : Nat :=
  ∑ i ∈ Finset.range n, (byte (start + i)).toNat * 256 ^ i

/-! ## Histories -/

variable {initial : Nat → UInt8} {i : Nat}

@[simp] theorem latest_nil : latest initial [] i = initial i := rfl

/-- The last store of a history is looked at first. -/
theorem latest_concat (history : List Stored) (w : Stored) :
    latest initial (history ++ [w]) i = (w.byte? i).getD (latest initial history i) := by
  simp only [latest, List.reverse_append, List.reverse_singleton, List.singleton_append,
    List.findSome?_cons]
  cases w.byte? i <;> rfl

/-- Only the bytes of the run count. -/
theorem number_congr {byte byte' : Nat → UInt8} {start n : Nat}
    (h : ∀ i, start ≤ i → i < start + n → byte i = byte' i) :
    number byte start n = number byte' start n := by
  apply Finset.sum_congr rfl
  intro i hi
  have hi := Finset.mem_range.mp hi
  rw [h (start + i) (by omega) (by omega)]

/-- A memory in which a step changes the bytes below `size` as its own store says, while an
invariant holds and the step is one that is allowed. -/
structure Follows {σ ρ : Type} (size : Nat) (byte : σ → Nat → UInt8) (step : σ → ρ → σ)
    (stored? : ρ → Option Stored) (Inv : σ → Prop) (Allowed : ρ → Prop) : Prop where
  keeps : ∀ {s r}, Inv s → Allowed r → Inv (step s r)
  bytes : ∀ {s r}, Inv s → Allowed r → ∀ i < size,
    byte (step s r) i = ((stored? r).bind (·.byte? i)).getD (byte s i)

namespace Follows

variable {σ ρ : Type} {size : Nat} {byte : σ → Nat → UInt8} {step : σ → ρ → σ}
  {stored? : ρ → Option Stored} {Inv : σ → Prop} {Allowed : ρ → Prop}

/-- The invariant of a run, from the invariant of one step. -/
theorem keeps_all (h : Follows size byte step stored? Inv Allowed) {s : σ} (hs : Inv s)
    {rs : List ρ} (hrs : ∀ r ∈ rs, Allowed r) : Inv (rs.foldl step s) := by
  induction rs generalizing s with
  | nil => exact hs
  | cons r rs ih =>
    obtain ⟨hr, hrs⟩ := List.forall_mem_cons.mp hrs
    exact ih (h.keeps hs hr) hrs

/-- After any steps the bytes are those that were stored last. -/
theorem latest (h : Follows size byte step stored? Inv Allowed) {s : σ} (hs : Inv s) {rs : List ρ}
    (hrs : ∀ r ∈ rs, Allowed r) (hi : i < size) :
    byte (rs.foldl step s) i = latest (byte s) (rs.filterMap stored?) i := by
  -- From the end: what the last step stores is what its positions hold.
  induction rs using List.reverseRecOn with
  | nil => rfl
  | append_singleton rs r ih =>
    have hinit : ∀ r ∈ rs, Allowed r := fun x hx => hrs x (List.mem_append_left _ hx)
    have hlast : Allowed r := hrs r (List.mem_append_right _ (List.mem_singleton_self r))
    rw [List.foldl_append, List.foldl_cons, List.foldl_nil,
      h.bytes (h.keeps_all hs hinit) hlast i hi, ih hinit, List.filterMap_append]
    cases hr : stored? r with
    | none => simp [hr]
    | some w =>
      have hw : [r].filterMap stored? = [w] := by simp [hr]
      rw [hw, latest_concat]
      rfl

/-- So are the numbers that they stand for. -/
theorem number (h : Follows size byte step stored? Inv Allowed) {s : σ} (hs : Inv s) {rs : List ρ}
    (hrs : ∀ r ∈ rs, Allowed r) {start n : Nat} (hend : start + n ≤ size) :
    number (byte (rs.foldl step s)) start n =
      number (Bytes.latest (byte s) (rs.filterMap stored?)) start n :=
  number_congr fun _ _ hi => h.latest hs hrs (Nat.lt_of_lt_of_le hi hend)

end Follows

/-! ## Numbers -/

/-- The value of a byte string is the sum of its bytes, each weighted by its place. -/
theorem value_map_range (f : Nat → UInt8) (n : Nat) :
    value ((List.range n).map f) = ∑ i ∈ Finset.range n, (f i).toNat * 256 ^ i := by
  induction n generalizing f with
  | zero => rfl
  | succ n ih =>
    -- The first byte counts once; the places of the others are one higher than in their own run.
    have hshift : ∀ i ∈ Finset.range n,
        256 * ((f (i + 1)).toNat * 256 ^ i) = (f (i + 1)).toNat * 256 ^ (i + 1) := by
      intro i _
      rw [Nat.pow_succ]
      ring
    rw [List.range_succ_eq_map, List.map_cons, List.map_map, value, ih, Finset.sum_range_succ',
      Finset.mul_sum, Nat.pow_zero, Nat.mul_one, Nat.add_comm]
    congr 1
    exact Finset.sum_congr rfl hshift

/-- A word keeps the number that up to eight bytes stand for. -/
theorem toNat_toUInt64_run (byte : Nat → UInt8) (start : Nat) {n : Nat} (h : n ≤ 8) :
    (toUInt64 ((List.range n).map fun k => byte (start + k))).toNat = number byte start n := by
  have hlt := value_lt ((List.range n).map fun k => byte (start + k))
  have hle : 256 ^ n ≤ 256 ^ 8 := Nat.pow_le_pow_right (by decide) h
  rw [List.length_map, List.length_range] at hlt
  rw [toUInt64, UInt64.toNat_ofNat_of_lt' (Nat.lt_of_lt_of_le hlt hle), value_map_range, number]

end BlockVM.Bytes
