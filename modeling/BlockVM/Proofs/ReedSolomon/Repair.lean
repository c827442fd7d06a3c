import Mathlib.Data.List.GetD
import Mathlib.LinearAlgebra.Lagrange
import BlockVM.Proofs.ReedSolomon.Field

/-!
# Shards from other shards

Byte by byte, the shards are the values of one polynomial whose degree is less than the number of
data shards (`value_shards`), so any shards that are as many as the data shards determine the
others. `repair_of_intact` says that the data shards are given back.
-/

namespace BlockVM

namespace Gf256.Element

def ofByte (a : UInt8) : Element := a

instance : DecidableEq Element := inferInstanceAs (DecidableEq UInt8)

theorem ofByte_injective : Function.Injective ofByte := fun _ _ h => h

@[simp] theorem ofByte_zero : ofByte 0 = 0 := rfl

@[simp] theorem ofByte_one : ofByte 1 = 1 := rfl

@[simp] theorem ofByte_xor (a b : UInt8) : ofByte (a ^^^ b) = ofByte a + ofByte b := rfl

@[simp] theorem ofByte_mul (a b : UInt8) : ofByte (mul a b) = ofByte a * ofByte b := rfl

@[simp] theorem ofByte_inv (a : UInt8) : ofByte (inv a) = (ofByte a)⁻¹ := rfl

theorem ofByte_xor' (a b : UInt8) : ofByte (a ^^^ b) = ofByte a - ofByte b := rfl

end Gf256.Element

namespace ReedSolomon

open Gf256 (mul inv Element)
open Gf256.Element Polynomial

/-! ## Interpolation -/

/-- The product that interpolation folds up, as a product in the field. -/
theorem ofByte_foldl (l : List UInt8) (node x init : UInt8) :
    ofByte (l.foldl (fun acc m => mul acc (mul (x ^^^ m) (inv (node ^^^ m)))) init) =
      ofByte init *
        (l.map fun m => (ofByte x - ofByte m) * (ofByte node - ofByte m)⁻¹).prod := by
  induction l generalizing init with
  | nil => rw [List.foldl_nil, List.map_nil, List.prod_nil, mul_one]
  | cons m l ih =>
    rw [List.foldl_cons, ih, ofByte_mul, ofByte_mul, ofByte_inv, ofByte_xor', ofByte_xor',
      List.map_cons, List.prod_cons, mul_assoc]

/-- A factor of a Lagrange basis polynomial at a point. -/
theorem eval_basisDivisor (a b x : Element) :
    (Lagrange.basisDivisor a b).eval x = (x - b) * (a - b)⁻¹ := by
  rw [Lagrange.basisDivisor, eval_mul, eval_C, eval_sub, eval_X, eval_C, mul_comm]

/-- The basis is that of Lagrange. -/
theorem ofByte_basis {nodes : List UInt8} (hnodes : nodes.Nodup) (node x : UInt8) :
    ofByte (basis nodes node x) =
      (Lagrange.basis nodes.toFinset ofByte node).eval (ofByte x) := by
  unfold basis
  rw [ofByte_foldl, ofByte_one, one_mul, Lagrange.basis, eval_prod,
    ← List.prod_toFinset _ (hnodes.filter _)]
  refine Finset.prod_congr ?_ fun m _ => ?_
  · ext m
    simp [and_comm]
  · rw [eval_basisDivisor]

/-- Each byte of a weighted sum of shards is the weighted sum of their bytes. -/
theorem foldl_zipWith {size : Nat} {points : List (UInt8 × List UInt8)} (weight : UInt8 → UInt8)
    (hsize : ∀ q ∈ points, q.2.length = size) {init : List UInt8} (hinit : init.length = size) :
    (points.foldl (fun acc q => List.zipWith (fun a b => a ^^^ mul (weight q.1) b) acc q.2)
      init).length = size ∧
    ∀ j < size,
      ofByte ((points.foldl
        (fun acc q => List.zipWith (fun a b => a ^^^ mul (weight q.1) b) acc q.2) init).getD j 0) =
      ofByte (init.getD j 0) +
        (points.map fun q => ofByte (weight q.1) * ofByte (q.2.getD j 0)).sum := by
  induction points generalizing init with
  | nil => exact ⟨hinit, fun j _ => (add_zero _).symm⟩
  | cons q points ih =>
    obtain ⟨hq, hsize⟩ := List.forall_mem_cons.mp hsize
    have hnext : (List.zipWith (fun a b => a ^^^ mul (weight q.1) b) init q.2).length = size := by
      rw [List.length_zipWith, hinit, hq, Nat.min_self]
    obtain ⟨hlength, hvalue⟩ := ih hsize hnext
    refine ⟨hlength, fun j hj => ?_⟩
    have hbyte : (List.zipWith (fun a b => a ^^^ mul (weight q.1) b) init q.2).getD j 0 =
        init.getD j 0 ^^^ mul (weight q.1) (q.2.getD j 0) := by
      simp [List.getD_eq_getElem?_getD, List.getElem?_zipWith,
        List.getElem?_eq_getElem (hinit ▸ hj), List.getElem?_eq_getElem (hq ▸ hj)]
    rw [List.foldl_cons, hvalue j hj, hbyte, ofByte_xor, ofByte_mul, List.map_cons,
      List.sum_cons, add_assoc]

/-- Interpolating bytes is evaluating the polynomial through them. -/
theorem interpolate_value {size : Nat} {points : List (UInt8 × List UInt8)}
    (hsize : ∀ q ∈ points, q.2.length = size) (x : UInt8) :
    (interpolate size points x).length = size ∧
    ∀ j < size, ofByte ((interpolate size points x).getD j 0) =
      (points.map fun q =>
        ofByte (basis (points.map (·.1)) q.1 x) * ofByte (q.2.getD j 0)).sum := by
  obtain ⟨hlength, hvalue⟩ := foldl_zipWith (fun node => basis (points.map (·.1)) node x) hsize
    (List.length_replicate (n := size) (a := 0))
  refine ⟨hlength, fun j hj => (hvalue j hj).trans ?_⟩
  have hzero : (List.replicate size (0 : UInt8)).getD j 0 = 0 := by
    rw [List.getD_eq_getElem?_getD, List.getElem?_replicate, if_pos hj, Option.getD_some]
  rw [hzero, ofByte_zero, zero_add]

/-- Through enough values of a polynomial, interpolation gives its other values. -/
theorem eval_of_interpolate {size j : Nat} {points : List (UInt8 × List UInt8)} {f : Element[X]}
    (hsize : ∀ q ∈ points, q.2.length = size) (hnodes : (points.map (·.1)).Nodup)
    (hdegree : f.degree < points.length) (hj : j < size)
    (hvalues : ∀ q ∈ points, f.eval (ofByte q.1) = ofByte (q.2.getD j 0)) (x : UInt8) :
    ofByte ((interpolate size points x).getD j 0) = f.eval (ofByte x) := by
  have hcard : (points.map (·.1)).toFinset.card = points.length := by
    rw [List.toFinset_card_of_nodup hnodes, List.length_map]
  have hf := Lagrange.eq_interpolate (s := (points.map (·.1)).toFinset) (v := ofByte) (f := f)
    ofByte_injective.injOn (by rw [hcard]; exact hdegree)
  rw [(interpolate_value hsize x).2 j hj, hf, Lagrange.interpolate_apply, eval_finsetSum,
    List.sum_toFinset _ hnodes, List.map_map]
  refine congrArg List.sum (List.map_congr_left fun q hq => ?_)
  rw [Function.comp_apply, eval_mul, eval_C, hvalues q hq, ofByte_basis hnodes, mul_comm]

/-! ## Shards -/

/-- The place of a shard. -/
def place (i : Nat) : UInt8 := UInt8.ofNat i

/-- Shards of different numbers have different places. -/
theorem place_injOn : Set.InjOn place {i | i < 256} := by
  intro i hi j hj h
  have h := congrArg UInt8.toNat h
  rwa [place, place, UInt8.toNat_ofNat_of_lt' hi, UInt8.toNat_ofNat_of_lt' hj] at h

theorem nodup_places {is : List Nat} (hnodup : is.Nodup) (hlt : ∀ i ∈ is, i < 256) :
    (is.map place).Nodup :=
  hnodup.map_on fun i hi j hj => place_injOn (hlt i hi) (hlt j hj)

/-- The polynomial of the bytes at one place in the data shards. -/
noncomputable def bytePolynomial (data : List (List UInt8)) (j : Nat) : Element[X] :=
  Lagrange.interpolate (Finset.range data.length) (fun i => ofByte (place i))
    fun i => ofByte ((data.getD i []).getD j 0)

section Shards

variable {data : List (List UInt8)} {size count : Nat} (hfit : data.length + count ≤ 256)

include hfit

theorem ofByte_place_injOn :
    Set.InjOn (fun i => ofByte (place i)) (Finset.range data.length : Set Nat) := by
  intro i hi j hj h
  have hi := Finset.mem_range.mp (Finset.mem_coe.mp hi)
  have hj := Finset.mem_range.mp (Finset.mem_coe.mp hj)
  exact place_injOn (show i < 256 by omega) (show j < 256 by omega) (ofByte_injective h)

/-- The polynomial of a column of bytes has a degree below the number of data shards. -/
theorem degree_bytePolynomial (j : Nat) : (bytePolynomial data j).degree < data.length := by
  have h := Lagrange.degree_interpolate_lt (s := Finset.range data.length)
    (fun i => ofByte ((data.getD i []).getD j 0)) (ofByte_place_injOn hfit)
  rwa [Finset.card_range] at h

theorem eval_data {i : Nat} {s : List UInt8} (hs : data[i]? = some s) (j : Nat) :
    (bytePolynomial data j).eval (ofByte (place i)) = ofByte (s.getD j 0) := by
  have hi := Finset.mem_range.mpr (List.getElem?_eq_some_iff.mp hs).1
  have hget : data.getD i [] = s := by
    rw [List.getD_eq_getElem?_getD, hs, Option.getD_some]
  exact (Lagrange.eval_interpolate_at_node _ (ofByte_place_injOn hfit) hi).trans (by rw [hget])

/-- The shard holds the values at place `i`. -/
structure Fits (data : List (List UInt8)) (size i : Nat) (s : List UInt8) : Prop where
  length : s.length = size
  value : ∀ j < size, (bytePolynomial data j).eval (ofByte (place i)) = ofByte (s.getD j 0)

omit hfit in
theorem Fits.unique {i : Nat} {s s' : List UInt8} (h : Fits data size i s)
    (h' : Fits data size i s') : s = s' := by
  refine List.ext_getElem (h.length.trans h'.length.symm) fun j hj hj' => ?_
  have hvalue := (h.value j (h.length ▸ hj)).symm.trans (h'.value j (h.length ▸ hj))
  have hvalue := ofByte_injective hvalue
  rwa [List.getD_eq_getElem _ _ hj, List.getD_eq_getElem _ _ hj'] at hvalue

theorem fits_data (hdata : ∀ s ∈ data, s.length = size) {i : Nat} {s : List UInt8}
    (hs : data[i]? = some s) : Fits data size i s :=
  ⟨hdata s (List.mem_of_getElem? hs), fun j _ => eval_data hfit hs j⟩

/-- Shards at as many places as there are data shards give the shard at any place. -/
theorem fits_interpolate {known : List (Nat × List UInt8)} (hlength : known.length = data.length)
    (hnodup : (known.map (·.1)).Nodup) (hlt : ∀ q ∈ known, q.1 < 256)
    (hknown : ∀ q ∈ known, Fits data size q.1 q.2) (i : Nat) :
    Fits data size i (interpolate size (known.map fun q => (place q.1, q.2)) (place i)) := by
  have hsize : ∀ q ∈ known.map (fun q => (place q.1, q.2)), q.2.length = size := by
    intro _ h
    obtain ⟨q, hq, rfl⟩ := List.mem_map.mp h
    exact (hknown q hq).length
  refine ⟨(interpolate_value hsize _).1, fun j hj => (eval_of_interpolate hsize ?_ ?_ hj ?_ _).symm⟩
  · rw [List.map_map]
    have := nodup_places hnodup (by simpa using hlt)
    rwa [List.map_map] at this
  · rw [List.length_map, hlength]
    exact degree_bytePolynomial hfit j
  · intro _ h
    obtain ⟨q, hq, rfl⟩ := List.mem_map.mp h
    exact (hknown q hq).value j hj

/-- The parity shards are more values of the same polynomials. -/
theorem fits_parity (hdata : ∀ s ∈ data, s.length = size) (hsome : data ≠ []) {k : Nat}
    {s : List UInt8} (hs : (parity count data)[k]? = some s) :
    Fits data size (data.length + k) s := by
  have hhead : (data.head?.map (·.length)).getD 0 = size := by
    obtain ⟨first, rest, rfl⟩ := List.exists_cons_of_ne_nil hsome
    exact hdata first (List.mem_cons_self ..)
  have hmem : ∀ q ∈ data.zipIdx.map fun q => (q.2, q.1), data[q.1]? = some q.2 := by
    intro _ h
    obtain ⟨q, hq, rfl⟩ := List.mem_map.mp h
    exact List.mem_zipIdx_iff_getElem?.mp hq
  have hlength : (data.zipIdx.map fun q => (q.2, q.1)).length = data.length := by
    rw [List.length_map, List.length_zipIdx]
  have hnodup : ((data.zipIdx.map fun q => (q.2, q.1)).map (·.1)).Nodup := by
    rw [List.map_map]
    exact (List.zipIdx_map_snd 0 data).symm ▸ List.nodup_range'
  have hlt : ∀ q ∈ data.zipIdx.map fun q => (q.2, q.1), q.1 < 256 := by
    intro q hq
    have := (List.getElem?_eq_some_iff.mp (hmem q hq)).1
    omega
  have hfits : ∀ q ∈ data.zipIdx.map fun q => (q.2, q.1), Fits data size q.1 q.2 :=
    fun q hq => fits_data hfit hdata (hmem q hq)
  -- A parity shard is interpolated from the data shards, like every other point of the polynomial.
  have hlast := fits_interpolate hfit hlength hnodup hlt hfits (data.length + k)
  unfold parity at hs
  dsimp only at hs
  rw [hhead, List.getElem?_map] at hs
  obtain ⟨k', hk, rfl⟩ := Option.map_eq_some_iff.mp hs
  obtain ⟨-, rfl⟩ := List.getElem?_eq_some_iff.mp hk
  rw [List.getElem_range]
  rwa [List.map_map] at hlast

/-- All shards are values of the same polynomials. -/
theorem fits_shards (hdata : ∀ s ∈ data, s.length = size) (hsome : data ≠ []) {i : Nat}
    {s : List UInt8} (hs : (data ++ parity count data)[i]? = some s) : Fits data size i s := by
  by_cases hi : i < data.length
  · rw [List.getElem?_append_left hi] at hs
    exact fits_data hfit hdata hs
  · rw [List.getElem?_append_right (by omega)] at hs
    have h := fits_parity hfit hdata hsome hs
    rwa [Nat.add_sub_cancel' (by omega)] at h

/-- Shards that fit at the places of the data shards are the data shards. -/
theorem eq_data_of_fits (hdata : ∀ s ∈ data, s.length = size) {shards : List (List UInt8)}
    (hlength : shards.length = data.length)
    (h : ∀ (i : Nat) s, shards[i]? = some s → Fits data size i s) : shards = data := by
  refine List.ext_getElem hlength fun i hi hi' => ?_
  exact (h i _ (List.getElem?_eq_getElem hi)).unique
    (fits_data hfit hdata (List.getElem?_eq_getElem hi'))

end Shards

/-! ## Repair -/

/-- What is present of the shards, each with its number. -/
theorem mem_present {shards : List (Option (List UInt8))} {q : Nat × List UInt8} :
    q ∈ present shards ↔ shards[q.1]? = some (some q.2) ∧ q.2 ≠ [] := by
  obtain ⟨i, s⟩ := q
  unfold present
  rw [List.mem_filterMap]
  constructor
  · rintro ⟨⟨o, k⟩, hmem, h⟩
    have hk := List.mem_zipIdx_iff_getElem?.mp hmem
    dsimp only at h
    split at h
    next b bs =>
      cases h
      exact ⟨hk, List.cons_ne_nil b bs⟩
    · cases h
  · rintro ⟨hs, hne⟩
    obtain ⟨b, bs, rfl⟩ := List.exists_cons_of_ne_nil hne
    exact ⟨(some (b :: bs), i), List.mem_zipIdx_iff_getElem?.mpr hs, rfl⟩

theorem sublist_map_filterMap {α β γ : Type} (f : α → Option β) {g : β → γ} {g' : α → γ}
    (h : ∀ a b, f a = some b → g b = g' a) (l : List α) :
    ((l.filterMap f).map g).Sublist (l.map g') := by
  induction l with
  | nil => exact .slnil
  | cons a l ih =>
    cases hf : f a with
    | none =>
      rw [List.filterMap_cons_none hf]
      exact .cons _ ih
    | some b =>
      rw [List.filterMap_cons_some hf, List.map_cons, List.map_cons, h a b hf]
      exact .cons_cons _ ih

/-- The shards that are there stand in the order of their places. -/
theorem places_present (shards : List (Option (List UInt8))) :
    ((present shards).map (·.1)).Sublist (List.range shards.length) := by
  rw [List.range_eq_range', ← List.zipIdx_map_snd 0 shards]
  refine sublist_map_filterMap _ (fun ⟨o, i⟩ q hq => ?_) _
  dsimp only at hq
  split at hq
  · cases hq
    rfl
  · cases hq

/-- None of the shards that were found is empty, so all of them are present. -/
theorem length_present {shards : List (Option (List UInt8))}
    (h : ∀ (i : Nat) s, shards[i]? = some (some s) → s ≠ []) :
    (present shards).length = (shards.filter (·.isSome)).length := by
  unfold present
  rw [List.length_filterMap_eq_countP, ← List.countP_eq_length_filter]
  conv_rhs => rw [← List.zipIdx_map_fst 0 shards, List.countP_map]
  refine List.countP_congr fun ⟨o, i⟩ hmem => ?_
  have hi := List.mem_zipIdx_iff_getElem?.mp hmem
  match o, hi with
  | none, _ => exact Iff.rfl
  | some [], hi => exact absurd rfl (h i [] hi)
  | some (b :: bs), _ => exact Iff.rfl

/-- Where shards are there, they are the original ones. -/
structure Intact (known : List (Option (List UInt8))) (shards : List (List UInt8)) : Prop where
  length : known.length = shards.length
  original : ∀ (i : Nat) s, known[i]? = some (some s) → shards[i]? = some s

theorem length_parity (count : Nat) (data : List (List UInt8)) :
    (parity count data).length = count := by
  unfold parity
  dsimp only
  rw [List.length_map, List.length_range]

theorem filter_range (k n : Nat) : (List.range (k + n)).filter (· < k) = List.range k := by
  rw [List.range_add, List.filter_append, List.filter_eq_self.mpr, List.filter_eq_nil_iff.mpr,
    List.append_nil]
  · intro i hi
    obtain ⟨j, -, rfl⟩ := List.mem_map.mp hi
    simp
  · intro i hi
    exact decide_eq_true (List.mem_range.mp hi)

/-- If all data shards are there, they stand at their places. -/
theorem place_of_full {known : List (Nat × List UInt8)} {k n : Nat}
    (hsub : (known.map (·.1)).Sublist (List.range (k + n)))
    (hfull : (known.filter (·.1 < k)).length = k) {i : Nat} {q : Nat × List UInt8}
    (hq : (known.filter (·.1 < k))[i]? = some q) : q.1 = i := by
  have hplaces : (known.filter (·.1 < k)).map (·.1) = List.range k := by
    have h := hsub.filter (· < k)
    rw [filter_range, List.filter_map] at h
    exact h.eq_of_length (by rw [List.length_map, List.length_range]; exact hfull)
  have hi : (List.range k)[i]? = some q.1 := by
    rw [← hplaces, List.getElem?_map, hq, Option.map_some]
  obtain ⟨_, hplace⟩ := List.getElem?_eq_some_iff.mp hi
  rw [List.getElem_range] at hplace
  exact hplace.symm

/-- From enough shards, each one fits that is there or is computed from the first of them. -/
theorem fits_restored {data : List (List UInt8)} {size count : Nat}
    (hfit : data.length + count ≤ 256) {known : List (Nat × List UInt8)}
    (hplaces : (known.map (·.1)).Sublist (List.range (data.length + count)))
    (hknown : ∀ q ∈ known, Fits data size q.1 q.2) (enough : data.length ≤ known.length) (i : Nat) :
    Fits data size i (match known.lookup i with
      | some shard => shard
      | none => interpolate size
          ((known.take data.length).map fun q => (place q.1, q.2)) (place i)) := by
  split
  next s found =>
    obtain ⟨before, after, heq, -⟩ := List.lookup_eq_some_iff.mp found
    exact hknown (i, s) (by rw [heq]; simp)
  next =>
    have taken := List.take_sublist data.length known
    refine fits_interpolate hfit ?_ ?_ ?_ (fun q hq => hknown q (taken.mem hq)) i
    · rw [List.length_take, Nat.min_eq_left enough]
    · exact (taken.map _).nodup (hplaces.nodup List.nodup_range)
    · intro q hq
      have := List.mem_range.mp (hplaces.mem (List.mem_map_of_mem (taken.mem hq)))
      omega

/-- The data shards come back from any shards that are as many. -/
theorem repair_of_intact {data : List (List UInt8)} {size count : Nat}
    (hfit : data.length + count ≤ 256) (hdata : ∀ s ∈ data, s.length = size) (hsome : data ≠ [])
    (hsize : 0 < size) {known : List (Option (List UInt8))}
    (intact : Intact known (data ++ parity count data))
    (enough : data.length ≤ (known.filter (·.isSome)).length) :
    repair data.length known = .ok data := by
  have hfits (i : Nat) (s : List UInt8) (hs : known[i]? = some (some s)) : Fits data size i s :=
    fits_shards hfit hdata hsome (intact.original i s hs)
  have hne (i : Nat) (s : List UInt8) (hs : known[i]? = some (some s)) : s ≠ [] := by
    rintro rfl
    have := (hfits i [] hs).length
    rw [List.length_nil] at this
    omega
  have hmem : ∀ q ∈ present known, Fits data size q.1 q.2 :=
    fun q hq => hfits q.1 q.2 (mem_present.mp hq).1
  have hlength : known.length = data.length + count := by
    rw [intact.length, List.length_append, length_parity]
  have hplaces := places_present known
  rw [hlength] at hplaces
  rw [← length_present hne] at enough
  unfold repair
  dsimp only
  split
  next heq =>
    rw [heq] at enough
    exact absurd (List.length_eq_zero_iff.mp (Nat.le_zero.mp enough)) hsome
  next k first rest heq =>
    have hfirst : first.length = size := (hmem (k, first) (by rw [heq]; simp)).length
    split
    next hfull =>
      -- No data shard is missing: what is kept stands in the order of the places.
      refine congrArg _
        (eq_data_of_fits hfit hdata (by rw [List.length_map, hfull]) fun i s hs => ?_)
      rw [List.getElem?_map] at hs
      obtain ⟨q, hq, rfl⟩ := Option.map_eq_some_iff.mp hs
      rw [← place_of_full hplaces hfull hq]
      exact hmem q (List.mem_of_mem_filter (List.mem_of_getElem? hq))
    · rw [if_neg (by omega), if_neg (by omega), hfirst]
      refine congrArg _ (eq_data_of_fits hfit hdata
        (by rw [List.length_map, List.length_range]) fun i s hs => ?_)
      rw [List.getElem?_map] at hs
      obtain ⟨j, hj, rfl⟩ := Option.map_eq_some_iff.mp hs
      obtain ⟨-, rfl⟩ := List.getElem?_eq_some_iff.mp hj
      rw [List.getElem_range]
      exact fits_restored hfit hplaces hmem enough i

end ReedSolomon

end BlockVM
