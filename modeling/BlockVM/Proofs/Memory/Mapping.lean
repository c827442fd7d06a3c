import BlockVM.Proofs.Memory.Access

/-!
# Mappings

Whatever the host plans, it maps whole pages where nothing is mapped. `map_eq_ok` says where the
arena of a mapping lies and what the host remembers of it, and `Grants.mapped` that it is an arena
whose accesses the checks decide exactly.
-/

namespace BlockVM

/-! ## The length of a mapping -/

/-- Division toward zero by the size of a page. -/
theorem tdiv_page (x : Int) : x.tdiv 4096 = if 0 ≤ x then x / 4096 else -(-x / 4096) := by
  split
  next h => exact Int.tdiv_eq_ediv_of_nonneg h
  next h =>
    rw [← Int.tdiv_eq_ediv_of_nonneg (by omega), Int.neg_tdiv, Int.neg_neg]

theorem toInt_wholePages (x : Int64) :
    (pageSize * (x / pageSize)).toInt = 4096 * x.toInt.tdiv 4096 := by
  have hp : pageSize.toInt = 4096 := rfl
  have hx := toInt_bounds x
  have hdiv : (x / pageSize).toInt = x.toInt.tdiv 4096 := by
    rw [Int64.toInt_div_of_ne_right _ _ (by decide), hp]
  rw [Int64.toInt_mul, hp, hdiv, tdiv_page]
  split <;> exact Int.bmod_eq_of_le (by omega) (by omega)

/-- The mapping of an arena holds all of its bytes. -/
theorem le_mappingLength {size : Int64} (h : 0 ≤ size) (hpos : 0 < mappingLength size) :
    size.toInt ≤ (mappingLength size).toInt := by
  have h0 := toInt_nonneg_iff.mp h
  have hb := toInt_bounds size
  unfold mappingLength at hpos ⊢
  split
  next hz =>
    rw [Int64.le_iff_toInt_le, Int64.toInt_zero] at hz
    have hp : pageSize.toInt = 4096 := rfl
    omega
  next hz =>
    have hsum : (pageSize + size - 1).toInt = (size.toInt + 4095).bmod (2 ^ 64) := by
      rw [Int64.toInt_sub, Int64.toInt_add, Int.bmod_sub_bmod]
      congr 1
      show 4096 + size.toInt - 1 = size.toInt + 4095
      omega
    rw [if_neg hz, Int64.lt_iff_toInt_lt, Int64.toInt_zero, toInt_wholePages, tdiv_page] at hpos
    rw [toInt_wholePages, tdiv_page]
    -- A sum that wraps is negative, and so is the length that is made from it.
    have hwrap := Int.bmod_def (size.toInt + 4095) (2 ^ 64)
    rw [← hsum] at hwrap
    split at hpos <;> split <;> split at hwrap <;> omega

/-! ## The host -/

namespace Host

/-- The mapping of an arena and that of a run of addresses do not meet. -/
def Clear (a : Arena) (base length : Nat) : Prop :=
  base + length ≤ a.base.toNat ∨ a.base.toNat + a.mapped ≤ base

/-- A place is free if it keeps clear of all live mappings and of both ends of the address space. -/
theorem isFree_iff {h : Host} {base : UInt64} {length : Nat} :
    h.isFree base length = true ↔ 4096 ≤ base.toNat ∧ base.toNat + length + 65536 ≤ 2 ^ 63 ∧
      ∀ a ∈ h.live, Clear a base.toNat length := by
  have hgap : gap.toNat = 65536 := rfl
  simp only [isFree, hgap, Bool.and_eq_true, decide_eq_true_iff, List.all_eq_true, Bool.or_eq_true,
    and_assoc]
  exact Iff.rfl

/-- Whatever its plans, the host puts a mapping where it is free. -/
theorem isFree_of_choose {h : Host} {base : UInt64} {length : Nat}
    (hc : h.choose length = some base) : h.isFree base length = true := by
  have here (b : UInt64) (hf : (if h.isFree b length then some b else none) = some base) :
      h.isFree base length = true := by
    split at hf
    next free =>
      cases hf
      exact free
    · cases hf
  unfold choose at hc
  dsimp only at hc
  split at hc
  · exact here _ hc
  · cases hc
  · split at hc
    next free =>
      cases hc
      exact free
    · exact here _ hc

/-- A mapping that the host grants: where the arena lies and what the host remembers of it. -/
structure Grants (h : Host) (name : String) (size : Int64) (a : Arena) (h' : Host) : Prop where
  name_eq : a.name = name
  size_eq : a.size = size.toNatClampNeg
  isOpen : a.isOpen = true
  serial : a.serial = h.history.length
  free : h.isFree a.base a.mapped = true
  size_le : a.size ≤ a.mapped
  pos : 0 < a.mapped
  history : h'.history = a :: h.history
  live : h'.live = a :: h.live

/-- What a mapping that succeeds is granted: its size in whole pages, its place and its serial
number. -/
theorem map_eq_ok {h h' : Host} {name : String} {size : Int64} {a : Arena}
    (hm : h.map name size = .ok (a, h')) : h.Grants name size a h' := by
  unfold map at hm
  split at hm
  · cases hm
  next hneg =>
    dsimp only at hm
    split at hm
    · cases hm
    next hlen =>
      split at hm
      · cases hm
      · split at hm
        · cases hm
        next base hc =>
          cases hm
          have hsize : Int64.ofNat size.toNatClampNeg = size :=
            size.ofNat_toNatClampNeg (Int64.not_lt.mp hneg)
          -- The host rounds the size of the arena, which is the size that was asked for.
          have hmapped : (mappingLength (Int64.ofNat size.toNatClampNeg)).toNatClampNeg =
              (mappingLength size).toNatClampNeg := by rw [hsize]
          have hpos := Int64.lt_iff_toInt_lt.mp (Int64.not_le.mp hlen)
          rw [Int64.toInt_zero] at hpos
          refine ⟨rfl, rfl, rfl, rfl, ?_, ?_, ?_, rfl, rfl⟩
          · show h.isFree base (mappingLength (Int64.ofNat size.toNatClampNeg)).toNatClampNeg = true
            rw [hmapped]
            exact isFree_of_choose hc
          · show size.toNatClampNeg ≤ (mappingLength (Int64.ofNat size.toNatClampNeg)).toNatClampNeg
            rw [hmapped]
            have hle := le_mappingLength (Int64.not_lt.mp hneg) (Int64.not_le.mp hlen)
            show size.toInt.toNat ≤ (mappingLength size).toInt.toNat
            omega
          · show 0 < (mappingLength (Int64.ofNat size.toNatClampNeg)).toNatClampNeg
            rw [hmapped]
            show 0 < (mappingLength size).toInt.toNat
            omega

/-- An arena that was mapped is one whose accesses the checks decide exactly. -/
theorem Grants.mapped {h h' : Host} {name : String} {size : Int64} {a : Arena}
    (g : h.Grants name size a h') : a.Mapped := by
  obtain ⟨hlow, hhigh, -⟩ := isFree_iff.mp g.free
  have := g.size_le
  exact ⟨g.isOpen, by omega, by omega⟩

end Host

/-! ## Registered arenas -/

theorem Space.same_self (a : Arena) : Space.same a a = true := beq_self_eq_true a.serial

/-- A space holds the arena that was added and those it held before. -/
theorem Space.perm_add (s : Space) (a : Arena) : (s.add a).1.arenas.Perm (a :: s.arenas) := by
  unfold Space.add
  dsimp only
  split
  · exact List.perm_append_singleton a s.arenas
  · exact (List.mergeSort_perm _ _).trans (List.perm_append_singleton a s.arenas)

end BlockVM
