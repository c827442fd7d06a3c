import BlockVM.Proofs.Memory.Mapping
import Mathlib.Data.List.Pairwise
import Mathlib.Data.List.Nodup

/-!
# Live mappings

Addresses of a mapping that is gone may be handed out again, numbers are not. `Orderly` says how the
mappings of a host stand to each other at any time: they never meet, and each has a number of its
own below the count of all mappings. Mapping and unmapping keep it (`Orderly.map`, `Orderly.unmap`),
and in such a host taking an arena back takes back exactly that one (`Orderly.perm_unmap`).
-/

namespace BlockVM

namespace Arena

def Apart (a b : Arena) : Prop :=
  a.base.toNat + a.mapped ≤ b.base.toNat ∨ b.base.toNat + b.mapped ≤ a.base.toNat

instance : Std.Symm Apart := ⟨fun _ _ h => Or.symm h⟩

/-- An open arena with all of its bytes in a mapping of the lower half of the address space. -/
structure Placed (a : Arena) : Prop where
  isOpen : a.isOpen = true
  pos : 0 < a.mapped
  size_le : a.size ≤ a.mapped
  high : a.base.toNat + a.mapped ≤ 2 ^ 63

/-- Mappings that do not meet begin at different addresses. -/
theorem Apart.base_ne {a b : Arena} (h : a.Apart b) (ha : a.Placed) (hb : b.Placed) :
    a.base ≠ b.base := by
  intro heq
  have hpos := ha.pos
  have hpos' := hb.pos
  unfold Apart at h
  rw [heq] at h
  omega

/-- An access of at least one byte that an arena covers begins inside its mapping. -/
theorem Placed.inside_of_covers {a : Arena} (ha : a.Placed) {addr : UInt64} {n : Int64}
    (haddr : addr.toNat < 2 ^ 63) (hn : 0 < n.toInt) (h : a.covers addr n = true) :
    a.base.toNat ≤ addr.toNat ∧ addr.toNat < a.base.toNat + a.mapped := by
  have hhigh := ha.high
  have hsize := ha.size_le
  simp only [covers, Bool.and_eq_true, decide_eq_true_eq] at h
  obtain ⟨hbase, hend⟩ := h
  have hdist : (addr - a.base).toNat = addr.toNat - a.base.toNat :=
    UInt64.toNat_sub_of_le _ _ hbase
  have hlen : (n.toUInt64.toNat : Int) = n.toInt := toNat_toUInt64_of_nonneg (by omega)
  have hbound := toInt_bounds n
  rw [UInt64.le_iff_toNat_le] at hbase
  have hword : (UInt64.ofNat a.size).toNat = a.size := by
    apply UInt64.toNat_ofNat_of_lt'
    show a.size < 2 ^ 64
    omega
  rw [UInt64.le_iff_toNat_le, UInt64.toNat_add, hword, hdist, Nat.mod_eq_of_lt (by omega)] at hend
  omega

end Arena

/-- Among arenas with numbers of their own, only the arena itself is taken out. -/
theorem Space.perm_eraseP {l rest : List Arena} {a : Arena} (h : l.Perm (a :: rest))
    (distinct : (l.map (·.serial)).Nodup) : (l.eraseP (Space.same a)).Perm rest := by
  have once : l.Pairwise fun x y => Space.same a x = true → Space.same a y = true → False := by
    rw [List.Nodup, List.pairwise_map] at distinct
    refine distinct.imp fun hne hx hy => hne ?_
    rw [← beq_iff_eq.mp hx, ← beq_iff_eq.mp hy]
  have := List.Perm.eraseP (Space.same a) once h
  rwa [List.eraseP_cons_of_pos (Space.same_self a)] at this

namespace Host

/-- How the mappings of a host stand to each other. -/
structure Orderly (h : Host) : Prop where
  apart : h.live.Pairwise Arena.Apart
  /-- No two mappings have the same number. -/
  distinct : (h.live.map (·.serial)).Nodup
  numbered : ∀ a ∈ h.live, a.serial < h.history.length
  placed : ∀ a ∈ h.live, a.Placed

variable {h h' : Host} {a b : Arena}

theorem Grants.placed {name : String} {size : Int64} (g : h.Grants name size a h') : a.Placed := by
  obtain ⟨-, hhigh, -⟩ := isFree_iff.mp g.free
  exact ⟨g.isOpen, g.pos, g.size_le, by omega⟩

theorem Grants.apart {name : String} {size : Int64} (g : h.Grants name size a h')
    (hb : b ∈ h.live) : a.Apart b :=
  (isFree_iff.mp g.free).2.2 b hb

/-- A granted mapping has a serial number of its own. -/
theorem Orderly.map {name : String} {size : Int64} (o : h.Orderly) (g : h.Grants name size a h') :
    h'.Orderly where
  apart := by
    rw [g.live]
    exact .cons (fun b hb => g.apart hb) o.apart
  distinct := by
    rw [g.live, List.map_cons, List.nodup_cons]
    refine ⟨fun hmem => ?_, o.distinct⟩
    obtain ⟨b, hb, heq⟩ := List.mem_map.mp hmem
    have := o.numbered b hb
    rw [heq, g.serial] at this
    omega
  numbered := by
    rw [g.live, g.history, List.length_cons, List.forall_mem_cons, g.serial]
    exact ⟨by omega, fun b hb => Nat.lt_succ_of_lt (o.numbered b hb)⟩
  placed := by
    rw [g.live, List.forall_mem_cons]
    exact ⟨g.placed, o.placed⟩

theorem Orderly.unmap (o : h.Orderly) (a : Arena) : (h.unmap a).Orderly where
  apart := o.apart.sublist List.eraseP_sublist
  distinct := o.distinct.sublist (List.eraseP_sublist.map _)
  numbered b hb := o.numbered b (List.mem_of_mem_eraseP hb)
  placed b hb := o.placed b (List.mem_of_mem_eraseP hb)

/-- A host with the same mappings that has seen at least as many. -/
theorem Orderly.of_live (o : h.Orderly) (live : h'.live = h.live)
    (history : h.history.length ≤ h'.history.length) : h'.Orderly where
  apart := live ▸ o.apart
  distinct := live ▸ o.distinct
  numbered b hb := Nat.lt_of_lt_of_le (o.numbered b (live ▸ hb)) history
  placed := live ▸ o.placed

theorem Orderly.perm_unmap (o : h.Orderly) {rest : List Arena} (hp : h.live.Perm (a :: rest)) :
    (h.unmap a).live.Perm rest :=
  Space.perm_eraseP hp o.distinct

/-- Two mappings that exist at the same time do not meet. -/
theorem Orderly.apart_of_ne (o : h.Orderly) (ha : a ∈ h.live) (hb : b ∈ h.live) (hne : a ≠ b) :
    a.Apart b :=
  o.apart.forall ha hb hne

end Host

end BlockVM
