import BlockVM.Proofs.Machine.Cores
import BlockVM.Proofs.Memory.Live
import BlockVM.Proofs.Result
import Mathlib.Data.List.Perm.Basic

/-!
# The balance of a process

Four things know of the memory of a process: the table of heaps, the space in which programs look up
addresses, the cores that hold their arenas, and the host. `Balanced` says that they agree: what is
mapped is the global data, the memory of the open cores and the heaps, and all of it but the
register files is registered. `Later` says how the books of two times are related: an arena is held
for the same purpose as before, or it was mapped in between.

Each operation of a process keeps the balance and leads to a later time (`Onward`), whether it
succeeds or fails.
-/

namespace BlockVM

namespace CoreMemory

def arenas (c : CoreMemory) : List Arena := [c.state, c.stack, c.data]

def reachable (c : CoreMemory) : List Arena := [c.stack, c.data]

end CoreMemory

namespace Proc

/-- The memory of all open cores: of those that were taken up and of those that wait for it. -/
def openCores (p : Proc) (cs : List CoreMemory) : List CoreMemory :=
  cs ++ p.spawned.map (·.toCoreMemory)

def heapArenas (p : Proc) : List Arena := p.heaps.map (·.2)

/-- The books of a process agree. The cores that were taken up are not part of the process; `cs` is
their memory. -/
structure Balanced (p : Proc) (cs : List CoreMemory) : Prop where
  orderly : p.host.Orderly
  live : p.host.live.Perm (p.global :: (p.openCores cs).flatMap (·.arenas) ++ p.heapArenas)
  space : p.space.arenas.Perm (p.global :: (p.openCores cs).flatMap (·.reachable) ++ p.heapArenas)
  /-- Heaps are stored under their addresses. -/
  keyed : ∀ e ∈ p.heaps, e.1 = e.2.base
  named : (p.heapArenas.map (·.name)).Nodup
  numbered : ∀ a ∈ p.heapArenas, ∃ i < p.heapCount, a.name = "heap" ++ toString i

/-- What is held at the later time was held before for the same purpose, or was mapped since. -/
structure Later (p : Proc) (cs : List CoreMemory) (p' : Proc) (cs' : List CoreMemory) : Prop where
  history : p.host.history.length ≤ p'.host.history.length
  global : p'.global = p.global
  cores : ∀ a ∈ (p'.openCores cs').flatMap (·.arenas),
    a ∈ (p.openCores cs).flatMap (·.arenas) ∨ p.host.history.length ≤ a.serial
  heaps : ∀ a ∈ p'.heapArenas, a ∈ p.heapArenas ∨ p.host.history.length ≤ a.serial

/-- A later time with balanced books. -/
structure Onward (p : Proc) (cs : List CoreMemory) (p' : Proc) (cs' : List CoreMemory) : Prop where
  later : p.Later cs p' cs'
  balanced : p'.Balanced cs'

variable {p p' p'' : Proc} {cs cs' cs'' : List CoreMemory}

theorem Later.refl (p : Proc) (cs : List CoreMemory) : p.Later cs p cs :=
  ⟨Nat.le_refl _, rfl, fun _ => .inl, fun _ => .inl⟩

theorem Later.trans (h : p.Later cs p' cs') (h' : p'.Later cs' p'' cs'') : p.Later cs p'' cs'' where
  history := Nat.le_trans h.history h'.history
  global := h'.global.trans h.global
  cores a ha := by
    rcases h'.cores a ha with hmem | hnew
    · exact h.cores a hmem
    · exact .inr (Nat.le_trans h.history hnew)
  heaps a ha := by
    rcases h'.heaps a ha with hmem | hnew
    · exact h.heaps a hmem
    · exact .inr (Nat.le_trans h.history hnew)

theorem Balanced.onward (h : p.Balanced cs) : p.Onward cs p cs := ⟨.refl p cs, h⟩

theorem Onward.trans (h : p.Onward cs p' cs') (h' : p'.Onward cs' p'' cs'') :
    p.Onward cs p'' cs'' :=
  ⟨h.later.trans h'.later, h'.balanced⟩

/-! ## What balanced books say -/

theorem reachable_sublist (cs : List CoreMemory) :
    (cs.flatMap (·.reachable)).Sublist (cs.flatMap (·.arenas)) := by
  induction cs with
  | nil => exact .slnil
  | cons c cs ih => exact .cons _ (ih.append_left [c.stack, c.data])

/-- Everything that is registered is mapped. -/
theorem Balanced.space_subset (h : p.Balanced cs) {a : Arena} (ha : a ∈ p.space.arenas) :
    a ∈ p.host.live := by
  rw [h.live.mem_iff]
  rw [h.space.mem_iff] at ha
  exact ((reachable_sublist _).cons_cons p.global |>.append_right p.heapArenas).subset ha

/-- No two registered arenas have the same number. -/
theorem Balanced.space_distinct (h : p.Balanced cs) : (p.space.arenas.map (·.serial)).Nodup := by
  rw [(h.space.map _).nodup_iff]
  have hall := ((h.live.map (·.serial)).nodup_iff).mp h.orderly.distinct
  exact hall.sublist
    (((reachable_sublist _).cons_cons p.global |>.append_right p.heapArenas).map _)

theorem Balanced.heap_mem_live (h : p.Balanced cs) {a : Arena} (ha : a ∈ p.heapArenas) :
    a ∈ p.host.live := by
  rw [h.live.mem_iff]
  exact List.mem_append_right _ ha

/-- What is mapped as a heap is not mapped for anything else. -/
theorem Balanced.heap_not_mem (h : p.Balanced cs) {a : Arena} (ha : a ∈ p.heapArenas) :
    a ∉ p.global :: (p.openCores cs).flatMap (·.arenas) := by
  have hall := (h.live.nodup_iff).mp (h.orderly.distinct.of_map _)
  exact fun hmem => List.disjoint_of_nodup_append hall hmem ha

/-- Live heaps have different addresses. -/
theorem Balanced.keys (h : p.Balanced cs) : (p.heaps.map (·.1)).Nodup := by
  have apart : p.heapArenas.Pairwise Arena.Apart :=
    ((h.live.pairwise_iff fun hab => Or.symm hab).mp h.orderly.apart).sublist
      (List.sublist_append_right _ _)
  have keys : p.heaps.map (·.1) = p.heapArenas.map (·.base) := by
    rw [heapArenas, List.map_map]
    exact List.map_congr_left h.keyed
  rw [keys, List.Nodup, List.pairwise_map]
  refine apart.imp_of_mem fun ha hb hab => ?_
  exact hab.base_ne (h.orderly.placed _ (h.heap_mem_live ha))
    (h.orderly.placed _ (h.heap_mem_live hb))

/-! ## Changes that the books do not see -/

/-- The process has the same arenas for the same purposes. -/
structure Undisturbed (p p' : Proc) : Prop where
  space : p'.space = p.space
  heaps : p'.heaps = p.heaps
  heapCount : p.heapCount ≤ p'.heapCount
  global : p'.global = p.global
  live : p'.host.live = p.host.live
  history : p.host.history.length ≤ p'.host.history.length

/-- Open cores may change hands. -/
theorem Balanced.rearrange (h : p.Balanced cs) (u : p.Undisturbed p')
    (cores : (p'.openCores cs').Perm (p.openCores cs)) : p.Onward cs p' cs' := by
  have heaps : p'.heapArenas = p.heapArenas := by rw [heapArenas, heapArenas, u.heaps]
  refine ⟨⟨u.history, u.global, fun a ha => .inl ?_, fun a ha => .inl (heaps ▸ ha)⟩, ?_⟩
  · exact ((cores.flatMap_right _).mem_iff).mp ha
  · exact {
      orderly := h.orderly.of_live u.live u.history
      live := by
        rw [u.live, u.global, heaps]
        exact h.live.trans (((cores.symm.flatMap_right _).cons _).append_right _)
      space := by
        rw [u.space, u.global, heaps]
        exact h.space.trans (((cores.symm.flatMap_right _).cons _).append_right _)
      keyed := u.heaps ▸ h.keyed
      named := heaps ▸ h.named
      numbered := fun a ha => by
        obtain ⟨i, hi, hname⟩ := h.numbered a (heaps ▸ ha)
        exact ⟨i, Nat.lt_of_lt_of_le hi u.heapCount, hname⟩ }

/-- What asks the host for nothing leaves the balance as it is. -/
theorem Balanced.undisturbed (h : p.Balanced cs) (u : p.Undisturbed p')
    (spawned : p'.spawned = p.spawned) : p.Onward cs p' cs := by
  refine h.rearrange u ?_
  rw [openCores, openCores, spawned]

/-! ## Heaps -/

def Refuses (p : Proc) (size : UInt64) : Prop :=
  size = 0 ∨ maxHeap < size ∨
    ∃ f, p.host.map ("heap" ++ toString p.heapCount) size.toInt64 = .error f

/-- How making a heap ends: refused, with a name used up at most, or granted, with one more heap. -/
theorem makeHeap_cases (p : Proc) (size : UInt64) :
    (p.Refuses size ∧ ∃ n, p.heapCount ≤ n ∧ p.makeHeap size = ({ p with heapCount := n }, none)) ∨
    ∃ a host, p.host.Grants ("heap" ++ toString p.heapCount) size.toInt64 a host ∧
      ¬ p.Refuses size ∧
      p.makeHeap size = (({ p with
        heapCount := p.heapCount + 1
        host := host
        heaps := (a.base, a) :: p.heaps.eraseP (·.1 == a.base) } : Proc).register a,
        some a.base) := by
  unfold makeHeap
  split
  next hsize =>
    refine .inl ⟨?_, p.heapCount, Nat.le_refl _, rfl⟩
    exact hsize.elim .inl fun h => .inr (.inl h)
  next hsize =>
    -- The number of the heap is used up even if the host then refuses the mapping.
    dsimp only
    split
    next f hmap => exact .inl ⟨.inr (.inr ⟨f, hmap⟩), p.heapCount + 1, Nat.le_succ _, rfl⟩
    next a host hmap =>
      refine .inr ⟨a, host, Host.map_eq_ok hmap, ?_, rfl⟩
      rintro (hz | hbig | ⟨f, hf⟩)
      · exact hsize (.inl hz)
      · exact hsize (.inr hbig)
      · rw [hmap] at hf
        cases hf

/-- How destroying one ends: nothing stands under the base, or that heap is given back. -/
theorem destroyHeap_cases (p : Proc) (base : UInt64) :
    (p.heaps.lookup base = none ∧ p.destroyHeap base = p) ∨
    ∃ before h after, p.heaps = before ++ (base, h) :: after ∧
      p.heaps.lookup base = some h ∧
      p.destroyHeap base = { p with
        heaps := before ++ after
        space := p.space.remove h
        host := p.host.unmap h } := by
  unfold destroyHeap
  split
  next hnone => exact .inl ⟨hnone, rfl⟩
  next h hsome =>
    obtain ⟨before, after, heaps, hbefore⟩ := List.lookup_eq_some_iff.mp hsome
    refine .inr ⟨before, h, after, heaps, hsome, ?_⟩
    have herase : p.heaps.eraseP (·.1 == base) = before ++ after := by
      rw [heaps, List.eraseP_append_right, List.eraseP_cons_of_pos]
      · exact beq_self_eq_true base
      · intro e he
        have hne := bne_iff_ne.mp (hbefore e he)
        exact fun heq => hne (beq_iff_eq.mp heq).symm
    rw [herase]

/-- The number of a heap can be read from its name. -/
theorem heapName_inj {i j : Nat} (h : "heap" ++ toString i = "heap" ++ toString j) : i = j := by
  have digits : Nat.toDigits 10 i = Nat.toDigits 10 j := by
    have := congrArg String.toList h
    simpa only [String.toList_append, List.append_cancel_left_eq, Nat.toString_eq_ofList_toDigits,
      String.toList_ofList] using this
  rw [← Nat.ofDigitChars_ten_toDigits (n := i), digits, Nat.ofDigitChars_ten_toDigits]

/-- The table has no heap at an address that was just mapped. -/
theorem Balanced.no_key {name : String} {size : Int64} {a : Arena} {host : Host}
    (h : p.Balanced cs) (g : p.host.Grants name size a host) :
    ∀ e ∈ p.heaps, ¬ (e.1 == a.base) := by
  intro e he heq
  have hlive := h.heap_mem_live (List.mem_map_of_mem he)
  apply (g.apart hlive).base_ne g.placed (h.orderly.placed _ hlive)
  rw [← h.keyed e he, beq_iff_eq.mp heq]

theorem Balanced.makeHeap (h : p.Balanced cs) (size : UInt64) :
    p.Onward cs (p.makeHeap size).1 cs := by
  rcases p.makeHeap_cases size with ⟨-, n, hn, made⟩ | ⟨a, host, g, -, made⟩
  · rw [made]
    exact h.undisturbed ⟨rfl, rfl, hn, rfl, rfl, Nat.le_refl _⟩ rfl
  · rw [made, List.eraseP_of_forall_not (h.no_key g)]
    constructor
    · refine ⟨?_, rfl, fun _ => .inl, ?_⟩
      · show p.host.history.length ≤ host.history.length
        rw [g.history, List.length_cons]
        omega
      · exact List.forall_mem_cons.mpr ⟨.inr (Nat.le_of_eq g.serial.symm), fun _ => .inl⟩
    · exact {
        orderly := h.orderly.map g
        live := by
          show host.live.Perm _
          rw [g.live]
          exact (h.live.cons a).trans List.perm_middle.symm
        space := (p.space.perm_add a).trans ((h.space.cons a).trans List.perm_middle.symm)
        keyed := List.forall_mem_cons.mpr ⟨rfl, h.keyed⟩
        named := by
          refine List.nodup_cons.mpr ⟨fun hmem => ?_, h.named⟩
          -- A heap with the same name would have the number that is only now given out.
          obtain ⟨b, hb, heq⟩ := List.mem_map.mp hmem
          obtain ⟨i, hi, hname⟩ := h.numbered b hb
          have heq : b.name = a.name := heq
          rw [hname, g.name_eq] at heq
          exact absurd (heapName_inj heq) (Nat.ne_of_lt hi)
        numbered := by
          refine List.forall_mem_cons.mpr ⟨⟨p.heapCount, Nat.lt_succ_self _, g.name_eq⟩, ?_⟩
          intro b hb
          obtain ⟨i, hi, hname⟩ := h.numbered b hb
          exact ⟨i, Nat.lt_succ_of_lt hi, hname⟩ }

theorem Balanced.destroyHeap (h : p.Balanced cs) (base : UInt64) :
    p.Onward cs (p.destroyHeap base) cs := by
  rcases p.destroyHeap_cases base with ⟨-, same⟩ | ⟨before, a, after, heaps, -, gone⟩
  · rw [same]
    exact h.onward
  · have table : p.heaps.Perm ((base, a) :: (p.destroyHeap base).heaps) := by
      rw [gone, heaps]
      exact List.perm_middle
    have arenas : p.heapArenas.Perm (a :: (p.destroyHeap base).heapArenas)  :=
      table.map Prod.snd
    -- In the space and among the live mappings the heap stands behind the rest.
    have front : ∀ l, (l ++ p.heapArenas).Perm (a :: (l ++ (p.destroyHeap base).heapArenas)) :=
      fun l => (arenas.append_left l).trans List.perm_middle
    rw [gone] at table arenas front ⊢
    constructor
    · refine ⟨Nat.le_refl _, rfl, fun _ => .inl, fun b hb => .inl ?_⟩
      exact arenas.mem_iff.mpr (.tail _ hb)
    · exact {
        orderly := h.orderly.unmap a
        live := h.orderly.perm_unmap (h.live.trans (front _))
        space := Space.perm_eraseP (h.space.trans (front _)) h.space_distinct
        keyed := fun e he => h.keyed e (table.mem_iff.mpr (.tail _ he))
        named := ((arenas.map (·.name)).nodup_iff.mp h.named).of_cons
        numbered := fun b hb => h.numbered b (arenas.mem_iff.mpr (.tail _ hb)) }

/-- A make that is refused changes neither the table nor the space. -/
theorem makeHeap_of_refuses {size : UInt64} (refuses : p.Refuses size) :
    (p.makeHeap size).1.heaps = p.heaps ∧ (p.makeHeap size).1.space = p.space := by
  rcases p.makeHeap_cases size with ⟨-, n, -, made⟩ | ⟨_, _, -, grants, -⟩
  · rw [made]
    exact ⟨rfl, rfl⟩
  · exact absurd refuses grants

/-- Any other make adds one heap of the size that was asked for. -/
theorem Balanced.makeHeap_of_grants (h : p.Balanced cs) {size : UInt64}
    (grants : ¬ p.Refuses size) :
    ∃ a : Arena, a.size = size.toNat ∧ (p.makeHeap size).1.heaps = (a.base, a) :: p.heaps := by
  rcases p.makeHeap_cases size with ⟨refuses, -⟩ | ⟨a, host, g, -, made⟩
  · exact absurd refuses grants
  · refine ⟨a, ?_, ?_⟩
    · have hmax : ¬ maxHeap < size := fun hbig => grants (.inr (.inl hbig))
      rw [UInt64.lt_iff_toNat_lt] at hmax
      have hbound : maxHeap.toNat = 2 ^ 40 := by rfl
      have hsigned := toInt_toInt64_of_lt (x := size) (by omega)
      rw [g.size_eq, Int64.toNatClampNeg, hsigned, Int.toNat_natCast]
    · rw [made, List.eraseP_of_forall_not (h.no_key g)]
      rfl

/-- A destroy at an address where no heap begins changes nothing. -/
theorem Balanced.destroyHeap_of_no_heap (h : p.Balanced cs) {base : UInt64}
    (absent : ∀ e ∈ p.heaps, e.2.base ≠ base) : p.destroyHeap base = p := by
  rcases p.destroyHeap_cases base with ⟨-, same⟩ | ⟨before, a, after, heaps, -⟩
  · exact same
  · have hmem : (base, a) ∈ p.heaps := by
      rw [heaps]
      exact List.mem_append_right _ (.head _)
    exact absurd (h.keyed _ hmem).symm (absent _ hmem)

/-- A destroy at the address of a heap takes it out of the table. -/
theorem Balanced.not_mem_destroyHeap (h : p.Balanced cs) {a : Arena} (ha : a ∈ p.heapArenas) :
    a ∉ (p.destroyHeap a.base).heapArenas := by
  obtain ⟨e, he, rfl⟩ := List.mem_map.mp ha
  have hkey := h.keyed e he
  rcases p.destroyHeap_cases e.2.base with ⟨none, -⟩ | ⟨before, a, after, heaps, -, gone⟩
  · have := List.lookup_eq_none_iff.mp none e he
    rw [hkey] at this
    exact absurd this (by simp)
  · rw [gone]
    intro hmem
    obtain ⟨e', he', heq⟩ := List.mem_map.mp hmem
    -- Another entry with the same arena would have the same key.
    have keys := h.keys
    rw [heaps, List.map_append, List.map_cons, List.nodup_middle, ← List.map_append,
      List.nodup_cons] at keys
    have hmem' : e' ∈ p.heaps := by
      rw [heaps]
      exact (List.perm_middle.mem_iff).mpr (.tail _ he')
    have hkey' : e'.1 = e.2.base := (h.keyed e' hmem').trans (congrArg Arena.base heq)
    have hin : e.2.base ∈ (before ++ after).map (·.1) := List.mem_map.mpr ⟨e', he', hkey'⟩
    exact keys.1 hin

/-! ## Cores -/

/-- A new core holds three new arenas. -/
theorem Balanced.addCore {a : CoreMemory} {host : Host} {memory : Memory} {name : String}
    {stackSize dataSize n : Nat} (h : p.Balanced cs)
    (hmap : p.host.mapCore name stackSize dataSize = (host, .ok a)) :
    p.Onward cs ((({ p with host := { host with memory := memory }, coreCount := n } :
      Proc).register a.stack).register a.data) (a :: cs) := by
  -- State, stack and data are mapped in this order, each with the next number.
  obtain ⟨h₁, h₂, gstate, gstack, gdata⟩ := Host.mapCore_eq_ok hmap
  have hlive : host.live = [a.data, a.stack, a.state] ++ p.host.live := by
    rw [gdata.live, gstack.live, gstate.live]
    rfl
  have len₁ : h₁.history.length = p.host.history.length + 1 := by
    rw [gstate.history, List.length_cons]
  have len₂ : h₂.history.length = p.host.history.length + 2 := by
    rw [gstack.history, List.length_cons, len₁]
  have len₃ : host.history.length = p.host.history.length + 3 := by
    rw [gdata.history, List.length_cons, len₂]
  constructor
  · refine ⟨?_, rfl, ?_, fun _ => .inl⟩
    · show p.host.history.length ≤ host.history.length
      omega
    · intro b hb
      have hb : b ∈ [a.state, a.stack, a.data] ++ (p.openCores cs).flatMap (·.arenas) := hb
      rw [List.mem_append] at hb
      rcases hb with hb | hb
      · refine .inr ?_
        have hstate := gstate.serial
        have hstack := gstack.serial
        have hdata := gdata.serial
        simp only [List.mem_cons, List.not_mem_nil, or_false] at hb
        rcases hb with rfl | rfl | rfl <;> omega
      · exact .inl hb
  · exact {
      orderly := (((h.orderly.map gstate).map gstack).map gdata).of_live rfl (Nat.le_refl _)
      live := by
        show host.live.Perm (p.global :: ([a.state, a.stack, a.data] ++ _) ++ p.heapArenas)
        rw [hlive]
        have hswap : [a.data, a.stack, a.state].Perm [a.state, a.stack, a.data] :=
          (List.reverse_perm [a.state, a.stack, a.data])
        exact (hswap.append h.live).trans List.perm_middle
      space := by
        show (((p.space.add a.stack).1.add a.data).1).arenas.Perm
          (p.global :: ([a.stack, a.data] ++ _) ++ p.heapArenas)
        have hadd := (Space.perm_add (p.space.add a.stack).1 a.data).trans
          ((p.space.perm_add a.stack).cons a.data)
        have hswap : [a.data, a.stack].Perm [a.stack, a.data] :=
          List.reverse_perm [a.stack, a.data]
        exact hadd.trans ((hswap.append h.space).trans List.perm_middle)
      keyed := h.keyed
      named := h.named
      numbered := h.numbered }

/-- A core that could not be made leaves the books as they were. -/
theorem Balanced.newCore (h : p.Balanced cs) (start : Int64) (param : UInt64) :
    match p.newCore start param with
    | (p', .ok c) => p.Onward cs p' (c.toCoreMemory :: cs)
    | (p', .error _) => p.Onward cs p' cs := by
  rcases p.newCore_cases start param with ⟨host, what, f, hmap, made⟩
    | ⟨host, a, memory, hmap, made⟩
  · rw [made]
    obtain ⟨live, history⟩ := Host.mapCore_eq_error hmap
    exact h.undisturbed ⟨rfl, rfl, Nat.le_refl _, rfl, live, history⟩ rfl
  · rw [made]
    exact h.addCore hmap

/-- The balance after a core was spawned, which asks for two arenas or fails and returns what it
got. -/
theorem Balanced.spawn (h : p.Balanced cs) (start : Int64) (param : UInt64) :
    p.Onward cs (p.spawn start param).1 cs := by
  have made := h.newCore start param
  unfold Proc.spawn
  split
  · split
    next p' c heq =>
      rw [heq] at made
      refine made.trans
        (made.balanced.rearrange ⟨rfl, rfl, Nat.le_refl _, rfl, rfl, Nat.le_refl _⟩ ?_)
      show (cs ++ (p'.spawned ++ [c]).map (·.toCoreMemory)).Perm _
      rw [List.map_append, ← List.append_assoc]
      exact List.perm_append_singleton _ _
    next p' f heq =>
      rw [heq] at made
      exact made
  · exact h.onward

/-- Arenas in the middle of a row move to its front. -/
theorem perm_front {a : Arena} (middle rest heaps : List Arena) :
    (a :: (middle ++ rest) ++ heaps).Perm (middle ++ (a :: rest ++ heaps)) := by
  rw [List.cons_append, List.append_assoc, List.cons_append]
  exact List.perm_middle.symm

/-- The books with the arenas of one core in front. -/
theorem Balanced.live_core {c : CoreMemory} (h : p.Balanced cs) (held : cs.Perm (c :: cs')) :
    p.host.live.Perm ([c.stack, c.data, c.state] ++
      (p.global :: (p.openCores cs').flatMap (·.arenas) ++ p.heapArenas)) := by
  have hopen : (p.openCores cs).Perm (c :: p.openCores cs') := held.append_right _
  have hturn : ([c.state] ++ [c.stack, c.data]).Perm ([c.stack, c.data] ++ [c.state]) :=
    List.perm_append_comm
  refine (h.live.trans (((hopen.flatMap_right _).cons _).append_right _)).trans ?_
  exact (perm_front [c.state, c.stack, c.data] _ _).trans (hturn.append_right _)

theorem Balanced.closeCore {c : Core} (h : p.Balanced cs)
    (held : cs.Perm (c.toCoreMemory :: cs')) : p.Onward cs (p.closeCore c) cs' := by
  -- The core that is closed stands first, and its two arenas leave the space in turn.
  have hopen : (p.openCores cs).Perm (c.toCoreMemory :: p.openCores cs') := held.append_right _
  have o₁ := h.orderly.unmap c.stack
  have o₂ := o₁.unmap c.data
  constructor
  · refine ⟨Nat.le_refl _, rfl, fun a ha => .inl ?_, fun _ => .inl⟩
    exact ((hopen.flatMap_right _).mem_iff).mpr (List.mem_append_right _ ha)
  · exact {
      orderly := o₂.unmap c.state
      live := o₂.perm_unmap (o₁.perm_unmap (h.orderly.perm_unmap (h.live_core held)))
      space := by
        have hspace : p.space.arenas.Perm ([c.stack, c.data] ++
            (p.global :: (p.openCores cs').flatMap (·.reachable) ++ p.heapArenas)) :=
          (h.space.trans (((hopen.flatMap_right _).cons _).append_right _)).trans
            (perm_front [c.stack, c.data] _ _)
        refine Space.perm_eraseP (Space.perm_eraseP hspace h.space_distinct) ?_
        exact h.space_distinct.sublist (List.eraseP_sublist.map _)
      keyed := h.keyed
      named := h.named
      numbered := h.numbered }

/-! ## What was given back -/

/-- The number belongs to a mapping that does not exist any more. -/
structure Gone (p : Proc) (serial : Nat) : Prop where
  past : serial < p.host.history.length
  absent : ∀ a ∈ p.host.live, a.serial ≠ serial

/-- What is live later was live before or has been mapped since. -/
theorem Later.live (l : p.Later cs p' cs') (h : p.Balanced cs) (h' : p'.Balanced cs') {a : Arena}
    (ha : a ∈ p'.host.live) : a ∈ p.host.live ∨ p.host.history.length ≤ a.serial := by
  rw [h.live.mem_iff]
  rw [h'.live.mem_iff] at ha
  simp only [List.cons_append, List.mem_cons, List.mem_append] at ha ⊢
  rcases ha with ha | ha | ha
  · exact .inl (.inl (ha.trans l.global))
  · exact (l.cores a ha).imp_left fun hmem => .inr (.inl hmem)
  · exact (l.heaps a ha).imp_left fun hmem => .inr (.inr hmem)

/-- A mapping that was given back does not come back. -/
theorem Gone.later {serial : Nat} (g : p.Gone serial) (l : p.Later cs p' cs') (h : p.Balanced cs)
    (h' : p'.Balanced cs') : p'.Gone serial where
  past := Nat.lt_of_lt_of_le g.past l.history
  absent a ha heq := by
    rcases l.live h h' ha with hmem | hnew
    · exact g.absent a hmem heq
    · have := g.past
      omega

/-- Closing a core gives all of its arenas back. -/
theorem Balanced.gone_closeCore {c : Core} (h : p.Balanced cs)
    (held : cs.Perm (c.toCoreMemory :: cs')) :
    ∀ a ∈ c.toCoreMemory.arenas, (p.closeCore c).Gone a.serial := by
  have hlive := h.live_core held
  have hclosed := (h.closeCore held).balanced.live
  have hdistinct := (hlive.map (·.serial)).nodup_iff.mp h.orderly.distinct
  rw [List.map_append] at hdistinct
  intro a ha
  have hfront : a ∈ [c.stack, c.data, c.state] := by
    simp only [CoreMemory.arenas, List.mem_cons, List.not_mem_nil, or_false] at ha ⊢
    tauto
  refine ⟨h.orderly.numbered a (hlive.mem_iff.mpr (List.mem_append_left _ hfront)), ?_⟩
  intro b hb heq
  exact List.disjoint_of_nodup_append hdistinct (List.mem_map_of_mem hfront)
    (heq ▸ List.mem_map_of_mem (hclosed.mem_iff.mp hb))

/-- Closing a core again changes nothing. -/
theorem Balanced.closeCore_of_gone {c : Core} (h : p.Balanced cs)
    (gone : ∀ a ∈ c.toCoreMemory.arenas, p.Gone a.serial) : p.closeCore c = p := by
  -- Arenas are compared by their numbers, and none of these numbers is in use.
  have hkeep : ∀ a ∈ c.toCoreMemory.arenas, ∀ l : List Arena, (∀ b ∈ l, b ∈ p.host.live) →
      l.eraseP (Space.same a) = l := by
    intro a ha l hl
    apply List.eraseP_of_forall_not
    intro b hb hsame
    exact (gone a ha).absent b (hl b hb) (beq_iff_eq.mp hsame).symm
  have hspace : ∀ b ∈ p.space.arenas, b ∈ p.host.live := fun _ => h.space_subset
  have hstate := hkeep c.state (by simp [CoreMemory.arenas])
  have hstack := hkeep c.stack (by simp [CoreMemory.arenas])
  have hdata := hkeep c.data (by simp [CoreMemory.arenas])
  simp only [Proc.closeCore, Space.remove, Host.unmap, hstack _ hspace, hdata _ hspace,
    hstack _ (fun _ => id), hdata _ (fun _ => id), hstate _ (fun _ => id)]

/-! ## The beginning -/

/-- A new process has its global data and nothing else. -/
theorem balanced_new {program : Program} {o : Options} (made : Proc.new program o = .ok p) :
    p.Balanced [] := by
  unfold Proc.new at made
  split at made
  · cases made
  next global host hmap =>
    cases made
    obtain ⟨⟨a, h⟩, hgrant, hmap⟩ := bind_eq_ok.mp hmap
    cases hmap
    have g := Host.map_eq_ok hgrant
    have empty : ({ plan := o.plan } : Host).Orderly := ⟨.nil, .nil, nofun, nofun⟩
    exact {
      orderly := (empty.map g).of_live rfl (Nat.le_refl _)
      live := by
        show h.live.Perm [global]
        rw [g.live]
      space := Space.perm_add {} global
      keyed := nofun
      named := .nil
      numbered := nofun }

end Proc

end BlockVM
