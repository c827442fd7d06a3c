import BlockVM.Proofs.Memory.Live

/-!
# Where an address lies

A register may hold any address, and the space has to say which arena it points into. The arenas
that were added and not removed since are those that are registered (`Registers`). They stay in the
order of their addresses, so that the search by halving ends behind the last arena that begins at or
before the address (`search_spec`). Mappings do not meet, so no other arena can hold the address
(`Ordered.eq_last`).

`resolution_is_exact` says what follows: an access is resolved if and only if a registered arena
holds all of its bytes, and otherwise its failure tells an access that leaves an arena from one that
begins in none.
-/

namespace BlockVM

/-- The result is a failure that goes back to the given cause. -/
def FailsWith {α : Type} (r : Except Stop α) (c : Cause) : Prop :=
  ∃ f, r = .error (.failure f) ∧ f.root? = some c

namespace Arena

/-! ## Arenas on pages -/

/-- How an arena lies in the address space: open, on whole pages, away from address 0 and without
wrapping at the top. -/
structure OnPages (a : Arena) : Prop where
  isOpen : a.isOpen = true
  size_lt : a.size < 2 ^ 63
  pos : 0 < a.mapped
  aligned : 4096 ∣ a.base.toNat
  base_ne : a.base ≠ 0
  noWrap : a.base.toNat + a.mapped ≤ 2 ^ 64

/-- The byte at an address is a usable byte of the arena. -/
def HasByte (a : Arena) (addr : UInt64) : Prop :=
  a.base.toNat ≤ addr.toNat ∧ addr.toNat < a.base.toNat + a.size

/-- The bytes `[addr, addr + n)` are usable bytes of the arena. -/
def HasBytes (a : Arena) (addr : UInt64) (n : Nat) : Prop :=
  a.base.toNat ≤ addr.toNat ∧ addr.toNat + n ≤ a.base.toNat + a.size

instance (a : Arena) (addr : UInt64) : Decidable (a.HasByte addr) :=
  inferInstanceAs (Decidable (_ ∧ _))

instance (a : Arena) (addr : UInt64) (n : Nat) : Decidable (a.HasBytes addr n) :=
  inferInstanceAs (Decidable (_ ∧ _))

variable {a b : Arena} {addr : UInt64} {n : Int64}

theorem OnPages.size_le (h : a.OnPages) : a.size ≤ a.mapped := by
  have hsize : (Int64.ofNat a.size).toInt = a.size := Int64.toInt_ofNat_of_lt h.size_lt
  have hpos : 0 < (mappingLength (Int64.ofNat a.size)).toInt.toNat := h.pos
  have hnonneg : 0 ≤ Int64.ofNat a.size := by
    rw [toInt_nonneg_iff, hsize]
    omega
  have hle := le_mappingLength hnonneg (by rw [Int64.lt_iff_toInt_lt, Int64.toInt_zero]; omega)
  show a.size ≤ (mappingLength (Int64.ofNat a.size)).toInt.toNat
  omega

theorem OnPages.low (h : a.OnPages) : 4096 ≤ a.base.toNat := by
  refine Nat.le_of_dvd (Nat.pos_of_ne_zero fun hzero => h.base_ne ?_) h.aligned
  rw [← UInt64.toNat_inj, hzero]
  rfl

theorem OnPages.toNat_size (h : a.OnPages) : (UInt64.ofNat a.size).toNat = a.size := by
  have := h.size_lt
  apply UInt64.toNat_ofNat_of_lt'
  show a.size < 2 ^ 64
  omega

theorem width_bounds (hn : isWidth n = true) :
    n.toUInt64.toNat = n.toNatClampNeg ∧ 1 ≤ n.toNatClampNeg ∧ n.toNatClampNeg ≤ 8 := by
  simp only [isWidth, Bool.or_eq_true, beq_iff_eq] at hn
  rcases hn with ((rfl | rfl) | rfl) | rfl <;> decide

/-- The check of an access by its address is exact: the arena is away from 0, so the end of the
access does not wrap around to it. -/
theorem covers_iff (h : a.OnPages) (hn : isWidth n = true) :
    a.covers addr n = true ↔ a.HasBytes addr n.toNatClampNeg := by
  obtain ⟨hlen, -, hle⟩ := width_bounds hn
  have hlow := h.low
  have hlt := addr.toNat_lt
  simp only [covers, Bool.and_eq_true, decide_eq_true_eq, HasBytes, UInt64.le_iff_toNat_le]
  refine and_congr_right fun hbase => ?_
  have hdist : (addr - a.base).toNat = addr.toNat - a.base.toNat :=
    UInt64.toNat_sub_of_le _ _ (UInt64.le_iff_toNat_le.mpr hbase)
  rw [UInt64.toNat_add, hdist, hlen, h.toNat_size, Nat.mod_eq_of_lt (by omega)]
  omega

/-- The unsigned comparison of the search: whether an address above the base has a byte of the
arena. -/
theorem hasByte_iff (h : a.OnPages) (hbase : a.base ≤ addr) :
    addr - a.base < UInt64.ofNat a.size ↔ a.HasByte addr := by
  have hdist := UInt64.toNat_sub_of_le _ _ hbase
  rw [UInt64.le_iff_toNat_le] at hbase
  rw [UInt64.lt_iff_toNat_lt, hdist, h.toNat_size, HasByte]
  omega

/-- An arena that has some bytes has the first of them. -/
theorem HasBytes.hasByte {n : Nat} (h : a.HasBytes addr n) (hn : 1 ≤ n) : a.HasByte addr := by
  obtain ⟨hlow, hhigh⟩ := h
  exact ⟨hlow, by omega⟩

/-- Where a found byte lies in its arena. -/
theorem toInt_offset (h : a.OnPages) (hb : a.HasByte addr) :
    (addr - a.base).toInt64.toInt = addr.toNat - a.base.toNat := by
  obtain ⟨hlow, hhigh⟩ := hb
  have hsize := h.size_lt
  have hdist := UInt64.toNat_sub_of_le _ _ (UInt64.le_iff_toNat_le.mpr hlow)
  rw [toInt_toInt64_of_lt (by omega), hdist]
  omega

def Spans (a : Arena) (addr : Nat) : Prop :=
  a.base.toNat ≤ addr ∧ addr < a.base.toNat + a.mapped

theorem OnPages.spans (h : a.OnPages) (hb : a.HasByte addr) : a.Spans addr.toNat := by
  have hsize := h.size_le
  exact ⟨hb.1, Nat.lt_of_lt_of_le hb.2 (by omega)⟩

/-- An arena spans its own base, also if it is empty. -/
theorem OnPages.spans_base (h : a.OnPages) : a.Spans a.base.toNat := by
  have hpos := h.pos
  exact ⟨Nat.le_refl _, by omega⟩

end Arena

namespace Space

/-! ## The search -/

variable {s : Space} {l : List Arena} {a : Arena} {addr : UInt64} {n : Int64}

/-- What the search has found out about the arenas outside `[lo, hi)`. -/
def Narrowed (arenas : List Arena) (addr : UInt64) (lo hi : Nat) : Prop :=
  ∀ i a, arenas[i]? = some a → (i < lo → a.base ≤ addr) ∧ (hi ≤ i → addr < a.base)

theorem address_of_open (h : a.isOpen = true) : a.address = .ok a.base := by
  rw [Arena.address, if_pos h]

/-- Halving keeps what is known outside the interval, because the arenas are in order. -/
theorem search_narrowed {arenas : List Arena} {lo hi : Nat}
    (hopen : ∀ a ∈ arenas, a.isOpen = true)
    (sorted : arenas.Pairwise fun a b => a.base < b.base) (hlo : lo ≤ hi)
    (hhi : hi ≤ arenas.length) (known : Narrowed arenas addr lo hi) :
    ∃ k, search arenas.toArray addr lo hi = .ok k ∧ Narrowed arenas addr k k := by
  have ordered : ∀ (i j : Nat) (a b : Arena), i ≤ j → arenas[i]? = some a → arenas[j]? = some b →
      a.base ≤ b.base := by
    intro i j a b hij ha hb
    obtain ⟨hi, rfl⟩ := List.getElem?_eq_some_iff.mp ha
    obtain ⟨hj, rfl⟩ := List.getElem?_eq_some_iff.mp hb
    rcases Nat.eq_or_lt_of_le hij with rfl | hlt
    · exact UInt64.le_refl _
    · exact UInt64.le_of_lt (List.pairwise_iff_getElem.mp sorted i j hi hj hlt)
  -- The arena in the middle decides for all that lie on its side.
  fun_induction search arenas.toArray addr lo hi with
  | case1 lo hi h mid hnone =>
    simp only [List.getElem?_toArray, List.getElem?_eq_none_iff] at hnone
    omega
  | case2 lo hi h mid a hget e he =>
    rw [List.getElem?_toArray] at hget
    rw [address_of_open (hopen a (List.mem_of_getElem? hget))] at he
    cases he
  | case3 lo hi h mid a hget base hb hlt ih =>
    rw [List.getElem?_toArray] at hget
    rw [address_of_open (hopen a (List.mem_of_getElem? hget))] at hb
    cases hb
    refine ih (by omega) (by omega) fun i x hx => ⟨(known i x hx).1, fun hi => ?_⟩
    exact UInt64.lt_of_lt_of_le hlt (ordered mid i a x hi hget hx)
  | case4 lo hi h mid a hget base hb hge ih =>
    rw [List.getElem?_toArray] at hget
    rw [address_of_open (hopen a (List.mem_of_getElem? hget))] at hb
    cases hb
    refine ih (by omega) (by omega) fun i x hx => ⟨fun hi => ?_, (known i x hx).2⟩
    exact UInt64.le_trans (ordered i mid x a (by omega) hx hget) (UInt64.not_lt.mp hge)
  | case5 lo hi h =>
    have heq : lo = hi := by omega
    subst heq
    exact ⟨lo, rfl, known⟩

/-- The search ends behind the arenas that begin at or before the address. -/
theorem search_spec {arenas : List Arena} (hopen : ∀ a ∈ arenas, a.isOpen = true)
    (sorted : arenas.Pairwise fun a b => a.base < b.base) (addr : UInt64) :
    ∃ k, search arenas.toArray addr 0 arenas.length = .ok k ∧ Narrowed arenas addr k k := by
  refine search_narrowed hopen sorted (Nat.zero_le _) (Nat.le_refl _) fun i a ha => ?_
  obtain ⟨hi, -⟩ := List.getElem?_eq_some_iff.mp ha
  exact ⟨fun h => absurd h (Nat.not_lt_zero i), fun h => absurd hi (Nat.not_lt.mpr h)⟩

/-- An arena that begins at or before the address, with none between it and the address. -/
structure Last (arenas : List Arena) (addr : UInt64) (a : Arena) : Prop where
  mem : a ∈ arenas
  before : a.base ≤ addr
  last : ∀ b ∈ arenas, b.base ≤ addr → b.base ≤ a.base

/-- Only the last arena that begins at or before the address is looked at. -/
theorem resolve_cases (hopen : ∀ a ∈ s.arenas, a.isOpen = true)
    (sorted : s.arenas.Pairwise fun a b => a.base < b.base) (addr : UInt64) (n : Int64) :
    ((∀ a ∈ s.arenas, ¬ a.base ≤ addr) ∧
      s.resolve addr n = .error (.failure (notMapped addr))) ∨
    ∃ a, Last s.arenas addr a ∧ s.resolve addr n =
      if a.covers addr n then .ok (a, (addr - a.base).toInt64)
      else if addr - a.base < UInt64.ofNat a.size then .error (.failure (crossesEnd a addr n))
      else .error (.failure (notMapped addr)) := by
  -- The arenas in front of the found index are those that begin at or below the address.
  obtain ⟨k, hk, known⟩ := search_spec hopen sorted addr
  obtain ⟨k', hk', hle⟩ := search_eq_ok s.arenas.toArray addr (by simpa using hopen)
    (Nat.zero_le s.arenas.length) (by simp)
  rw [hk] at hk'
  cases hk'
  unfold resolve
  rw [hk]
  simp only [bind, Except.bind, pure, Except.pure]
  cases k with
  | zero =>
    refine .inl ⟨fun a ha => ?_, rfl⟩
    obtain ⟨i, hi⟩ := List.mem_iff_getElem?.mp ha
    exact UInt64.not_le.mpr ((known i a hi).2 (Nat.zero_le i))
  | succ k =>
    have hget : s.arenas[k]? = some s.arenas[k] := List.getElem?_eq_getElem hle
    refine .inr ⟨s.arenas[k], ⟨List.getElem_mem hle, ?_, ?_⟩, ?_⟩
    · exact (known k _ hget).1 (Nat.lt_succ_self k)
    · -- What begins behind the last arena begins behind the address.
      intro b hb hbase
      obtain ⟨j, hj⟩ := List.mem_iff_getElem?.mp hb
      obtain ⟨hjlt, rfl⟩ := List.getElem?_eq_some_iff.mp hj
      have hjk : j ≤ k := by
        by_contra hlt
        exact UInt64.not_le.mpr ((known j _ hj).2 (by omega)) hbase
      rcases Nat.eq_or_lt_of_le hjk with rfl | hlt
      · exact UInt64.le_refl _
      · exact UInt64.le_of_lt (List.pairwise_iff_getElem.mp sorted j k hjlt hle hlt)
    · simp only [hget]
      rfl

/-! ## Registered arenas -/

/-- A space after arenas were added and removed, with the arenas that are then registered. An arena
is added while it is not registered, and where no registered mapping is; any arena may be
removed. -/
inductive Registers : Space → List Arena → Prop
  | nothing : Registers {} []
  | add {s : Space} {l : List Arena} {a : Arena} (before : Registers s l) (pages : a.OnPages)
      (new : ∀ x ∈ l, same a x = false) (apart : ∀ x ∈ l, a.Apart x) :
      Registers (s.add a).1 (a :: l)
  | remove {s : Space} {l : List Arena} (before : Registers s l) (a : Arena) :
      Registers (s.remove a) (l.filter fun x => !same a x)

/-- The space holds the arenas in the order of their addresses. -/
structure Ordered (s : Space) (l : List Arena) : Prop where
  perm : s.arenas.Perm l
  sorted : s.arenas.Pairwise fun a b => a.base < b.base
  pages : ∀ a ∈ l, a.OnPages
  apart : l.Pairwise Arena.Apart
  distinct : (l.map (·.serial)).Nodup

theorem Ordered.isOpen (o : Ordered s l) : ∀ a ∈ s.arenas, a.isOpen = true :=
  fun a ha => (o.pages a (o.perm.mem_iff.mp ha)).isOpen

/-- Adding an open arena to open arenas sorts them. -/
theorem add_of_open (hopen : ∀ x ∈ s.arenas, x.isOpen = true) (ha : a.isOpen = true) :
    s.add a = (⟨(s.arenas ++ [a]).mergeSort below⟩, none) := by
  have hall : (s.arenas ++ [a]).any (fun x => !x.isOpen) = false := by
    rw [List.any_eq_false]
    intro x hx
    rcases List.mem_append.mp hx with hx | hx
    · simp [hopen x hx]
    · simp [List.mem_singleton.mp hx, ha]
  unfold add
  simp only [hall, Bool.and_false, Bool.false_eq_true, ↓reduceIte]

/-- Sorting puts mappings that do not meet in strict order. -/
theorem sorted_mergeSort {l : List Arena} (pages : ∀ a ∈ l, a.OnPages)
    (apart : l.Pairwise Arena.Apart) :
    (l.mergeSort below).Pairwise fun a b => a.base < b.base := by
  have perm := List.mergeSort_perm l below
  have ordered : (l.mergeSort below).Pairwise fun a b => below a b = true := by
    apply List.pairwise_mergeSort
    · intro a b c hab hbc
      exact decide_eq_true (UInt64.le_trans (of_decide_eq_true hab) (of_decide_eq_true hbc))
    · intro a b
      rw [Bool.or_eq_true]
      exact (UInt64.le_total a.base b.base).imp decide_eq_true decide_eq_true
  have apart' := perm.symm.pairwise apart (fun h => Or.symm h)
  refine (ordered.and apart').imp_of_mem fun {a b} ha hb h => ?_
  obtain ⟨hle, hapart⟩ := h
  have hle := UInt64.le_iff_toNat_le.mp (of_decide_eq_true hle)
  have hpos := (pages a (perm.mem_iff.mp ha)).pos
  have hpos' := (pages b (perm.mem_iff.mp hb)).pos
  rw [UInt64.lt_iff_toNat_lt]
  rcases hapart with h | h <;> omega

/-- The space keeps its order when an arena is added that is apart from the others. -/
theorem Ordered.add (o : Ordered s l) (pages : a.OnPages) (new : ∀ x ∈ l, same a x = false)
    (apart : ∀ x ∈ l, a.Apart x) : Ordered (s.add a).1 (a :: l) := by
  have perm : (s.arenas ++ [a]).Perm (a :: l) :=
    (List.perm_append_singleton a s.arenas).trans (o.perm.cons a)
  have pages' : ∀ x ∈ a :: l, x.OnPages := List.forall_mem_cons.mpr ⟨pages, o.pages⟩
  have apart' : (a :: l).Pairwise Arena.Apart := .cons apart o.apart
  rw [add_of_open o.isOpen pages.isOpen]
  refine ⟨(List.mergeSort_perm _ _).trans perm, ?_, pages', apart', ?_⟩
  · exact sorted_mergeSort (fun x hx => pages' x (perm.mem_iff.mp hx))
      (perm.symm.pairwise apart' fun h => Or.symm h)
  · rw [List.map_cons, List.nodup_cons]
    refine ⟨fun hmem => ?_, o.distinct⟩
    obtain ⟨x, hx, heq⟩ := List.mem_map.mp hmem
    exact beq_eq_false_iff_ne.mp (new x hx) heq.symm

/-- Among arenas with numbers of their own, removing one leaves all that are not it. -/
theorem eraseP_eq_filter {l : List Arena} (a : Arena) (distinct : (l.map (·.serial)).Nodup) :
    l.eraseP (same a) = l.filter fun x => !same a x := by
  induction l with
  | nil => rfl
  | cons x l ih =>
    rw [List.map_cons, List.nodup_cons] at distinct
    cases hx : same a x with
    | false =>
      rw [List.eraseP_cons_of_neg (by rw [hx]; decide), ih distinct.2,
        List.filter_cons_of_pos (by rw [hx]; rfl)]
    | true =>
      rw [List.eraseP_cons_of_pos hx, List.filter_cons_of_neg (by rw [hx]; decide), eq_comm,
        List.filter_eq_self]
      intro y hy
      rw [Bool.not_eq_true', ← Bool.not_eq_true]
      intro hsame
      refine distinct.1 (List.mem_map.mpr ⟨y, hy, ?_⟩)
      rw [← beq_iff_eq.mp hx, beq_iff_eq.mp hsame]

theorem Ordered.remove (o : Ordered s l) (a : Arena) :
    Ordered (s.remove a) (l.filter fun x => !same a x) := by
  have distinct : (s.arenas.map (·.serial)).Nodup := ((o.perm.map _).nodup_iff).mpr o.distinct
  refine ⟨?_, o.sorted.sublist List.eraseP_sublist, ?_, o.apart.sublist List.filter_sublist,
    o.distinct.sublist (List.filter_sublist.map _)⟩
  · show (s.arenas.eraseP (same a)).Perm _
    rw [eraseP_eq_filter a distinct]
    exact o.perm.filter _
  · exact fun x hx => o.pages x (List.mem_of_mem_filter hx)

/-- A history of additions and removals leaves an ordered space. -/
theorem Registers.ordered (h : Registers s l) : Ordered s l := by
  induction h with
  | nothing => exact ⟨.nil, .nil, nofun, .nil, .nil⟩
  | add _ pages new apart ih => exact ih.add pages new apart
  | remove _ a ih => exact ih.remove a

/-! ## Resolution -/

/-- Only one registered mapping has an address. -/
theorem Ordered.eq_of_spans (o : Ordered s l) {b : Arena} {p : Nat} (ha : a ∈ l) (hb : b ∈ l)
    (hpa : a.Spans p) (hpb : b.Spans p) : a = b := by
  by_contra hne
  obtain ⟨hlow, hhigh⟩ := hpa
  obtain ⟨hlow', hhigh'⟩ := hpb
  rcases o.apart.forall ha hb hne with h | h <;> omega

/-- A registered arena with a byte at the address is the one that the search finds: the one found
begins between the start of the other and the address. -/
theorem Ordered.eq_last (o : Ordered s l) {x : Arena} (ha : Last s.arenas addr a) (hx : x ∈ l)
    (hbyte : x.HasByte addr) : x = a := by
  have hmem : a ∈ l := o.perm.mem_iff.mp ha.mem
  have hbefore := UInt64.le_iff_toNat_le.mp ha.before
  have hlast := UInt64.le_iff_toNat_le.mp
    (ha.last x (o.perm.mem_iff.mpr hx) (UInt64.le_iff_toNat_le.mpr hbyte.1))
  have hspans := (o.pages x hx).spans hbyte
  exact o.eq_of_spans hx hmem ⟨hlast, Nat.lt_of_le_of_lt hbefore hspans.2⟩
    (o.pages a hmem).spans_base

/-- The three ways in which the resolution of an access can go. -/
inductive Resolved (l : List Arena) (addr : UInt64) (n : Int64) : Except Stop (Arena × Int64) → Prop
  | found {a : Arena} (mem : a ∈ l) (bytes : a.HasBytes addr n.toNatClampNeg) :
      Resolved l addr n (.ok (a, (addr - a.base).toInt64))
  | crossing {a : Arena} (mem : a ∈ l) (byte : a.HasByte addr)
      (crosses : a.base.toNat + a.size < addr.toNat + n.toNatClampNeg) :
      Resolved l addr n (.error (.failure (crossesEnd a addr n)))
  | unmapped (none : ∀ a ∈ l, ¬ a.HasByte addr) :
      Resolved l addr n (.error (.failure (notMapped addr)))

/-- What resolving gives, by what the search finds: the last arena whose base is not above the
address. -/
theorem Ordered.resolved (o : Ordered s l) (addr : UInt64) (hn : Arena.isWidth n = true) :
    Resolved l addr n (s.resolve addr n) := by
  rcases resolve_cases o.isOpen o.sorted addr n with ⟨none, hres⟩ | ⟨a, ha, hres⟩
  · rw [hres]
    refine .unmapped fun x hx hbyte => none x (o.perm.mem_iff.mpr hx) ?_
    exact UInt64.le_iff_toNat_le.mpr hbyte.1
  · have hmem : a ∈ l := o.perm.mem_iff.mp ha.mem
    have hpages := o.pages a hmem
    rw [hres]
    split
    next hcovers => exact .found hmem ((Arena.covers_iff hpages hn).mp hcovers)
    next hcovers =>
      split
      next hdist =>
        have hbyte := (Arena.hasByte_iff hpages ha.before).mp hdist
        refine .crossing hmem hbyte ?_
        by_contra hle
        exact hcovers ((Arena.covers_iff hpages hn).mpr ⟨hbyte.1, by omega⟩)
      next hdist =>
        -- The arena that was found is the only one that could have the byte, and it has not.
        refine .unmapped fun x hx hbyte => hdist ?_
        rw [o.eq_last ha hx hbyte] at hbyte
        exact (Arena.hasByte_iff hpages ha.before).mpr hbyte

/-- The resolution of the `n` bytes at an address is exact for the arenas of `l`. -/
structure Exact (s : Space) (l : List Arena) (addr : UInt64) (n : Int64) : Prop where
  /-- An access is resolved if and only if a registered arena holds all of its bytes. -/
  found : ∀ a off, s.resolve addr n = .ok (a, off) ↔
    a ∈ l ∧ off.toInt = addr.toNat - a.base.toNat ∧ a.HasBytes addr n.toNatClampNeg
  /-- No other registered arena holds one of these bytes. -/
  only : ∀ a ∈ l, ∀ b ∈ l, a.HasByte addr → b.HasByte addr → a = b
  /-- It leaves its arena if and only if it begins inside of one and ends behind it. -/
  crossing : FailsWith (s.resolve addr n) .outOfBounds ↔
    ∃ a ∈ l, a.HasByte addr ∧ a.base.toNat + a.size < addr.toNat + n.toNatClampNeg
  /-- It is not mapped if and only if no registered arena has a byte where it begins. -/
  unmapped : FailsWith (s.resolve addr n) .unmapped ↔ ∀ a ∈ l, ¬ a.HasByte addr
  /-- The rest of the last page of an arena belongs to none. -/
  tail : ∀ a ∈ l, a.base.toNat + a.size ≤ addr.toNat → addr.toNat < a.base.toNat + a.mapped →
    FailsWith (s.resolve addr n) .unmapped

theorem Ordered.hasByte_unique (o : Ordered s l) {b : Arena} (ha : a ∈ l) (hb : b ∈ l)
    (hbyte : a.HasByte addr) (hbyte' : b.HasByte addr) : a = b :=
  o.eq_of_spans ha hb ((o.pages a ha).spans hbyte) ((o.pages b hb).spans hbyte')

/-! At most one of the three ways is open, so each is taken if and only if it is open. -/

/-- An address is unmapped exactly if no arena has its byte. -/
theorem Ordered.unmapped_iff (o : Ordered s l) (addr : UInt64) (hn : Arena.isWidth n = true) :
    FailsWith (s.resolve addr n) .unmapped ↔ ∀ a ∈ l, ¬ a.HasByte addr := by
  have hwidth := (Arena.width_bounds hn).2.1
  have hres := o.resolved addr hn
  constructor
  · rintro ⟨f, hf, hroot⟩
    rw [hf] at hres
    cases hres with
    | crossing => cases hroot
    | unmapped none => exact none
  · intro none
    generalize s.resolve addr n = r at hres
    cases hres with
    | found mem bytes => exact absurd (bytes.hasByte hwidth) (none _ mem)
    | crossing mem byte => exact absurd byte (none _ mem)
    | unmapped => exact ⟨_, rfl, rfl⟩

/-- It is found exactly if one arena has all the bytes. -/
theorem Ordered.found_iff (o : Ordered s l) (addr : UInt64) (hn : Arena.isWidth n = true)
    (a : Arena) (off : Int64) : s.resolve addr n = .ok (a, off) ↔
      a ∈ l ∧ off.toInt = addr.toNat - a.base.toNat ∧ a.HasBytes addr n.toNatClampNeg := by
  have hwidth := (Arena.width_bounds hn).2.1
  have hres := o.resolved addr hn
  constructor
  · intro hok
    rw [hok] at hres
    cases hres with
    | found mem bytes =>
      exact ⟨mem, Arena.toInt_offset (o.pages a mem) (bytes.hasByte hwidth), bytes⟩
  · rintro ⟨mem, hoff, bytes⟩
    -- Two arenas share no byte, so the answer can only be the arena that is asked for.
    have hbyte := bytes.hasByte hwidth
    generalize s.resolve addr n = r at hres
    cases hres with
    | @found x mem' bytes' =>
      obtain rfl := o.hasByte_unique mem' mem (bytes'.hasByte hwidth) hbyte
      rw [← Arena.toInt_offset (o.pages x mem) hbyte, Int64.toInt_inj] at hoff
      rw [hoff]
    | @crossing x mem' byte' crosses =>
      obtain rfl := o.hasByte_unique mem' mem byte' hbyte
      exact absurd bytes.2 (by omega)
    | unmapped none => exact absurd hbyte (none a mem)

/-- It crosses an end exactly if an arena has the first byte and not the last. -/
theorem Ordered.crossing_iff (o : Ordered s l) (addr : UInt64) (hn : Arena.isWidth n = true) :
    FailsWith (s.resolve addr n) .outOfBounds ↔
      ∃ a ∈ l, a.HasByte addr ∧ a.base.toNat + a.size < addr.toNat + n.toNatClampNeg := by
  have hwidth := (Arena.width_bounds hn).2.1
  have hres := o.resolved addr hn
  constructor
  · rintro ⟨f, hf, hroot⟩
    rw [hf] at hres
    cases hres with
    | crossing mem byte crosses => exact ⟨_, mem, byte, crosses⟩
    | unmapped => cases hroot
  · rintro ⟨a, mem, byte, crosses⟩
    generalize s.resolve addr n = r at hres
    cases hres with
    | @found x mem' bytes' =>
      obtain rfl := o.hasByte_unique mem' mem (bytes'.hasByte hwidth) byte
      exact absurd bytes'.2 (by omega)
    | crossing => exact ⟨_, rfl, rfl⟩
    | unmapped none => exact absurd byte (none a mem)

/-- The rest of the last page of an arena has no bytes of any other. -/
theorem Ordered.not_hasByte_tail (o : Ordered s l) {a b : Arena} (ha : a ∈ l) (hb : b ∈ l)
    (hlow : a.base.toNat + a.size ≤ addr.toNat) (hhigh : addr.toNat < a.base.toNat + a.mapped) :
    ¬ b.HasByte addr := by
  intro hbyte
  obtain rfl := o.eq_of_spans ha hb ⟨by omega, hhigh⟩ ((o.pages b hb).spans hbyte)
  exact absurd hbyte.2 (by omega)

theorem Ordered.exact (o : Ordered s l) (addr : UInt64) (hn : Arena.isWidth n = true) :
    Exact s l addr n where
  found := o.found_iff addr hn
  only := fun _ ha _ hb => o.hasByte_unique ha hb
  crossing := o.crossing_iff addr hn
  unmapped := o.unmapped_iff addr hn
  tail := fun _ ha hlow hhigh =>
    (o.unmapped_iff addr hn).mpr fun _ hb => o.not_hasByte_tail ha hb hlow hhigh

/-- Whatever was added and removed before, in any order, the arenas of a space are those that are
registered, in the order of their addresses, and every access by address is resolved exactly. -/
theorem resolution_is_exact (h : Registers s l) (addr : UInt64) (hn : Arena.isWidth n = true) :
    s.arenas.Perm l ∧ s.arenas.Pairwise (fun a b => a.base < b.base) ∧ Exact s l addr n :=
  ⟨h.ordered.perm, h.ordered.sorted, h.ordered.exact addr hn⟩

/-- An arena of 100 bytes, and behind its only page an empty one. -/
def shortArena : Arena := { name := "short", base := 0x10000, size := 100, serial := 0 }

def emptyArena : Arena := { name := "empty", base := 0x11000, size := 0, serial := 1 }

theorem onPages_shortArena : shortArena.OnPages :=
  ⟨rfl, by decide, by decide, by decide, by decide, by decide⟩

theorem onPages_emptyArena : emptyArena.OnPages :=
  ⟨rfl, by decide, by decide, by decide, by decide, by decide⟩

/-- Two adjacent arenas, the second one added first: an access inside, one across the end of the
usable bytes, one in the rest of the page, and one at the start of the empty arena. -/
theorem resolution_is_exact_shortArena :
    ∃ s, Registers s [shortArena, emptyArena] ∧ s.resolve 0x1005c 8 = .ok (shortArena, 92) ∧
      FailsWith (s.resolve 0x10060 8) .outOfBounds ∧ FailsWith (s.resolve 0x10064 8) .unmapped ∧
      FailsWith (s.resolve 0x11000 8) .unmapped := by
  have second : Registers (({} : Space).add emptyArena).1 [emptyArena] :=
    .add .nothing onPages_emptyArena nofun nofun
  have both := Registers.add (a := shortArena) second onPages_shortArena
    (by decide) (List.forall_mem_singleton.mpr (.inl (by decide)))
  have exactAt := fun addr => (resolution_is_exact (n := 8) both addr rfl).2.2
  refine ⟨_, both, ?_, ?_, ?_, ?_⟩
  · exact ((exactAt 0x1005c).found shortArena 92).mpr ⟨.head _, rfl, by decide⟩
  · exact (exactAt 0x10060).crossing.mpr ⟨shortArena, .head _, by decide, by decide⟩
  · exact (exactAt 0x10064).tail shortArena (.head _) (by decide) (by decide)
  · exact (exactAt 0x11000).unmapped.mpr (by decide)

end Space

end BlockVM
