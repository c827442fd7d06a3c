import BlockVM.Memory.Host
import BlockVM.Proofs.Numeric.Signed

/-!
# Accesses inside their arena

An access is checked before it is made: by its offset where the arena is known, by its address where
a register holds it. `locate_of_within` and `within_of_locate` say that the first check is exact for
arenas of any size that fits a signed number; `resolve_eq_ok` gives what the second one promises and
`resolve_error` says that it never aborts while all arenas are open. `within_of_covers` joins the
two: what was found by address passes the check by offset.
-/

namespace BlockVM

namespace Arena

/-- How the host maps an arena: open, away from address 0 and inside the lower half of the address
space. -/
structure Mapped (a : Arena) : Prop where
  isOpen : a.isOpen = true
  low : 8 ≤ a.base.toNat
  high : a.base.toNat + a.size ≤ 2 ^ 63

/-- The range `[off, off + n)` lies inside the arena. -/
structure Within (a : Arena) (off n : Int64) : Prop where
  start : 0 ≤ off.toInt
  length : 0 ≤ n.toInt
  stop : off.toInt + n.toInt ≤ a.size

/-- A mapped arena is so small that its offsets are signed words. -/
theorem Mapped.size_lt {a : Arena} (h : a.Mapped) : a.size < 2 ^ 63 := by
  have := h.low
  have := h.high
  omega

variable {a : Arena} {off n : Int64}

/-- The check of a range is exact where the end of the range does not wrap. -/
theorem inBounds_iff (hs : a.size < 2 ^ 63) (hn : off.toInt + n.toInt < 2 ^ 63) :
    a.inBounds off n = true ↔ a.Within off n := by
  have size : (Int64.ofNat a.size).toInt = a.size := Int64.toInt_ofNat_of_lt hs
  have bounds := toInt_bounds off
  simp only [inBounds, Bool.and_eq_true, decide_eq_true_eq, toInt_nonneg_iff,
    Int64.le_iff_toInt_le (y := Int64.ofNat a.size), size]
  constructor
  · rintro ⟨⟨h₁, h₂⟩, h₃⟩
    rw [toInt_add_of_bounds (by omega) hn] at h₃
    exact ⟨h₁, h₂, h₃⟩
  · rintro ⟨h₁, h₂, h₃⟩
    rw [toInt_add_of_bounds (by omega) hn]
    exact ⟨⟨h₁, h₂⟩, h₃⟩

theorem Within.add_lt (h : a.Within off n) (hs : a.size < 2 ^ 63) :
    off.toInt + n.toInt < 2 ^ 63 := by
  have := h.stop
  omega

theorem locate_of_within (hs : a.size < 2 ^ 63) (h : a.Within off n) :
    a.locate off n = .ok (a.base + off.toUInt64) := by
  have hin := (inBounds_iff hs (h.add_lt hs)).mpr h
  have hwrap : ¬ off + n < off := by
    have := h.length
    have := h.start
    have := h.add_lt hs
    rw [Int64.lt_iff_toInt_lt, toInt_add_of_bounds (by omega) (by omega)]
    omega
  simp only [locate, hin, Bool.not_true, Bool.false_eq_true, ↓reduceIte, hwrap]

/-- What the check of a range promises, whatever the size of the arena. -/
theorem locate_eq_ok {addr : UInt64} (h : a.locate off n = .ok addr) :
    a.inBounds off n = true ∧ 0 ≤ off.toInt ∧ 0 ≤ n.toInt ∧ off.toInt + n.toInt < 2 ^ 63 ∧
      addr = a.base + off.toUInt64 := by
  unfold locate at h
  split at h
  · cases h
  next hin =>
    split at h
    · cases h
    next hwrap =>
      cases h
      simp only [Bool.not_eq_eq_eq_not, Bool.not_true, Bool.not_eq_false] at hin
      have hsigns : 0 ≤ off ∧ 0 ≤ n := by
        simp only [inBounds, Bool.and_eq_true, decide_eq_true_eq] at hin
        exact hin.1
      have hoff := toInt_nonneg_iff.mp hsigns.1
      have hn := toInt_nonneg_iff.mp hsigns.2
      have := toInt_bounds off
      have := toInt_bounds n
      -- A sum that does not wrap downward is the sum of the integers.
      rw [Int64.lt_iff_toInt_lt, Int64.toInt_add, Int.bmod_def] at hwrap
      refine ⟨hin, hoff, hn, ?_, rfl⟩
      split at hwrap <;> omega

theorem within_of_locate {addr : UInt64} (hs : a.size < 2 ^ 63)
    (h : a.locate off n = .ok addr) : a.Within off n ∧ addr = a.base + off.toUInt64 := by
  obtain ⟨hin, -, -, hadd, rfl⟩ := locate_eq_ok h
  exact ⟨(inBounds_iff hs hadd).mp hin, rfl⟩

/-- A range that is refused is refused by a failure, never by an abort. -/
theorem locate_error {e : Stop} (hn : off.toInt + n.toInt < 2 ^ 63)
    (h : a.locate off n = .error e) : e = .failure (a.outside off n) := by
  unfold locate at h
  split at h
  · cases h
    rfl
  next hin =>
    simp only [inBounds, Bool.not_eq_eq_eq_not, Bool.not_true, Bool.not_eq_false,
      Bool.and_eq_true, decide_eq_true_eq, toInt_nonneg_iff] at hin
    have bounds := toInt_bounds off
    split at h
    next hwrap =>
      rw [Int64.lt_iff_toInt_lt, toInt_add_of_bounds (by omega) hn] at hwrap
      omega
    · cases h

theorem read_of_refused {e : Stop} (hloc : a.locate off n = .error e) (m : Memory) :
    a.read m off n = .error e := by
  unfold read
  rw [hloc]
  rfl

/-- A located read fails on a width that there is not, and on nothing else. -/
theorem read_of_located {addr : UInt64} (hloc : a.locate off n = .ok addr) (m : Memory) :
    a.read m off n =
      if isWidth n then .ok (m.word addr n.toNatClampNeg) else .error (badWidth n) := by
  unfold read
  rw [hloc]
  rfl

theorem write_of_refused {e : Stop} (hloc : a.locate off n = .error e) (m : Memory) (v : UInt64) :
    a.write m off n v = .error e := by
  unfold write
  rw [hloc]
  rfl

theorem write_of_located {addr : UInt64} (hloc : a.locate off n = .ok addr) (m : Memory)
    (v : UInt64) : a.write m off n v =
      if isWidth n then .ok (m.setWord addr n.toNatClampNeg v) else .error (badWidth n) := by
  unfold write
  rw [hloc]
  rfl

variable {m : Memory} {v : UInt64}

theorem locate_of_read (h : a.read m off n = .ok v) :
    ∃ addr, a.locate off n = .ok addr ∧ v = m.word addr n.toNatClampNeg := by
  cases hloc : a.locate off n with
  | error e =>
    rw [read_of_refused hloc] at h
    cases h
  | ok addr =>
    rw [read_of_located hloc] at h
    split at h
    · cases h
      exact ⟨addr, rfl, rfl⟩
    · cases h

theorem locate_of_write {m' : Memory} (h : a.write m off n v = .ok m') :
    ∃ addr, a.locate off n = .ok addr ∧ m' = m.setWord addr n.toNatClampNeg v := by
  cases hloc : a.locate off n with
  | error e =>
    rw [write_of_refused hloc] at h
    cases h
  | ok addr =>
    rw [write_of_located hloc] at h
    split at h
    · cases h
      exact ⟨addr, rfl, rfl⟩
    · cases h

theorem read_of_within (hs : a.size < 2 ^ 63) (h : a.Within off n) (hw : isWidth n = true) :
    a.read m off n = .ok (m.word (a.base + off.toUInt64) n.toNatClampNeg) := by
  rw [read_of_located (locate_of_within hs h), if_pos hw]

theorem write_of_within (hs : a.size < 2 ^ 63) (h : a.Within off n) (hw : isWidth n = true) :
    a.write m off n v = .ok (m.setWord (a.base + off.toUInt64) n.toNatClampNeg v) := by
  rw [write_of_located (locate_of_within hs h), if_pos hw]

theorem read_eq_ok (hs : a.size < 2 ^ 63) (h : a.read m off n = .ok v) :
    a.Within off n ∧ v = m.word (a.base + off.toUInt64) n.toNatClampNeg := by
  obtain ⟨addr, hloc, rfl⟩ := locate_of_read h
  obtain ⟨hin, rfl⟩ := within_of_locate hs hloc
  exact ⟨hin, rfl⟩

theorem write_eq_ok {m' : Memory} (hs : a.size < 2 ^ 63) (h : a.write m off n v = .ok m') :
    a.Within off n ∧ m' = m.setWord (a.base + off.toUInt64) n.toNatClampNeg v := by
  obtain ⟨addr, hloc, rfl⟩ := locate_of_write h
  obtain ⟨hin, rfl⟩ := within_of_locate hs hloc
  exact ⟨hin, rfl⟩

/-- A read of a width that there is fails because it is outside. -/
theorem read_error {e : Stop} (hn : off.toInt + n.toInt < 2 ^ 63) (hw : isWidth n = true)
    (h : a.read m off n = .error e) : e = .failure (a.outside off n) := by
  cases hloc : a.locate off n with
  | error e' =>
    rw [read_of_refused hloc] at h
    cases h
    exact locate_error hn hloc
  | ok addr =>
    rw [read_of_located hloc, if_pos hw] at h
    cases h

theorem write_error {e : Stop} (hn : off.toInt + n.toInt < 2 ^ 63) (hw : isWidth n = true)
    (h : a.write m off n v = .error e) : e = .failure (a.outside off n) := by
  cases hloc : a.locate off n with
  | error e' =>
    rw [write_of_refused hloc] at h
    cases h
    exact locate_error hn hloc
  | ok addr =>
    rw [write_of_located hloc, if_pos hw] at h
    cases h

/-! ## Accesses by address -/

/-- What was found by address lies inside by offset. The address is away from 0, so the distance to
its end does not wrap. -/
theorem within_of_covers {addr : UInt64} (ha : a.Mapped) (hn : 0 ≤ n.toInt) (hn' : n.toInt ≤ 8)
    (h : a.covers addr n = true) : a.Within (addr - a.base).toInt64 n := by
  have hlow := ha.low
  have hhigh := ha.high
  simp only [covers, Bool.and_eq_true, decide_eq_true_eq] at h
  obtain ⟨hbase, hend⟩ := h
  have hdist : (addr - a.base).toNat = addr.toNat - a.base.toNat :=
    UInt64.toNat_sub_of_le _ _ hbase
  have hlen : (n.toUInt64.toNat : Int) = n.toInt := toNat_toUInt64_of_nonneg hn
  have hlt := addr.toNat_lt
  rw [UInt64.le_iff_toNat_le, UInt64.toNat_add, UInt64.toNat_ofNat_of_lt' (by
    show a.size < 2 ^ 64
    omega), hdist, Nat.mod_eq_of_lt (by omega)] at hend
  rw [UInt64.le_iff_toNat_le] at hbase
  have hoff : (addr - a.base).toInt64.toInt = (addr - a.base).toNat :=
    toInt_toInt64_of_lt (by omega)
  constructor
  · omega
  · exact hn
  · omega

end Arena

namespace Space

/-- A search among open arenas ends inside its bounds. -/
theorem search_eq_ok (arenas : Array Arena) (addr : UInt64) {lo hi : Nat}
    (hopen : ∀ a ∈ arenas, a.isOpen = true) (hlo : lo ≤ hi) (hhi : hi ≤ arenas.size) :
    ∃ k, search arenas addr lo hi = .ok k ∧ k ≤ hi := by
  fun_induction search arenas addr lo hi with
  | case1 lo hi h mid hnone =>
    simp only [Array.getElem?_eq_none_iff] at hnone
    omega
  | case2 lo hi h mid a hget e he =>
    have := hopen a (Array.mem_of_getElem? hget)
    simp [Arena.address, this] at he
  | case3 lo hi h mid a hget base hb hlt ih =>
    obtain ⟨k, hk, hle⟩ := ih (by omega) (by omega)
    exact ⟨k, hk, by omega⟩
  | case4 lo hi h mid a hget base hb hge ih =>
    obtain ⟨k, hk, hle⟩ := ih (by omega) (by omega)
    exact ⟨k, hk, by omega⟩
  | case5 lo hi h => exact ⟨lo, rfl, hlo⟩

/-- What is resolved is covered by an arena of the space, at the offset from its base. -/
theorem resolve_eq_ok {s : Space} {addr : UInt64} {n off : Int64} {a : Arena}
    (h : s.resolve addr n = .ok (a, off)) :
    a ∈ s.arenas ∧ a.covers addr n = true ∧ off = (addr - a.base).toInt64 := by
  unfold resolve at h
  cases hs : search s.arenas.toArray addr 0 s.arenas.length with
  | error e => rw [hs] at h; cases h
  | ok k =>
    rw [hs] at h
    simp only [bind, Except.bind, pure, Except.pure] at h
    cases k with
    | zero => cases h
    -- The search gives the number of arenas that begin at or below the address.
    | succ k =>
      cases ha : s.arenas[k]? with
      | none =>
        simp only [ha] at h
        cases h
      | some x =>
        simp only [ha] at h
        split at h
        next hc =>
          cases h
          exact ⟨List.mem_of_getElem? ha, hc, rfl⟩
        · split at h <;> cases h

/-- While every arena is open an address that is refused is refused by a failure. -/
theorem resolve_error {s : Space} {addr : UInt64} {n : Int64} {e : Stop}
    (hopen : ∀ a ∈ s.arenas, a.isOpen = true) (h : s.resolve addr n = .error e) :
    ∃ f, e = .failure f := by
  -- The search aborts on a closed arena only, and all that follows it reports failures.
  obtain ⟨k, hk, -⟩ := search_eq_ok s.arenas.toArray addr (by simpa using hopen)
    (Nat.zero_le s.arenas.length) (by simp)
  unfold resolve at h
  rw [hk] at h
  simp only [bind, Except.bind, pure, Except.pure] at h
  cases k with
  | zero =>
    cases h
    exact ⟨_, rfl⟩
  | succ k =>
    cases ha : s.arenas[k]? with
    | none =>
      simp only [ha] at h
      cases h
      exact ⟨_, rfl⟩
    | some x =>
      simp only [ha] at h
      split at h
      · cases h
      · split at h <;> cases h <;> exact ⟨_, rfl⟩

end Space

end BlockVM
