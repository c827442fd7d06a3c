import BlockVM.Proofs.Memory.Resolution
import BlockVM.Proofs.Memory.Words

/-!
# The checks of an arena over the integers

Both checks add machine words. `inBounds_iff` and `contains_iff` say that they decide whether a
range lies inside the arena as long as the end of the range is a word of their kind. Beyond that the
sum wraps: the check of an offset then lets every range pass, the check of an address those whose
wrapped end is small enough.

`Guarded` is what the checks mean for an access: it is refused exactly where the check of its offset
refuses it, and it never reaches a byte outside the arena.
-/

namespace BlockVM.Arena

variable {a : Arena} {off n : Int64} {addr : UInt64} {m : Memory}

/-! ## Sums that wrap -/

/-- If the sum is no word, neither of the two is negative. -/
theorem nonneg_of_large (h : 2 ^ 63 ≤ off.toInt + n.toInt) : 0 ≤ off.toInt ∧ 0 ≤ n.toInt := by
  have := toInt_bounds off
  have := toInt_bounds n
  omega

/-- A range whose end is no signed word passes the check of every arena. -/
theorem inBounds_of_large (hsize : a.size < 2 ^ 63) (h : 2 ^ 63 ≤ off.toInt + n.toInt) :
    a.inBounds off n = true := by
  obtain ⟨hoff, hn⟩ := nonneg_of_large h
  have hlow := toInt_bounds off
  have hlow' := toInt_bounds n
  have hend : off + n ≤ Int64.ofNat a.size := by
    rw [Int64.le_iff_toInt_le, Int64.toInt_ofNat_of_lt hsize, toInt_add_of_large h]
    omega
  simp only [inBounds, toInt_nonneg_iff.mpr hoff, toInt_nonneg_iff.mpr hn, hend, decide_true,
    Bool.and_self]

/-- The check of an address, over the integers: the end of the range as the word that it becomes. -/
theorem covers_iff_wrapped (hsize : a.size < 2 ^ 63) (hn : 0 ≤ n.toInt) :
    a.covers addr n = true ↔ a.base.toNat ≤ addr.toNat ∧
      (addr.toNat - a.base.toNat + n.toInt.toNat) % 2 ^ 64 ≤ a.size := by
  have hword : (UInt64.ofNat a.size).toNat = a.size := by
    apply UInt64.toNat_ofNat_of_lt'
    show a.size < 2 ^ 64
    omega
  have hlen := toNat_toUInt64_of_nonneg hn
  simp only [covers, Bool.and_eq_true, decide_eq_true_eq, UInt64.le_iff_toNat_le]
  refine and_congr_right fun hbase => ?_
  rw [hword, UInt64.toNat_add, UInt64.toNat_sub_of_le _ _ (UInt64.le_iff_toNat_le.mpr hbase),
    show n.toUInt64.toNat = n.toInt.toNat by omega]

/-- While the distance from the base to the end of the range is a word, the check of an address
decides whether the range lies inside. -/
theorem contains_iff (hopen : a.isOpen = true) (hsize : a.size < 2 ^ 63) (hn : 0 ≤ n.toInt)
    (hend : (addr.toNat : Int) - a.base.toNat + n.toInt < 2 ^ 64) :
    ∃ inside, a.contains addr n = .ok inside ∧ (inside = true ↔
      (a.base.toNat : Int) ≤ addr.toNat ∧ addr.toNat + n.toInt ≤ a.base.toNat + a.size) := by
  have haddress : a.contains addr n = .ok (a.covers addr n) := by
    simp only [contains, address, hopen, if_true, bind, Except.bind, pure, Except.pure]
  refine ⟨_, haddress, (covers_iff_wrapped hsize hn).trans ?_⟩
  constructor
  · rintro ⟨hbase, hin⟩
    rw [Nat.mod_eq_of_lt (by omega)] at hin
    omega
  · rintro ⟨hbase, hin⟩
    rw [Nat.mod_eq_of_lt (by omega)]
    omega

/-! ## Accesses -/

/-- What is known of the answer `r` to an access of `[off, off + n)`: inside the arena it is an
answer as it should be, and it is refused as out of bounds exactly where the check refuses the
range. It aborts where the end of the range is no signed word, and nowhere else. -/
structure Guarded {α : Type} (a : Arena) (off n : Int64) (r : Except Stop α) (Good : α → Prop) :
    Prop where
  inside : a.Within off n → ∃ x, r = .ok x ∧ Good x
  outside : FailsWith r .outOfBounds ↔ a.inBounds off n = false
  wrapped : (∃ reason, r = .error (.abort reason)) ↔ 2 ^ 63 ≤ off.toInt + n.toInt

/-- An access is located before anything else, and what follows does not fail. -/
theorem guarded_of_locate {α : Type} {f : UInt64 → Except Stop α} {x : α} {Good : α → Prop}
    (hsize : a.size < 2 ^ 63) (hn : 0 ≤ n.toInt) (hf : f (a.base + off.toUInt64) = .ok x)
    (good : a.Within off n → Good x) : Guarded a off n (a.locate off n >>= f) Good := by
  by_cases hlarge : 2 ^ 63 ≤ off.toInt + n.toInt
  · -- The sum has become negative: it passes the check, and the slice behind the check aborts.
    have hin := inBounds_of_large hsize hlarge
    have hwrap : off + n < off := by
      have := toInt_bounds n
      rw [Int64.lt_iff_toInt_lt, toInt_add_of_large hlarge]
      omega
    have hlocate : a.locate off n = .error (.abort none) := by
      simp only [locate, hin, Bool.not_true, Bool.false_eq_true, if_false, hwrap, if_true]
    rw [hlocate]
    refine ⟨fun h => ?_, ⟨?_, fun h => ?_⟩, fun _ => hlarge, fun _ => ⟨none, rfl⟩⟩
    · have := h.add_lt hsize
      omega
    · rintro ⟨_, h, -⟩
      cases h
    · rw [hin] at h
      cases h
  · -- The sum is that of the integers, so the check is exact and nothing aborts.
    have hiff : a.inBounds off n = true ↔ a.Within off n := inBounds_iff hsize (by omega)
    by_cases hin : a.Within off n
    · rw [locate_of_within hsize hin]
      have hok : ((Except.ok (a.base + off.toUInt64) : Except Stop UInt64) >>= f) = .ok x := hf
      rw [hok]
      refine ⟨fun _ => ⟨x, rfl, good hin⟩, ⟨?_, fun h => ?_⟩, ?_, fun h => absurd h hlarge⟩
      · rintro ⟨_, h, -⟩
        cases h
      · rw [hiff.mpr hin] at h
        cases h
      · rintro ⟨_, h⟩
        cases h
    · have hfalse : a.inBounds off n = false := by
        rw [← Bool.not_eq_true]
        exact fun h => hin (hiff.mp h)
      have hlocate : a.locate off n = .error (.failure (a.outside off n)) := by
        simp only [locate, hfalse, Bool.not_false, if_true]
      rw [hlocate]
      refine ⟨fun h => absurd h hin, ⟨fun _ => hfalse, fun _ => ⟨_, rfl, rfl⟩⟩, ?_,
        fun h => absurd h hlarge⟩
      rintro ⟨_, h⟩
      cases h

/-- The bytes of a range, among those of the arena. -/
def window (a : Arena) (m : Memory) (off n : Int64) : List UInt8 :=
  ((a.bytes m).drop off.toNatClampNeg).take n.toNatClampNeg

theorem Within.toUInt64_start (h : a.Within off n) :
    off.toUInt64 = UInt64.ofNat off.toNatClampNeg := by
  have := toNat_toUInt64_of_nonneg h.start
  rw [← UInt64.ofNat_toNat (x := off.toUInt64)]
  congr 1
  show _ = off.toInt.toNat
  omega

theorem Within.fits (h : a.Within off n) : off.toNatClampNeg + n.toNatClampNeg ≤ a.size := by
  have := h.start
  have := h.length
  have := h.stop
  show off.toInt.toNat + n.toInt.toNat ≤ a.size
  omega

/-- What is read of a range inside are bytes of the arena. -/
theorem loadBytes_of_within (h : a.Within off n) :
    m.loadBytes (a.base + off.toUInt64) n.toNatClampNeg = a.window m off n := by
  rw [h.toUInt64_start, window, bytes, Memory.loadBytes_part _ _ h.fits]

/-- The memory differs from `m` in bytes of the arena only. -/
def Confined (a : Arena) (m m' : Memory) : Prop :=
  ∀ x : UInt64, a.size ≤ (x - a.base).toNat → m'.load x = m.load x

/-- A write within an arena changes no byte outside it. -/
theorem confined_setWord {v : UInt64} (h : a.Within off n) :
    a.Confined m (m.setWord (a.base + off.toUInt64) n.toNatClampNeg v) := by
  intro x hx
  apply Memory.load_storeBytes_of_ne
  intro k hk hsame
  have hlow := h.start
  have hn := h.length
  have hstop := h.stop
  have hoff := toNat_toUInt64_of_nonneg hlow
  have hbound := toInt_bounds n
  rw [LittleEndian.length_bytes] at hk
  have hk' : (k : Int) < n.toInt := by
    have : k < n.toInt.toNat := hk
    omega
  -- The distance of a stored byte from the base is its offset, which is below the size.
  have hdist : x - a.base = off.toUInt64 + UInt64.ofNat k := by
    rw [← hsame, UInt64.add_assoc, UInt64.add_comm a.base, UInt64.add_sub_cancel]
  rw [hdist, UInt64.toNat_add, UInt64.toNat_ofNat_of_lt' (by show k < 2 ^ 64; omega)] at hx
  omega

section Guarded

variable {v : UInt64} (hsize : a.size < 2 ^ 63) (hn : 0 ≤ n.toInt)

include hsize hn

theorem guarded_slice : Guarded a off n (a.slice m off n) (· = a.window m off n) :=
  guarded_of_locate hsize hn rfl loadBytes_of_within

theorem guarded_read (hwidth : isWidth n = true) :
    Guarded a off n (a.read m off n) (· = LittleEndian.toUInt64 (a.window m off n)) := by
  refine guarded_of_locate hsize hn (by rw [if_pos hwidth]; rfl) fun h => ?_
  rw [Memory.word, loadBytes_of_within h]

theorem guarded_write (hwidth : isWidth n = true) :
    Guarded a off n (a.write m off n v) fun m' =>
      m' = m.setWord (a.base + off.toUInt64) n.toNatClampNeg v ∧ a.Confined m m' := by
  refine guarded_of_locate hsize hn (by rw [if_pos hwidth]; rfl) fun h => ⟨rfl, ?_⟩
  exact confined_setWord h

end Guarded

/-- The checks of an arena decide over the integers whether a range lies inside, as long as its end
is a word. Slices, reads and writes are refused exactly where the check refuses their range, and
touch bytes of the arena only; if the end of the range is no signed word, they abort. -/
theorem checks_decide_containment (a : Arena) (m : Memory) (off n : Int64) (addr v : UInt64)
    (hopen : a.isOpen = true) (hsize : a.size < 2 ^ 63) (hn : 0 ≤ n.toInt) :
    (off.toInt + n.toInt < 2 ^ 63 →
      (a.inBounds off n = true ↔ 0 ≤ off.toInt ∧ off.toInt + n.toInt ≤ a.size)) ∧
    ((addr.toNat : Int) - a.base.toNat + n.toInt < 2 ^ 64 →
      ∃ inside, a.contains addr n = .ok inside ∧ (inside = true ↔
        (a.base.toNat : Int) ≤ addr.toNat ∧ addr.toNat + n.toInt ≤ a.base.toNat + a.size)) ∧
    Guarded a off n (a.slice m off n) (· = a.window m off n) ∧
    (isWidth n = true →
      Guarded a off n (a.read m off n) (· = LittleEndian.toUInt64 (a.window m off n)) ∧
      Guarded a off n (a.write m off n v) fun m' =>
        m' = m.setWord (a.base + off.toUInt64) n.toNatClampNeg v ∧ a.Confined m m') := by
  refine ⟨fun hend => ?_, contains_iff hopen hsize hn, guarded_slice hsize hn,
    fun hwidth => ⟨guarded_read hsize hn hwidth, guarded_write hsize hn hwidth⟩⟩
  rw [inBounds_iff hsize hend]
  exact ⟨fun h => ⟨h.start, h.stop⟩, fun h => ⟨h.1, hn, h.2⟩⟩

def fullPage : Arena := { name := "page", base := 0x10000, size := 4096 }

/-- The last eight bytes of a page, and eight bytes that leave it. -/
theorem checks_decide_containment_fullPage :
    (fullPage.inBounds 4088 8 = true ∧
      ∃ v, fullPage.read {} 4088 8 = .ok v ∧
      v = LittleEndian.toUInt64 (fullPage.window {} 4088 8)) ∧
    fullPage.contains 0x10ff9 8 = .ok false ∧ FailsWith (fullPage.read {} 4089 8) .outOfBounds := by
  obtain ⟨hbounds, -, -, haccess⟩ :=
    checks_decide_containment fullPage {} 4088 8 0 0 rfl (by decide) (by decide)
  have hlast : fullPage.inBounds 4088 8 = true := (hbounds (by decide)).mpr ⟨by decide, by decide⟩
  obtain ⟨-, hcontains, -, hfurther⟩ :=
    checks_decide_containment fullPage {} 4089 8 0x10ff9 0 rfl (by decide) (by decide)
  obtain ⟨inside, heq, hiff⟩ := hcontains (by decide)
  refine ⟨⟨hlast, (haccess rfl).1.inside ⟨by decide, by decide, by decide⟩⟩, ?_,
    (hfurther rfl).1.outside.mpr (by decide)⟩
  rw [heq, Except.ok.injEq, ← Bool.not_eq_true, hiff]
  decide

/-- A range that begins at the last offset, and one that ends where the addresses begin again: both
checks let them pass. -/
theorem checks_wrap :
    (fullPage.inBounds 0x7fffffffffffffff 1 = true ∧
      ¬ (0x7fffffffffffffff : Int64).toInt + (1 : Int64).toInt ≤ fullPage.size) ∧
    (fullPage.contains 0xffffffffffffffff 0x10001 = .ok true ∧
      ¬ ((0xffffffffffffffff : UInt64).toNat : Int) + (0x10001 : Int64).toInt
        ≤ fullPage.base.toNat + fullPage.size) ∧
    fullPage.slice {} 0x7fffffffffffffff 1 = .error (.abort none) := by
  refine ⟨⟨by decide, by decide⟩, ⟨rfl, by decide⟩, rfl⟩

end BlockVM.Arena
