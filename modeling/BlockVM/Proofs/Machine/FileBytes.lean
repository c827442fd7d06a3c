import BlockVM.Proofs.Machine.Registers
import BlockVM.Proofs.Memory.Words

/-!
# The register file by its bytes

Machine code sees the file as 3080 bytes. A byte that is replaced changes no other byte
(`byteAt_setByteAt`) and files with equal bytes are equal (`ext_bytes`), so the file is a small byte
memory. `fileBytes` and `setFileBytes` read and replace runs of bytes; on a register they are what
reading and writing the register is.
-/

namespace BlockVM.Registers

/-! ## Bytes of a word -/

theorem toNat_shift {i : Nat} (h : i < 8) :
    ((UInt64.ofNat (8 * i)).toBitVec % (64 : BitVec 64)).toNat = 8 * i := by
  rw [BitVec.toNat_umod, UInt64.toNat_toBitVec, UInt64.toNat_ofNat_of_lt' (by
    show 8 * i < 2 ^ 64
    omega), show (64 : BitVec 64).toNat = 64 from rfl]
  omega

theorem getLsbD_byteOf {i : Nat} (h : i < 8) (w : UInt64) (k : Nat) :
    (byteOf w i).toBitVec.getLsbD k = (decide (k < 8) && w.toBitVec.getLsbD (8 * i + k)) := by
  simp only [byteOf, UInt64.toBitVec_toUInt8, UInt64.toBitVec_shiftRight, BitVec.getLsbD_setWidth,
    BitVec.ushiftRight_eq', BitVec.getLsbD_ushiftRight, toNat_shift h]

theorem getLsbD_spliceByte {i : Nat} (h : i < 8) (w : UInt64) (b : UInt8) {k : Nat} (hk : k < 64) :
    (spliceByte w i b).toBitVec.getLsbD k =
      if 8 * i ≤ k ∧ k < 8 * i + 8 then b.toBitVec.getLsbD (k - 8 * i)
      else w.toBitVec.getLsbD k := by
  have hff : ∀ k, Nat.testBit 255 k = decide (k < 8) := Nat.testBit_two_pow_sub_one 8
  simp only [spliceByte, UInt64.toBitVec_or, UInt64.toBitVec_and, UInt64.toBitVec_not,
    UInt64.toBitVec_shiftLeft, UInt8.toBitVec_toUInt64, BitVec.getLsbD_or, BitVec.getLsbD_and,
    BitVec.getLsbD_not, BitVec.shiftLeft_eq', BitVec.getLsbD_shiftLeft, toNat_shift h,
    BitVec.getLsbD_setWidth, UInt64.toBitVec_ofNat, BitVec.getLsbD_ofNat, hff]
  grind

/-- A byte that was replaced is there, and the others are as they were. -/
theorem byteOf_spliceByte {i j : Nat} (hi : i < 8) (hj : j < 8) (w : UInt64) (b : UInt8) :
    byteOf (spliceByte w i b) j = if i = j then b else byteOf w j := by
  apply UInt8.toBitVec_inj.mp
  apply BitVec.eq_of_getLsbD_eq
  intro k hk
  rw [getLsbD_byteOf hj, getLsbD_spliceByte hi _ _ (by omega)]
  by_cases h : i = j
  · subst h
    rw [if_pos rfl, if_pos (by omega), Nat.add_sub_cancel_left]
    simp [hk]
  · rw [if_neg h, if_neg (by omega), getLsbD_byteOf hj]

/-- The bytes of a word are those that it is stored as. -/
theorem byteOf_eq {i : Nat} (h : i < 8) (w : UInt64) :
    byteOf w i = UInt8.ofNat (w.toNat / 256 ^ i) := by
  have hshift : (UInt64.ofNat (8 * i)).toNat % 64 = 8 * i := by
    rw [UInt64.toNat_ofNat_of_lt' (by show 8 * i < 2 ^ 64; omega)]
    omega
  apply UInt8.toNat_inj.mp
  rw [byteOf, UInt64.toNat_toUInt8, UInt64.toNat_shiftRight, hshift, Nat.shiftRight_eq_div_pow,
    Nat.pow_mul, UInt8.toNat_ofNat']

/-- A word is determined by its bytes. -/
theorem eq_of_byteOf {v w : UInt64} (h : ∀ i < 8, byteOf v i = byteOf w i) : v = w := by
  have hbytes : LittleEndian.bytes 8 v.toNat = LittleEndian.bytes 8 w.toNat := by
    apply List.ext_getElem (by simp)
    intro k hk _
    rw [LittleEndian.length_bytes] at hk
    rw [LittleEndian.getElem_bytes, LittleEndian.getElem_bytes, ← byteOf_eq hk,
      ← byteOf_eq hk, h k hk]
  have hvalue := congrArg LittleEndian.value hbytes
  have := v.toNat_lt
  have := w.toNat_lt
  rw [LittleEndian.value_bytes, LittleEndian.value_bytes] at hvalue
  apply UInt64.toNat_inj.mp
  omega

/-! ## Bytes of the file -/

variable (f : Registers)

/-- The bytes of an integer register begin at eight times its number. -/
theorem byteAt_int {r : UInt8} {k : Nat} (h : k < 8) :
    f.byteAt (8 * r.toNat + k) = byteOf (f.int r) k := by
  have := r.toNat_lt
  rw [byteAt, if_pos (by omega), show (8 * r.toNat + k) / 8 = r.toNat by omega,
    show (8 * r.toNat + k) % 8 = k by omega, UInt8.ofNat_toNat]

/-- Those of a float register lie behind all integer registers. -/
theorem byteAt_float {r : UInt8} {k : Nat} (h : k < 4) :
    f.byteAt (2048 + 4 * r.toNat + k) = byteOf (f.float r).toUInt64 k := by
  have := r.toNat_lt
  rw [byteAt, if_neg (by omega), if_pos (by omega),
    show (2048 + 4 * r.toNat + k - 2048) / 4 = r.toNat by omega,
    show (2048 + 4 * r.toNat + k) % 4 = k by omega, UInt8.ofNat_toNat]

theorem byteAt_sp {k : Nat} (h : k < 8) : f.byteAt (3072 + k) = byteOf f.sp.toUInt64 k := by
  rw [byteAt, if_neg (by omega), if_neg (by omega), show (3072 + k) % 8 = k by omega]

/-- What stands at an offset. -/
theorem offset_cases {off : Nat} (h : off < 3080) :
    (∃ (r : UInt8) (k : Nat), k < 8 ∧ off = 8 * r.toNat + k) ∨
    (∃ (r : UInt8) (k : Nat), k < 4 ∧ off = 2048 + 4 * r.toNat + k) ∨
    ∃ k, k < 8 ∧ off = 3072 + k := by
  by_cases hint : off < 2048
  · refine .inl ⟨UInt8.ofNat (off / 8), off % 8, Nat.mod_lt _ (by decide), ?_⟩
    rw [UInt8.toNat_ofNat_of_lt' (by show off / 8 < 256; omega)]
    omega
  · by_cases hfloat : off < 3072
    · refine .inr (.inl ⟨UInt8.ofNat ((off - 2048) / 4), off % 4, Nat.mod_lt _ (by decide), ?_⟩)
      rw [UInt8.toNat_ofNat_of_lt' (by show (off - 2048) / 4 < 256; omega)]
      omega
    · exact .inr (.inr ⟨off - 3072, by omega, by omega⟩)

theorem toUInt32_inj_of_byteOf {v w : UInt32}
    (h : ∀ i < 4, byteOf v.toUInt64 i = byteOf w.toUInt64 i) : v = w := by
  have hv : v.toUInt64 = w.toUInt64 := by
    apply eq_of_byteOf
    intro i hi
    by_cases h4 : i < 4
    · exact h i h4
    · have hzero : ∀ u : UInt32, byteOf u.toUInt64 i = 0 := by
        intro u
        have := u.toNat_lt
        have hdiv : u.toNat / 256 ^ i = 0 := by
          apply Nat.div_eq_of_lt
          calc u.toNat < 256 ^ 4 := this
            _ ≤ 256 ^ i := Nat.pow_le_pow_right (by decide) (by omega)
        rw [byteOf_eq hi, UInt32.toNat_toUInt64, hdiv]
        rfl
      rw [hzero v, hzero w]
  apply UInt32.toNat_inj.mp
  simpa using congrArg UInt64.toNat hv

/-- Files with equal bytes are equal. -/
theorem ext_bytes {f g : Registers} (h : ∀ off < 3080, f.byteAt off = g.byteAt off) : f = g := by
  apply ext_of
  · intro r
    have := r.toNat_lt
    apply eq_of_byteOf
    intro k hk
    rw [← byteAt_int f hk, ← byteAt_int g hk]
    exact h _ (by omega)
  · intro r
    have := r.toNat_lt
    apply toUInt32_inj_of_byteOf
    intro k hk
    rw [← byteAt_float f hk, ← byteAt_float g hk]
    exact h _ (by omega)
  -- The stack pointer is signed, so it is compared as the word it is stored as.
  · have hsp : f.sp.toUInt64 = g.sp.toUInt64 := by
      apply eq_of_byteOf
      intro k hk
      rw [← byteAt_sp f hk, ← byteAt_sp g hk]
      exact h _ (by omega)
    rw [← f.sp.toInt64_toUInt64, hsp, g.sp.toInt64_toUInt64]

theorem byteOf_toUInt32 {k : Nat} (h : k < 4) (w : UInt64) :
    byteOf w.toUInt32.toUInt64 k = byteOf w k := by
  apply UInt8.toBitVec_inj.mp
  apply BitVec.eq_of_getLsbD_eq
  intro j hj
  rw [getLsbD_byteOf (by omega), getLsbD_byteOf (by omega), UInt32.toBitVec_toUInt64,
    UInt64.toBitVec_toUInt32, BitVec.getLsbD_setWidth, BitVec.getLsbD_setWidth,
    decide_eq_true (show 8 * k + j < 64 by omega), decide_eq_true (show 8 * k + j < 32 by omega),
    Bool.true_and, Bool.true_and]

theorem setByteAt_int {r : UInt8} {k : Nat} (h : k < 8) (b : UInt8) :
    f.setByteAt (8 * r.toNat + k) b = f.setInt r (spliceByte (f.int r) k b) := by
  have := r.toNat_lt
  rw [setByteAt, if_pos (by omega), show (8 * r.toNat + k) / 8 = r.toNat by omega,
    show (8 * r.toNat + k) % 8 = k by omega, UInt8.ofNat_toNat]

theorem setByteAt_float {r : UInt8} {k : Nat} (h : k < 4) (b : UInt8) :
    f.setByteAt (2048 + 4 * r.toNat + k) b =
      f.setFloat r (spliceByte (f.float r).toUInt64 k b).toUInt32 := by
  have := r.toNat_lt
  rw [setByteAt, if_neg (by omega), if_pos (by omega),
    show (2048 + 4 * r.toNat + k - 2048) / 4 = r.toNat by omega,
    show (2048 + 4 * r.toNat + k) % 4 = k by omega, UInt8.ofNat_toNat]

theorem setByteAt_sp {k : Nat} (h : k < 8) (b : UInt8) :
    f.setByteAt (3072 + k) b = { f with sp := (spliceByte f.sp.toUInt64 k b).toInt64 } := by
  rw [setByteAt, if_neg (by omega), if_neg (by omega), show (3072 + k) % 8 = k by omega]

theorem byteAt_setInt (r : UInt8) (v : UInt64) {off : Nat} (h : off < 3080) :
    (f.setInt r v).byteAt off =
      if 8 * r.toNat ≤ off ∧ off < 8 * r.toNat + 8 then byteOf v (off - 8 * r.toNat)
      else f.byteAt off := by
  have := r.toNat_lt
  obtain ⟨q, k, hk, rfl⟩ | ⟨q, k, hk, rfl⟩ | ⟨k, hk, rfl⟩ := offset_cases h
  · rw [byteAt_int _ hk, byteAt_int _ hk, int_setInt]
    by_cases hrq : r = q
    · rw [if_pos hrq, hrq, if_pos (by omega), Nat.add_sub_cancel_left]
    · have : r.toNat ≠ q.toNat := fun heq => hrq (UInt8.toNat_inj.mp heq)
      rw [if_neg hrq, if_neg (by omega)]
  · rw [byteAt_float _ hk, byteAt_float _ hk, float_setInt, if_neg (by omega)]
  · rw [byteAt_sp _ hk, byteAt_sp _ hk, sp_setInt, if_neg (by omega)]

theorem byteAt_setFloat (r : UInt8) (v : UInt32) {off : Nat} (h : off < 3080) :
    (f.setFloat r v).byteAt off =
      if 2048 + 4 * r.toNat ≤ off ∧ off < 2048 + 4 * r.toNat + 4 then
        byteOf v.toUInt64 (off - (2048 + 4 * r.toNat))
      else f.byteAt off := by
  have := r.toNat_lt
  obtain ⟨q, k, hk, rfl⟩ | ⟨q, k, hk, rfl⟩ | ⟨k, hk, rfl⟩ := offset_cases h
  · have := q.toNat_lt
    rw [byteAt_int _ hk, byteAt_int _ hk, int_setFloat, if_neg (by omega)]
  · rw [byteAt_float _ hk, byteAt_float _ hk, float_setFloat]
    by_cases hrq : r = q
    · rw [if_pos hrq, hrq, if_pos (by omega), Nat.add_sub_cancel_left]
    · have : r.toNat ≠ q.toNat := fun heq => hrq (UInt8.toNat_inj.mp heq)
      rw [if_neg hrq, if_neg (by omega)]
  · rw [byteAt_sp _ hk, byteAt_sp _ hk, sp_setFloat, if_neg (by omega)]

/-- Setting the stack pointer changes the last eight. -/
theorem byteAt_setSp (v : Int64) {off : Nat} (h : off < 3080) :
    ({ f with sp := v } : Registers).byteAt off =
      if 3072 ≤ off then byteOf v.toUInt64 (off - 3072) else f.byteAt off := by
  obtain ⟨q, k, hk, rfl⟩ | ⟨q, k, hk, rfl⟩ | ⟨k, hk, rfl⟩ := offset_cases h
  · have := q.toNat_lt
    rw [byteAt_int _ hk, byteAt_int _ hk, if_neg (by omega)]
    rfl
  · have := q.toNat_lt
    rw [byteAt_float _ hk, byteAt_float _ hk, if_neg (by omega)]
    rfl
  · rw [byteAt_sp _ hk, if_pos (by omega), Nat.add_sub_cancel_left]

/-- Replacing a byte changes no other. -/
theorem byteAt_setByteAt {off off' : Nat} (h : off < 3080) (h' : off' < 3080) (b : UInt8) :
    (f.setByteAt off b).byteAt off' = if off = off' then b else f.byteAt off' := by
  -- The offset lies in an integer register, in a float register or in the stack pointer.
  obtain ⟨r, k, hk, rfl⟩ | ⟨r, k, hk, rfl⟩ | ⟨k, hk, rfl⟩ := offset_cases h
  · rw [setByteAt_int _ hk, byteAt_setInt _ _ _ h']
    by_cases hin : 8 * r.toNat ≤ off' ∧ off' < 8 * r.toNat + 8
    · obtain ⟨j, rfl⟩ := Nat.exists_eq_add_of_le hin.1
      rw [if_pos hin, Nat.add_sub_cancel_left, byteOf_spliceByte hk (by omega),
        byteAt_int _ (by omega)]
      simp only [Nat.add_left_cancel_iff]
    · rw [if_neg hin, if_neg (by omega)]
  · rw [setByteAt_float _ hk, byteAt_setFloat _ _ _ h']
    by_cases hin : 2048 + 4 * r.toNat ≤ off' ∧ off' < 2048 + 4 * r.toNat + 4
    · obtain ⟨j, rfl⟩ := Nat.exists_eq_add_of_le hin.1
      rw [if_pos hin, Nat.add_sub_cancel_left, byteOf_toUInt32 (by omega),
        byteOf_spliceByte (by omega) (by omega), byteAt_float _ (by omega)]
      simp only [Nat.add_left_cancel_iff]
    · rw [if_neg hin, if_neg (by omega)]
  · rw [setByteAt_sp _ hk, byteAt_setSp _ _ h']
    by_cases hin : 3072 ≤ off'
    · obtain ⟨j, rfl⟩ := Nat.exists_eq_add_of_le hin
      rw [if_pos hin, Nat.add_sub_cancel_left, UInt64.toUInt64_toInt64,
        byteOf_spliceByte hk (by omega), byteAt_sp _ (by omega)]
      simp only [Nat.add_left_cancel_iff]
    · rw [if_neg hin, if_neg (by omega)]

/-! ## Runs of bytes -/

def fileBytes (f : Registers) : Nat → Nat → List UInt8
  | _, 0 => []
  | off, n + 1 => f.byteAt off :: fileBytes f (off + 1) n

def setFileBytes (f : Registers) : Nat → List UInt8 → Registers
  | _, [] => f
  | off, b :: bs => setFileBytes (f.setByteAt off b) (off + 1) bs

@[simp] theorem length_fileBytes (off n : Nat) : (f.fileBytes off n).length = n := by
  induction n generalizing off with
  | zero => rfl
  | succ n ih => simp [fileBytes, ih]

theorem getElem_fileBytes {off n k : Nat} (h : k < (f.fileBytes off n).length) :
    (f.fileBytes off n)[k] = f.byteAt (off + k) := by
  induction n generalizing off k with
  | zero => simp [fileBytes] at h
  | succ n ih =>
    cases k with
    | zero => simp [fileBytes]
    | succ k =>
      simp only [fileBytes, List.getElem_cons_succ]
      rw [ih, Nat.add_assoc, Nat.add_comm 1]

theorem byteAt_setFileBytes {off off' : Nat} {bs : List UInt8} (h : off + bs.length ≤ 3080)
    (h' : off' < 3080) :
    (f.setFileBytes off bs).byteAt off' =
      if off ≤ off' ∧ off' < off + bs.length then bs.getD (off' - off) 0 else f.byteAt off' := by
  induction bs generalizing f off with
  | nil =>
    rw [setFileBytes, if_neg]
    simp only [List.length_nil]
    omega
  | cons b bs ih =>
    rw [List.length_cons] at h ⊢
    rw [setFileBytes, ih _ (by omega), byteAt_setByteAt _ (by omega) h']
    by_cases heq : off = off'
    · subst heq
      rw [if_neg (by omega), if_pos rfl, if_pos (by omega), Nat.sub_self, List.getD_cons_zero]
    · rw [if_neg heq]
      by_cases hin : off + 1 ≤ off' ∧ off' < off + 1 + bs.length
      · rw [if_pos hin, if_pos (by omega), show off' - off = off' - (off + 1) + 1 by omega,
          List.getD_cons_succ]
      · rw [if_neg hin, if_neg (by omega)]

/-- A run of bytes that agrees with a word byte by byte is what the word is stored as. -/
theorem fileBytes_eq {off n : Nat} {w : UInt64} (hn : n ≤ 8)
    (h : ∀ k < n, f.byteAt (off + k) = byteOf w k) :
    f.fileBytes off n = LittleEndian.bytes n w.toNat := by
  apply List.ext_getElem (by simp)
  intro k hk _
  rw [length_fileBytes] at hk
  rw [getElem_fileBytes, LittleEndian.getElem_bytes, ← byteOf_eq (by omega), h k hk]

/-- Reading the bytes of a register, or the low ones of them, is reading the register. -/
theorem fileBytes_int {n : Nat} (r : UInt8) (h : n ≤ 8) :
    f.fileBytes (8 * r.toNat) n = LittleEndian.bytes n (f.int r).toNat :=
  f.fileBytes_eq h fun _ hk => f.byteAt_int (by omega)

theorem fileBytes_float (r : UInt8) :
    f.fileBytes (2048 + 4 * r.toNat) 4 = LittleEndian.bytes 4 (f.float r).toUInt64.toNat :=
  f.fileBytes_eq (by decide) fun _ hk => f.byteAt_float hk

theorem fileBytes_sp : f.fileBytes 3072 8 = LittleEndian.bytes 8 f.sp.toUInt64.toNat :=
  f.fileBytes_eq (by decide) fun _ hk => f.byteAt_sp hk

theorem getD_bytes {n k : Nat} (hk : k < n) (hn : n ≤ 8) (w : UInt64) :
    (LittleEndian.bytes n w.toNat).getD k 0 = byteOf w k := by
  have hlen : k < (LittleEndian.bytes n w.toNat).length := by rwa [LittleEndian.length_bytes]
  rw [List.getD_eq_getElem?_getD, List.getElem?_eq_getElem hlen, Option.getD_some,
    LittleEndian.getElem_bytes, byteOf_eq (by omega)]

/-- Replacing all bytes of a register is setting it. -/
theorem setFileBytes_int (r : UInt8) (v : UInt64) :
    f.setFileBytes (8 * r.toNat) (LittleEndian.bytes 8 v.toNat) = f.setInt r v := by
  have := r.toNat_lt
  apply ext_bytes
  intro off h
  rw [byteAt_setFileBytes _ (by rw [LittleEndian.length_bytes]; omega) h, byteAt_setInt _ _ _ h,
    LittleEndian.length_bytes]
  split
  next hin => exact getD_bytes (by omega) (by decide) v
  · rfl

theorem setFileBytes_float (r : UInt8) (v : UInt64) :
    f.setFileBytes (2048 + 4 * r.toNat)
    (LittleEndian.bytes 4 v.toNat) = f.setFloat r v.toUInt32 := by
  have := r.toNat_lt
  apply ext_bytes
  intro off h
  rw [byteAt_setFileBytes _ (by rw [LittleEndian.length_bytes]; omega) h, byteAt_setFloat _ _ _ h,
    LittleEndian.length_bytes]
  split
  next hin => rw [getD_bytes (by omega) (by decide) v, byteOf_toUInt32 (by omega)]
  · rfl

theorem setFileBytes_sp (v : UInt64) :
    f.setFileBytes 3072 (LittleEndian.bytes 8 v.toNat) = { f with sp := v.toInt64 } := by
  apply ext_bytes
  intro off h
  have hlength := LittleEndian.length_bytes 8 v.toNat
  rw [byteAt_setFileBytes _ (by omega) h, f.byteAt_setSp v.toInt64 h, hlength,
    UInt64.toUInt64_toInt64]
  by_cases hin : 3072 ≤ off
  · rw [if_pos ⟨hin, h⟩, if_pos hin, getD_bytes (by omega) (by decide) v]
  · rw [if_neg (by omega), if_neg hin]

end BlockVM.Registers
