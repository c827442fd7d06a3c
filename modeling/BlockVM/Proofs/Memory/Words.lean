import BlockVM.Memory.Cells

/-!
# Words in memory

A word is stored as the bytes of its value, so only its value modulo the width counts
(`bytes_congr`). `word_setWord` reads a word back where it was stored, and `word_setWord_of_apart`
says that a store leaves words elsewhere alone. Addresses wrap, so "elsewhere" is said of the
distance between the two words.
-/

namespace BlockVM

namespace LittleEndian

theorem bytes_mod (n v : Nat) : bytes n (v % 256 ^ n) = bytes n v := by
  have h := bytes_value (bytes n v)
  rwa [length_bytes, value_bytes] at h

/-- Two numbers that agree modulo the width are stored as the same bytes. -/
theorem bytes_congr {n v w : Nat} (h : v % 256 ^ n = w % 256 ^ n) : bytes n v = bytes n w := by
  rw [← bytes_mod n v, h, bytes_mod]

theorem getElem_bytes {n k : Nat} (v : Nat) (h : k < (bytes n v).length) :
    (bytes n v)[k] = UInt8.ofNat (v / 256 ^ k) := by
  induction n generalizing v k with
  | zero => simp [bytes] at h
  | succ n ih =>
    cases k with
    | zero => simp [bytes]
    | succ k =>
      simp only [bytes, List.getElem_cons_succ]
      rw [ih, Nat.div_div_eq_div_mul, Nat.pow_succ, Nat.mul_comm]

/-- What is read back of the low bytes of a word. -/
theorem toUInt64_bytes (n : Nat) (v : UInt64) :
    toUInt64 (bytes n v.toNat) = UInt64.ofNat (v.toNat % 256 ^ n) := by
  rw [toUInt64, value_bytes]

/-- Eight bytes are all of a word. -/
theorem ofNat_mod_qword (v : UInt64) : UInt64.ofNat (v.toNat % 256 ^ 8) = v := by
  have hlt := v.toNat_lt
  rw [Nat.mod_eq_of_lt (by omega), UInt64.ofNat_toNat]

theorem ofNat_mod_dword (v : UInt32) : UInt32.ofNat (v.toNat % 256 ^ 4) = v := by
  have hlt := v.toNat_lt
  rw [Nat.mod_eq_of_lt (by omega), UInt32.ofNat_toNat]

end LittleEndian

namespace Memory

/-! ## Runs of bytes -/

theorem storeBytes_append (m : Memory) (a : UInt64) (xs ys : List UInt8) :
    m.storeBytes a (xs ++ ys) = (m.storeBytes a xs).storeBytes (a + UInt64.ofNat xs.length) ys := by
  induction xs generalizing m a with
  | nil =>
    rw [List.nil_append, storeBytes, List.length_nil]
    congr 1
    exact (UInt64.add_zero a).symm
  | cons x xs ih =>
    rw [List.cons_append, storeBytes, storeBytes, ih, List.length_cons, Nat.add_comm xs.length 1,
      UInt64.ofNat_add, UInt64.add_assoc]
    rfl

theorem loadBytes_add (m : Memory) (a : UInt64) (j k : Nat) :
    m.loadBytes a (j + k) = m.loadBytes a j ++ m.loadBytes (a + UInt64.ofNat j) k := by
  induction j generalizing a with
  | zero =>
    rw [Nat.zero_add, loadBytes, List.nil_append]
    congr 1
    exact (UInt64.add_zero a).symm
  | succ j ih =>
    rw [Nat.add_right_comm, loadBytes, loadBytes, ih, List.cons_append, Nat.add_comm j 1,
      UInt64.ofNat_add, UInt64.add_assoc]
    rfl

/-- A part of a run of bytes. -/
theorem loadBytes_part (m : Memory) (a : UInt64) {j k n : Nat} (h : j + k ≤ n) :
    ((m.loadBytes a n).drop j).take k = m.loadBytes (a + UInt64.ofNat j) k := by
  obtain ⟨rest, rfl⟩ := Nat.exists_eq_add_of_le h
  rw [Nat.add_assoc, loadBytes_add, List.drop_left' (length_loadBytes ..), loadBytes_add,
    List.take_left' (length_loadBytes ..)]

theorem getElem?_loadBytes (m : Memory) (a : UInt64) {n k : Nat} (h : k < n) :
    (m.loadBytes a n)[k]? = some (m.load (a + UInt64.ofNat k)) := by
  induction n generalizing a k with
  | zero => omega
  | succ n ih =>
    cases k with
    | zero => simp [loadBytes]
    | succ k =>
      rw [loadBytes, List.getElem?_cons_succ, ih _ (by omega), Nat.add_comm k, UInt64.ofNat_add,
        UInt64.add_assoc]
      rfl

theorem loadBytes_eq_map (m : Memory) (a : UInt64) (n : Nat) :
    m.loadBytes a n = (List.range n).map fun k => m.load (a + UInt64.ofNat k) := by
  apply List.ext_getElem?
  intro k
  by_cases h : k < n
  · rw [getElem?_loadBytes m a h, List.getElem?_map, List.getElem?_range h]
    rfl
  · rw [List.getElem?_eq_none (by simpa using h), List.getElem?_eq_none (by simpa using h)]

/-! ## Reads after stores -/

/-- A store leaves bytes at other addresses alone. -/
theorem load_storeBytes_of_ne (m : Memory) {a a' : UInt64} {bs : List UInt8}
    (h : ∀ k < bs.length, a + UInt64.ofNat k ≠ a') : (m.storeBytes a bs).load a' = m.load a' := by
  induction bs generalizing m a with
  | nil => rfl
  | cons b bs ih =>
    have hhead : a ≠ a' := by simpa using h 0 (by simp)
    rw [storeBytes, ih, load_store, if_neg hhead]
    intro k hk
    have := h (k + 1) (by simpa using hk)
    rwa [Nat.add_comm, UInt64.ofNat_add, ← UInt64.add_assoc] at this

theorem loadBytes_storeBytes_of_ne (m : Memory) {a a' : UInt64} {bs : List UInt8} {n : Nat}
    (h : ∀ k < bs.length, ∀ j < n, a + UInt64.ofNat k ≠ a' + UInt64.ofNat j) :
    (m.storeBytes a bs).loadBytes a' n = m.loadBytes a' n := by
  induction n generalizing a' with
  | zero => rfl
  | succ n ih =>
    have hhead : (m.storeBytes a bs).load a' = m.load a' :=
      load_storeBytes_of_ne m fun k hk => by simpa using h k hk 0 (by simp)
    rw [loadBytes, loadBytes, hhead, ih]
    intro k hk j hj
    have := h k hk (j + 1) (by omega)
    rwa [Nat.add_comm j, UInt64.ofNat_add, ← UInt64.add_assoc] at this

/-- The distance between two bytes of a stretch does not wrap. -/
theorem add_ofNat_ne {a : UInt64} {j k : Nat} (hj : j < 2 ^ 64) (hk : k < 2 ^ 64) (h : j ≠ k) :
    a + UInt64.ofNat j ≠ a + UInt64.ofNat k := by
  intro heq
  have := UInt64.add_right_inj a |>.mp heq
  rw [← UInt64.toNat_inj, UInt64.toNat_ofNat_of_lt' hj, UInt64.toNat_ofNat_of_lt' hk] at this
  exact h this

/-- What is stored is loaded again, as long as it does not go round the whole memory. -/
theorem loadBytes_storeBytes (m : Memory) (a : UInt64) {bs : List UInt8}
    (h : bs.length ≤ 2 ^ 64) : (m.storeBytes a bs).loadBytes a bs.length = bs := by
  induction bs generalizing m a with
  | nil => rfl
  | cons b bs ih =>
    rw [List.length_cons] at h
    have hhead : ((m.store a b).storeBytes (a + 1) bs).load a = b := by
      rw [load_storeBytes_of_ne, load_store, if_pos rfl]
      intro k hk
      have := add_ofNat_ne (a := a) (j := 1 + k) (k := 0) (by omega) (by omega) (by omega)
      rwa [UInt64.ofNat_add, ← UInt64.add_assoc, show UInt64.ofNat 0 = 0 from rfl,
        UInt64.add_zero] at this
    rw [List.length_cons, storeBytes, loadBytes, hhead, ih _ _ (by omega)]

/-- A byte that was just stored. -/
theorem load_storeBytes (m : Memory) (a : UInt64) {bs : List UInt8}
    (h : bs.length ≤ 2 ^ 64) {k : Nat} (hk : k < bs.length) :
    (m.storeBytes a bs).load (a + UInt64.ofNat k) = bs[k] := by
  have hback := congrArg (·[k]?) (loadBytes_storeBytes m a h)
  simpa only [getElem?_loadBytes _ _ hk, List.getElem?_eq_getElem hk, Option.some.injEq] using hback

variable (m : Memory) (a : UInt64) {n : Nat} (v : UInt64)

/-- The word that was just stored. -/
theorem word_setWord (h : n ≤ 8) :
    (m.setWord a n v).word a n = UInt64.ofNat (v.toNat % 256 ^ n) := by
  have hlen : (LittleEndian.bytes n v.toNat).length ≤ 2 ^ 64 := by
    rw [LittleEndian.length_bytes]
    omega
  have hback := loadBytes_storeBytes m a hlen
  rw [LittleEndian.length_bytes] at hback
  rw [word, setWord, hback, LittleEndian.toUInt64_bytes]

theorem word_setWord_qword : (m.setWord a 8 v).word a 8 = v := by
  have := v.toNat_lt
  rw [word_setWord _ _ _ (Nat.le_refl 8), Nat.mod_eq_of_lt (by omega), UInt64.ofNat_toNat]

/-- A word elsewhere is unchanged. -/
theorem word_setWord_of_ne {a' : UInt64} {k : Nat}
    (h : ∀ i < n, ∀ j < k, a + UInt64.ofNat i ≠ a' + UInt64.ofNat j) :
    (m.setWord a n v).word a' k = m.word a' k := by
  rw [word, setWord, loadBytes_storeBytes_of_ne, word]
  rw [LittleEndian.length_bytes]
  exact h

end Memory

end BlockVM
