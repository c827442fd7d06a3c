import BlockVM.Proofs.Bytes.History
import BlockVM.Proofs.Memory.Bounds

/-!
# Arenas as byte memories

`stored?` says over the integers which requests an arena grants and what it then stores; all others
leave it as it is. `read_serve` is the law of its contents: after any requests, granted or not, a
read gives the number that the bytes stored last stand for, however the stores overlap.
-/

namespace BlockVM.Arena

open Bytes (Stored latest number widths)

/-- A store that an arena is asked for. -/
inductive Request where
  | word (off n : Int64) (v : UInt64)
  | float (off : Int64) (bits : UInt32)
deriving DecidableEq, Repr

def Request.perform (a : Arena) (m : Memory) : Request → Except Stop Memory
  | word off n v => a.write m off n v
  | float off bits => a.writeFloat m off bits

/-- The memory after a request. One that fails gives no new memory. -/
def serve (a : Arena) (m : Memory) (r : Request) : Memory := (r.perform a m).toOption.getD m

/-- What a store of `n` bytes leaves behind, if there is such a width and the bytes lie inside. -/
def granted (a : Arena) (off n : Int) (v : Nat) : Option Stored :=
  if n ∈ widths ∧ 0 ≤ off ∧ off + n ≤ a.size then some ⟨off.toNat, n.toNat, v⟩ else none

def Request.stored? (a : Arena) : Request → Option Stored
  | word off n v => a.granted off.toInt n.toInt v.toNat
  | float off bits => a.granted off.toInt 4 bits.toNat

def byte (a : Arena) (m : Memory) (i : Nat) : UInt8 := (a.bytes m).getD i 0

variable {a : Arena} {m : Memory} {off n : Int64} {v : UInt64} {i : Nat}

/-- A byte of an arena is one of the memory behind its base. -/
theorem byte_eq (hi : i < a.size) : a.byte m i = m.load (a.base + UInt64.ofNat i) := by
  rw [byte, bytes, List.getD_eq_getElem?_getD, Memory.getElem?_loadBytes _ _ hi, Option.getD_some]

theorem nonneg_of_mem_widths (h : n.toInt ∈ widths) : 0 ≤ n.toInt := by
  simp only [widths, List.mem_cons, List.not_mem_nil, or_false] at h
  omega

theorem le_eight_of_mem_widths (h : n.toInt ∈ widths) : n.toNatClampNeg ≤ 8 := by
  simp only [widths, List.mem_cons, List.not_mem_nil, or_false] at h
  show n.toInt.toNat ≤ 8
  omega

theorem isWidth_iff : isWidth n = true ↔ n.toInt ∈ widths := by
  simp only [isWidth, widths, Bool.or_eq_true, beq_iff_eq, List.mem_cons,
    List.not_mem_nil, or_false, ← Int64.toInt_inj, or_assoc]
  rfl

/-- A number that is stored inside an arena changes the bytes that it reaches. -/
theorem byte_setWord (hsize : a.size < 2 ^ 63) (h : a.Within off n) (hi : i < a.size) :
    a.byte (m.setWord (a.base + off.toUInt64) n.toNatClampNeg v) i =
      (Stored.byte? ⟨off.toNatClampNeg, n.toNatClampNeg, v.toNat⟩ i).getD (a.byte m i) := by
  have hinside := h.fits
  rw [byte_eq hi, byte_eq hi, h.toUInt64_start, Memory.setWord]
  -- The byte is one of those that the store reaches, or its address is another one.
  by_cases hreach : off.toNatClampNeg ≤ i ∧ i < off.toNatClampNeg + n.toNatClampNeg
  · obtain ⟨k, rfl⟩ := Nat.exists_eq_add_of_le hreach.1
    have hk : k < (LittleEndian.bytes n.toNatClampNeg v.toNat).length := by
      rw [LittleEndian.length_bytes]
      omega
    rw [UInt64.ofNat_add, ← UInt64.add_assoc, Memory.load_storeBytes _ _ _ hk,
      LittleEndian.getElem_bytes, Stored.byte?, if_pos hreach, Option.getD_some,
      Nat.add_sub_cancel_left]
    rw [LittleEndian.length_bytes]
    omega
  · rw [Stored.byte?, if_neg hreach, Option.getD_none]
    apply Memory.load_storeBytes_of_ne
    intro k hk
    rw [LittleEndian.length_bytes] at hk
    rw [UInt64.add_assoc, ← UInt64.ofNat_add]
    exact Memory.add_ofNat_ne (by omega) (by omega) (by omega)

/-- A store that succeeds is one that the arena grants. -/
theorem granted_of_write {m' : Memory} (hsize : a.size < 2 ^ 63) (h : a.write m off n v = .ok m') :
    n.toInt ∈ widths ∧ 0 ≤ off.toInt ∧ off.toInt + n.toInt ≤ a.size := by
  obtain ⟨hwithin, -⟩ := write_eq_ok hsize h
  refine ⟨isWidth_iff.mp ?_, hwithin.start, hwithin.stop⟩
  rw [write, locate_of_within hsize hwithin] at h
  simp only [bind, Except.bind] at h
  split at h
  next hwidth => exact hwidth
  · cases h

/-- A write that is granted stores the low bytes of its value. -/
theorem write_of_granted (hsize : a.size < 2 ^ 63)
    (h : n.toInt ∈ widths ∧ 0 ≤ off.toInt ∧ off.toInt + n.toInt ≤ a.size) :
    a.Within off n ∧
      a.write m off n v = .ok (m.setWord (a.base + off.toUInt64) n.toNatClampNeg v) := by
  obtain ⟨hwidth, hstart, hstop⟩ := h
  have hwithin : a.Within off n := ⟨hstart, nonneg_of_mem_widths hwidth, hstop⟩
  exact ⟨hwithin, write_of_within hsize hwithin (isWidth_iff.mpr hwidth)⟩

/-! ## Requests -/

/-- What becomes of a request: it fails exactly if nothing is granted, and then changes nothing; one
that succeeds stores what is granted. -/
structure Served (a : Arena) (m : Memory) (r : Request) : Prop where
  fails : (∃ e, r.perform a m = .error e) ↔ r.stored? a = none
  unchanged : r.stored? a = none → a.serve m r = m
  bytes : ∀ i < a.size,
    a.byte (a.serve m r) i = ((r.stored? a).bind (·.byte? i)).getD (a.byte m i)

theorem served_word (hsize : a.size < 2 ^ 63) (off n : Int64) (v : UInt64) :
    Served a m (.word off n v) := by
  -- A request is granted exactly when its width is one of the four and its bytes lie in the arena.
  by_cases h : n.toInt ∈ widths ∧ 0 ≤ off.toInt ∧ off.toInt + n.toInt ≤ a.size
  · obtain ⟨hwithin, hwrite⟩ := write_of_granted (m := m) (v := v) hsize h
    have hstored : (Request.word off n v).stored? a =
        some ⟨off.toNatClampNeg, n.toNatClampNeg, v.toNat⟩ := if_pos h
    have hperform : (Request.word off n v).perform a m = _ := hwrite
    refine ⟨?_, fun h => ?_, fun i hi => ?_⟩
    · rw [hperform, hstored]
      exact ⟨nofun, nofun⟩
    · rw [hstored] at h
      cases h
    · rw [serve, hperform, hstored]
      exact byte_setWord hsize hwithin hi
  · have hstored : (Request.word off n v).stored? a = none := if_neg h
    cases hwrite : a.write m off n v with
    | ok m' => exact absurd (granted_of_write hsize hwrite) h
    | error e =>
      have hperform : (Request.word off n v).perform a m = .error e := hwrite
      have hserve : a.serve m (.word off n v) = m := by
        rw [serve, hperform]
        rfl
      refine ⟨⟨fun _ => hstored, fun _ => ⟨e, hperform⟩⟩, fun _ => hserve, fun i _ => ?_⟩
      rw [hserve, hstored]
      rfl

/-- A float is stored as the word of its bits. -/
theorem served (hsize : a.size < 2 ^ 63) (r : Request) : Served a m r := by
  cases r with
  | word off n v => exact served_word hsize off n v
  | float off bits =>
    have hstored : (Request.float off bits).stored? a =
        (Request.word off 4 bits.toUInt64).stored? a := by
      rw [Request.stored?, Request.stored?, UInt32.toNat_toUInt64]
      rfl
    obtain ⟨fails, unchanged, bytes⟩ := served_word (m := m) hsize off 4 bits.toUInt64
    rw [← hstored] at fails unchanged bytes
    exact ⟨fails, unchanged, bytes⟩

/-- What an arena holds follows what is stored in it. -/
theorem follows (hsize : a.size < 2 ^ 63) :
    Bytes.Follows a.size a.byte a.serve (·.stored? a) (fun _ => True) (fun _ => True) where
  keeps _ _ := trivial
  bytes _ _ := (served hsize _).bytes

/-- A read inside gives the number that its bytes stand for. -/
theorem read_eq_number (hsize : a.size < 2 ^ 63) (hwidth : n.toInt ∈ widths)
    (hwithin : a.Within off n) :
    ∃ v, a.read m off n = .ok v ∧
    v.toNat = number (a.byte m) off.toNatClampNeg n.toNatClampNeg := by
  refine ⟨_, read_of_within hsize hwithin (isWidth_iff.mpr hwidth), ?_⟩
  have hinside := hwithin.fits
  have hn : n.toNatClampNeg ≤ 8 := le_eight_of_mem_widths hwidth
  have hbytes : m.loadBytes (a.base + off.toUInt64) n.toNatClampNeg =
      (List.range n.toNatClampNeg).map fun k => a.byte m (off.toNatClampNeg + k) := by
    rw [Memory.loadBytes_eq_map, hwithin.toUInt64_start]
    apply List.map_congr_left
    intro k hk
    have hk := List.mem_range.mp hk
    rw [byte_eq (by omega), UInt64.ofNat_add, UInt64.add_assoc]
  rw [Memory.word, hbytes]
  exact Bytes.toNat_toUInt64_run _ _ hn

/-- After any requests, a read inside gives the number that the bytes stored last stand for. -/
theorem read_serve (hsize : a.size < 2 ^ 63) (rs : List Request) (hwidth : n.toInt ∈ widths)
    (hwithin : a.Within off n) :
    ∃ v, a.read (rs.foldl a.serve m) off n = .ok v ∧
      v.toNat = number (latest (a.byte m) (rs.filterMap (·.stored? a))) off.toNatClampNeg
        n.toNatClampNeg := by
  obtain ⟨v, hread, hv⟩ := read_eq_number (m := rs.foldl a.serve m) hsize hwidth hwithin
  exact ⟨v, hread, hv.trans ((follows hsize).number trivial (fun _ _ => trivial) hwithin.fits)⟩

end BlockVM.Arena
