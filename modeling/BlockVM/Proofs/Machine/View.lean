import BlockVM.Machine.Native
import BlockVM.Proofs.Machine.FileBytes
import BlockVM.Proofs.Memory.Access
import BlockVM.Proofs.Memory.Mapping
import BlockVM.Proofs.X86.Straight

/-!
# What a block can reach

The memory of a block has four kinds of addresses: the register file, the machine code, the
processor's stack and the bytes of the arenas. Where these do not overlap (`Apart`), a run of bytes
that lies in one of them is loaded from and stored to that part, and the other parts stay as they
are.
-/

namespace BlockVM.Native

namespace Region

def Disjoint (r r' : Region) : Prop := ∀ a, r.has a = true → r'.has a = false

def usable (x : Arena) : Region := ⟨x.base, x.size⟩

theorem has_add {r : Region} {k : Nat} (hk : k < r.size) (hsize : r.size ≤ 2 ^ 64) :
    r.has (r.base + UInt64.ofNat k) = true := by
  have h64 : k < 2 ^ 64 := by omega
  have hsub : r.base + UInt64.ofNat k - r.base = UInt64.ofNat k := by
    rw [UInt64.add_comm, UInt64.add_sub_cancel]
  rw [has, hsub, UInt64.toNat_ofNat_of_lt' h64]
  exact decide_eq_true hk

/-- Regions of which one ends before the other begins do not meet. -/
theorem disjoint_of_below {r r' : Region} (h : r.base.toNat + r.size ≤ r'.base.toNat)
    (h' : r'.base.toNat + r'.size ≤ 2 ^ 64) : r.Disjoint r' ∧ r'.Disjoint r := by
  have apart : ∀ a : UInt64, ¬ ((a - r.base).toNat < r.size ∧ (a - r'.base).toNat < r'.size) := by
    rintro a ⟨hr, hr'⟩
    rw [UInt64.toNat_sub] at hr hr'
    omega
  constructor
  · intro a ha
    exact decide_eq_false fun ha' => apart a ⟨of_decide_eq_true ha, ha'⟩
  · intro a ha
    exact decide_eq_false fun ha' => apart a ⟨ha', of_decide_eq_true ha⟩

end Region

/-- The parts of the memory of a block do not overlap. -/
structure Placement.Apart (p : Placement) (codeSize : Nat) (arenas : List Arena) : Prop where
  code_file : (p.codeRegion codeSize).Disjoint p.fileRegion
  stack_file : p.stackRegion.Disjoint p.fileRegion
  stack_code : p.stackRegion.Disjoint (p.codeRegion codeSize)
  arena_file : ∀ x ∈ arenas, (Region.usable x).Disjoint p.fileRegion
  arena_code : ∀ x ∈ arenas, (Region.usable x).Disjoint (p.codeRegion codeSize)
  arena_stack : ∀ x ∈ arenas, (Region.usable x).Disjoint p.stackRegion

namespace View

variable (v : View)

/-! ## The register file -/

theorem file_offset (p : Placement) {off : Nat} (h : off < 3080) :
    p.fileRegion.has (p.file + UInt64.ofNat off) = true ∧
      (p.file + UInt64.ofNat off - p.file).toNat = off := by
  refine ⟨Region.has_add (r := p.fileRegion) h (by show 3080 ≤ 2 ^ 64; decide), ?_⟩
  rw [UInt64.add_comm, UInt64.add_sub_cancel, UInt64.toNat_ofNat_of_lt' (by
    show off < 2 ^ 64
    omega)]

theorem add_succ (a : UInt64) (k : Nat) : a + UInt64.ofNat k + 1 = a + UInt64.ofNat (k + 1) := by
  rw [UInt64.ofNat_add, ← UInt64.add_assoc]
  rfl

/-- In the region of the file a view shows the registers. -/
theorem loadBytes_file {off n : Nat} (h : off + n ≤ 3080) :
    X86.loadBytes v n (v.place.file + UInt64.ofNat off) = some (v.regs.fileBytes off n) := by
  induction n generalizing off with
  | zero => rfl
  | succ n ih =>
    obtain ⟨hin, hoff⟩ := file_offset v.place (show off < 3080 by omega)
    have hbyte : v.load (v.place.file + UInt64.ofNat off) = some (v.regs.byteAt off) := by
      rw [load, if_pos hin, hoff]
    show (v.load _).bind _ = _
    rw [hbyte, Option.bind_some, add_succ, ih (by omega)]
    rfl

theorem storeBytes_file {off : Nat} {bs : List UInt8} (h : off + bs.length ≤ 3080) :
    X86.storeBytes v (v.place.file + UInt64.ofNat off) bs =
      some { v with regs := v.regs.setFileBytes off bs } := by
  induction bs generalizing v off with
  | nil => rfl
  | cons b bs ih =>
    rw [List.length_cons] at h
    obtain ⟨hin, hoff⟩ := file_offset v.place (show off < 3080 by omega)
    have hbyte : v.store (v.place.file + UInt64.ofNat off) b
        = some { v with regs := v.regs.setByteAt off b } := by
      rw [store, if_pos hin, hoff]
    show (v.store _ _).bind _ = _
    rw [hbyte, Option.bind_some, add_succ]
    exact ih { v with regs := v.regs.setByteAt off b } (by omega)

/-! ## The processor's stack -/

/-- The address belongs to the processor's stack. -/
structure IsScratch (a : UInt64) : Prop where
  file : v.place.fileRegion.has a = false
  code : (v.place.codeRegion v.code.size).has a = false
  stack : v.place.stackRegion.has a = true

variable {v}

/-- In the scratch region a view shows the processor's own stack. -/
theorem loadBytes_scratch {n : Nat} {a : UInt64} (h : ∀ k < n, v.IsScratch (a + UInt64.ofNat k)) :
    X86.loadBytes v n a = some (v.scratch.loadBytes a n) := by
  induction n generalizing a with
  | zero => rfl
  | succ n ih =>
    have ha : v.IsScratch a := by simpa using h 0 (by omega)
    have hbyte : v.load a = some (v.scratch.load a) := by
      simp [load, ha.file, ha.code, ha.stack]
    show (v.load _).bind _ = _
    rw [hbyte, Option.bind_some, ih]
    · rfl
    · intro k hk
      have := h (k + 1) (by omega)
      rwa [Nat.add_comm, UInt64.ofNat_add, ← UInt64.add_assoc] at this

theorem storeBytes_scratch {bs : List UInt8} {a : UInt64}
    (h : ∀ k < bs.length, v.IsScratch (a + UInt64.ofNat k)) :
    X86.storeBytes v a bs = some { v with scratch := v.scratch.storeBytes a bs } := by
  induction bs generalizing v a with
  | nil => rfl
  | cons b bs ih =>
    have ha : v.IsScratch a := by simpa using h 0 (by simp)
    have hbyte : v.store a b = some { v with scratch := v.scratch.store a b } := by
      simp [store, ha.file, ha.code, ha.stack]
    show (v.store _ _).bind _ = _
    rw [hbyte, Option.bind_some]
    refine ih (v := { v with scratch := v.scratch.store a b }) ?_
    intro k hk
    have := h (k + 1) (by simpa using hk)
    rw [Nat.add_comm, UInt64.ofNat_add, ← UInt64.add_assoc] at this
    exact ⟨this.file, this.code, this.stack⟩

/-! ## The arenas -/

variable (v)

/-- The address is that of a byte of an arena. -/
structure IsData (a : UInt64) : Prop where
  file : v.place.fileRegion.has a = false
  code : (v.place.codeRegion v.code.size).has a = false
  stack : v.place.stackRegion.has a = false
  mapped : v.isMapped a = true

variable {v}

/-- In a data region a view shows the memory of the machine. -/
theorem loadBytes_data {n : Nat} {a : UInt64} (h : ∀ k < n, v.IsData (a + UInt64.ofNat k)) :
    X86.loadBytes v n a = some (v.memory.loadBytes a n) := by
  induction n generalizing a with
  | zero => rfl
  | succ n ih =>
    have ha : v.IsData a := by simpa using h 0 (by omega)
    have hbyte : v.load a = some (v.memory.load a) := by
      simp [load, ha.file, ha.code, ha.stack, ha.mapped]
    show (v.load _).bind _ = _
    rw [hbyte, Option.bind_some, ih]
    · rfl
    · intro k hk
      have := h (k + 1) (by omega)
      rwa [Nat.add_comm, UInt64.ofNat_add, ← UInt64.add_assoc] at this

theorem storeBytes_data {bs : List UInt8} {a : UInt64}
    (h : ∀ k < bs.length, v.IsData (a + UInt64.ofNat k)) :
    X86.storeBytes v a bs = some { v with memory := v.memory.storeBytes a bs } := by
  induction bs generalizing v a with
  | nil => rfl
  | cons b bs ih =>
    have ha : v.IsData a := by simpa using h 0 (by simp)
    have hbyte : v.store a b = some { v with memory := v.memory.store a b } := by
      simp [store, ha.file, ha.code, ha.stack, ha.mapped]
    show (v.store _ _).bind _ = _
    rw [hbyte, Option.bind_some]
    refine ih (v := { v with memory := v.memory.store a b }) ?_
    intro k hk
    have := h (k + 1) (by simpa using hk)
    rw [Nat.add_comm, UInt64.ofNat_add, ← UInt64.add_assoc] at this
    exact ⟨this.file, this.code, this.stack, this.mapped⟩

/-- An arena whose bytes machine code can access: its pages hold all of them. -/
structure Backed (x : Arena) : Prop extends x.Mapped where
  pages : x.size ≤ x.mapped

/-- A valid range of an arena consists of bytes that may be accessed. -/
theorem usable_of_within {x : Arena} {off n : Int64} (hs : x.size < 2 ^ 63) (h : x.Within off n)
    {k : Nat} (hk : k < n.toNatClampNeg) :
    (Region.usable x).has (x.base + off.toUInt64 + UInt64.ofNat k) = true := by
  have hoff := toNat_toUInt64_of_nonneg h.start
  have hn : (n.toNatClampNeg : Int) = n.toInt := Int.toNat_of_nonneg h.length
  have hstop := h.stop
  have hk64 : (UInt64.ofNat k).toNat = k := UInt64.toNat_ofNat_of_lt' (by
    show k < 2 ^ 64
    omega)
  have hsub : x.base + off.toUInt64 + UInt64.ofNat k - x.base = off.toUInt64 + UInt64.ofNat k := by
    rw [UInt64.add_assoc, UInt64.add_comm, UInt64.add_sub_cancel]
  show decide ((x.base + off.toUInt64 + UInt64.ofNat k - x.base).toNat < x.size) = true
  rw [hsub, UInt64.toNat_add, hk64]
  exact decide_eq_true (by omega)

section
variable {x : Arena} {off n : Int64} (apart : v.place.Apart v.code.size v.arenas)
  (hx : x ∈ v.arenas) (backed : Backed x)
include apart hx backed

theorem isData_of_usable {a : UInt64} (h : (Region.usable x).has a = true) : v.IsData a := by
  refine ⟨apart.arena_file x hx a h, apart.arena_code x hx a h, apart.arena_stack x hx a h, ?_⟩
  refine List.any_eq_true.mpr ⟨x, hx, ?_⟩
  have := of_decide_eq_true h
  have := backed.pages
  exact decide_eq_true (by
    show (a - x.base).toNat < x.mapped
    simp only [Region.usable] at *
    omega)

theorem loadWord_within (h : x.Within off n) :
    X86.loadWord v n.toNatClampNeg (x.base + off.toUInt64) =
      some (v.memory.word (x.base + off.toUInt64) n.toNatClampNeg) := by
  rw [X86.loadWord, loadBytes_data]
  · rfl
  · intro k hk
    exact isData_of_usable apart hx backed (usable_of_within backed.size_lt h hk)

theorem storeWord_within (h : x.Within off n) (u : UInt64) :
    X86.storeWord v n.toNatClampNeg (x.base + off.toUInt64) u =
      some { v with memory := v.memory.setWord (x.base + off.toUInt64) n.toNatClampNeg u } := by
  rw [X86.storeWord, storeBytes_data]
  · rfl
  · intro k hk
    rw [LittleEndian.length_bytes] at hk
    exact isData_of_usable apart hx backed (usable_of_within backed.size_lt h hk)

end

/-! ## The machine code -/

/-- Stores change neither the machine code nor where anything is. -/
theorem store_keeps {v v' : View} {a : UInt64} {b : UInt8} (h : v.store a b = some v') :
    v'.code = v.code ∧ v'.place = v.place := by
  unfold store at h
  split at h
  · cases h
    exact ⟨rfl, rfl⟩
  · split at h
    · cases h
    · split at h
      · cases h
        exact ⟨rfl, rfl⟩
      · split at h <;> cases h
        exact ⟨rfl, rfl⟩

/-- The code of a block can be fetched from where it lies. -/
theorem holds_code (h : (v.place.codeRegion v.code.size).Disjoint v.place.fileRegion)
    (hsize : v.code.size ≤ 2 ^ 64) : X86.Holds v v.place.code v.code.toList := by
  -- From the end of the code to its start: the bytes from each offset on are held.
  have key : ∀ (n off : Nat), off + n = v.code.size →
      X86.Holds v (v.place.code + UInt64.ofNat off) (v.code.toList.drop off) := by
    intro n
    induction n with
    | zero =>
      intro off hoff
      rw [List.drop_of_length_le (by simp; omega)]
      trivial
    | succ n ih =>
      intro off hoff
      have hlt : off < v.code.size := by omega
      have hin : (v.place.codeRegion v.code.size).has (v.place.code + UInt64.ofNat off) = true :=
        Region.has_add (r := v.place.codeRegion v.code.size) hlt hsize
      have hdist : (v.place.code + UInt64.ofNat off - v.place.code).toNat = off := by
        rw [UInt64.add_comm, UInt64.add_sub_cancel, UInt64.toNat_ofNat_of_lt' (by
          show off < 2 ^ 64
          omega)]
      rw [List.drop_eq_getElem_cons (by simpa using hlt)]
      refine ⟨?_, ?_⟩
      · show v.load _ = _
        simp only [load, h _ hin, hin, hdist, if_true, if_false, Bool.false_eq_true]
        exact Array.getElem?_eq_getElem hlt
      · rw [add_succ]
        exact ih (off + 1) (by omega)
  simpa using key v.code.size 0 (by omega)

/-- A part of the machine code that is that of valid instructions, with control ending elsewhere. -/
theorem loaded_within {p : Placement} {code : Array UInt8} {pre post : List UInt8}
    {is : List X86.Inst} (hcode : code.toList = pre ++ X86.encodeAll is ++ post)
    (hvalid : ∀ i ∈ is, i.Valid) (hsize : code.size ≤ 2 ^ 64)
    (hfile : (p.codeRegion code.size).Disjoint p.fileRegion)
    (hreturn : (p.codeRegion code.size).has p.returnAddress = false) :
    X86.Loaded (fun v : View => v.code = code ∧ v.place = p) (p.code + UInt64.ofNat pre.length)
      p.returnAddress is := by
  constructor
  case keep =>
    rintro v a b v' h ⟨rfl, rfl⟩
    exact store_keeps h
  case holds =>
    rintro v ⟨rfl, rfl⟩
    have h := holds_code hfile hsize
    rw [hcode] at h
    exact h.append.1.append.2
  case valid => exact hvalid
  -- The return address is not in the code, so no instruction of it is reached by accident.
  case away =>
    intro k hk heq
    have hlength := congrArg List.length hcode
    simp only [Array.length_toList, List.length_append] at hlength
    have hin := Region.has_add (r := p.codeRegion code.size) (k := pre.length + k) (by
      show pre.length + k < code.size
      omega) hsize
    rw [show (p.codeRegion code.size).base = p.code from rfl, UInt64.ofNat_add, ← UInt64.add_assoc,
      heq, hreturn] at hin
    cases hin

/-- A block whose machine code starts with that of valid instructions, with control ending
elsewhere. -/
theorem loaded {p : Placement} {code : Array UInt8} {post : List UInt8} {is : List X86.Inst}
    (hcode : code.toList = X86.encodeAll is ++ post) (hvalid : ∀ i ∈ is, i.Valid)
    (hsize : code.size ≤ 2 ^ 64) (hfile : (p.codeRegion code.size).Disjoint p.fileRegion)
    (hreturn : (p.codeRegion code.size).has p.returnAddress = false) :
    X86.Loaded (fun v : View => v.code = code ∧ v.place = p) p.code p.returnAddress is := by
  have l :=
    loaded_within (show code.toList = [] ++ X86.encodeAll is ++ post from hcode) hvalid hsize
    hfile hreturn
  rwa [List.length_nil, show UInt64.ofNat 0 = 0 from rfl, UInt64.add_zero] at l

end View

end BlockVM.Native
