import BlockVM.Command.Pack
import BlockVM.Proofs.Isa.RoundTrip
import BlockVM.Proofs.Numeric.Signed
import BlockVM.Proofs.Result

/-!
# Decoding at every address

The checks of `peek` and `decode` are sums of signed words. Here the answer is stated over the
integers: `HasOpcode` says that two bytes of an opcode stand at an address, `Names` that the table
knows it. Wherever the sums stay in range (`InRange`), an instruction is decoded, an opcode is
called unknown or the code is called too short exactly as the integers say. Where one of them wraps,
the check lets the address pass and the read behind it aborts.

The start of the code that `pack` is given goes through `peek`, so no start outside the code ends up
in an image.
-/

namespace BlockVM.Isa

open LittleEndian

/-! ## What stands at an address -/

/-- The two bytes of `op` stand at `pc`, low byte first. -/
structure HasOpcode (code : Array UInt8) (pc : Int) (op : UInt16) : Prop where
  nonneg : 0 ≤ pc
  inside : pc + opcodeSize ≤ code.size
  low : code[pc.toNat]? = some (UInt8.ofNat op.toNat)
  high : code[pc.toNat + 1]? = some (UInt8.ofNat (op.toNat / 256))

/-- The opcode at `pc` is in the table, with this description. -/
def Names (code : Array UInt8) (pc : Int) (info : Info) : Prop :=
  ∃ op, HasOpcode code pc op ∧ lookup op = some info

/-- The two bytes at `pc` are no opcode of the table. -/
def Unknown (code : Array UInt8) (pc : Int) : Prop :=
  ∃ op, HasOpcode code pc op ∧ lookup op = none

/-- An instruction stands at `pc` with all of its operands. -/
def Holds (code : Array UInt8) (pc : Int) (info : Info) : Prop :=
  Names code pc info ∧ pc + info.length ≤ code.size

/-- The sums that decoding at `pc` compares with the size of the code are addresses. -/
structure InRange (code : Array UInt8) (pc : Int64) : Prop where
  opcode : pc.toInt + opcodeSize < 2 ^ 63
  operands : ∀ info, Names code pc.toInt info → pc.toInt + info.length < 2 ^ 63

def FaultsAt {α : Type} (kind : FaultKind) (pc : Int64) (r : Except Stop α) : Prop :=
  ∃ text, r = .error (.fault kind pc text)

/-- Two bytes determine their opcode. -/
theorem HasOpcode.unique {code : Array UInt8} {pc : Int} {op op' : UInt16}
    (h : HasOpcode code pc op) (h' : HasOpcode code pc op') : op = op' := by
  have hlow := congrArg UInt8.toNat (Option.some.inj (h.low.symm.trans h'.low))
  have hhigh := congrArg UInt8.toNat (Option.some.inj (h.high.symm.trans h'.high))
  rw [UInt8.toNat_ofNat', UInt8.toNat_ofNat'] at hlow hhigh
  apply UInt16.toNat_inj.mp
  have h₁ := op.toNat_lt
  have h₂ := op'.toNat_lt
  omega

theorem Names.unique {code : Array UInt8} {pc : Int} {info info' : Info}
    (h : Names code pc info) (h' : Names code pc info') : info = info' := by
  obtain ⟨op, hop, hinfo⟩ := h
  obtain ⟨op', hop', hinfo'⟩ := h'
  rw [hop.unique hop'] at hinfo
  exact Option.some.inj (hinfo.symm.trans hinfo')

/-- An opcode is in the table or not. -/
theorem Names.not_unknown {code : Array UInt8} {pc : Int} {info : Info} (h : Names code pc info) :
    ¬ Unknown code pc := by
  obtain ⟨op, hop, hinfo⟩ := h
  rintro ⟨op', hop', hnone⟩
  rw [hop.unique hop', hnone] at hinfo
  cases hinfo

/-! ## The opcode -/

variable {code : Array UInt8} {pc : Int64} {info : Info}

theorem window_two {n : Nat} (h : n + 1 < code.size) :
    window code n opcodeSize = [code[n], code[n + 1]] := by
  have hfirst : n < code.toList.length := by
    rw [Array.length_toList]
    omega
  have hsecond : n + 1 < code.toList.length := by rwa [Array.length_toList]
  rw [window_eq, List.drop_eq_getElem_cons hfirst, List.drop_eq_getElem_cons hsecond]
  rfl

/-- Two bytes, as the opcode that they are. -/
theorem hasOpcode_value {n : Nat} (h : n + 1 < code.size) :
    HasOpcode code n (value [code[n], code[n + 1]]).toUInt16 := by
  have hvalue : (value [code[n], code[n + 1]]).toUInt16.toNat =
      code[n].toNat + 256 * code[n + 1].toNat := by
    have h₁ := code[n].toNat_lt
    have h₂ := code[n + 1].toNat_lt
    rw [Nat.toUInt16_eq, UInt16.toNat_ofNat']
    simp only [value]
    omega
  have h₁ := code[n].toNat_lt
  refine ⟨Int.natCast_nonneg n, ?_, ?_, ?_⟩
  · simp only [opcodeSize]
    omega
  · rw [Int.toNat_natCast, Array.getElem?_eq_getElem (by omega), hvalue]
    congr 1
    apply UInt8.toNat_inj.mp
    rw [UInt8.toNat_ofNat']
    omega
  · rw [Int.toNat_natCast, Array.getElem?_eq_getElem h, hvalue]
    congr 1
    apply UInt8.toNat_inj.mp
    rw [UInt8.toNat_ofNat']
    have h₂ := code[n + 1].toNat_lt
    omega

/-- Every address with two bytes has an opcode. -/
theorem exists_hasOpcode {pc : Int} (h : 0 ≤ pc) (hin : pc + opcodeSize ≤ code.size) :
    ∃ op, HasOpcode code pc op := by
  obtain ⟨n, rfl⟩ := Int.eq_ofNat_of_zero_le h
  have hread : n + 1 < code.size := by
    simp only [opcodeSize] at hin
    omega
  exact ⟨_, hasOpcode_value hread⟩

/-- An address has a known opcode, an unknown one or none. -/
theorem names_or_unknown_or_none (code : Array UInt8) (pc : Int) :
    (∃ info, Names code pc info) ∨ Unknown code pc ∨ ¬ (0 ≤ pc ∧ pc + opcodeSize ≤ code.size) := by
  by_cases hin : 0 ≤ pc ∧ pc + opcodeSize ≤ code.size
  · obtain ⟨op, hop⟩ := exists_hasOpcode hin.1 hin.2
    cases hinfo : lookup op with
    | none => exact .inr (.inl ⟨op, hop, hinfo⟩)
    | some info => exact .inl ⟨info, op, hop, hinfo⟩
  · exact .inr (.inr hin)

/-- An opcode that names an instruction lies in the code. -/
theorem Names.bounds {pc : Int} (h : Names code pc info) :
    0 ≤ pc ∧ pc + opcodeSize ≤ code.size := by
  obtain ⟨op, hop, -⟩ := h
  exact ⟨hop.nonneg, hop.inside⟩

theorem Unknown.bounds {pc : Int} (h : Unknown code pc) : 0 ≤ pc ∧ pc + opcodeSize ≤ code.size := by
  obtain ⟨op, hop, -⟩ := h
  exact ⟨hop.nonneg, hop.inside⟩

theorem toInt_opcodeSize : (Int64.ofNat opcodeSize).toInt = opcodeSize := by decide

/-- The table ends. -/
theorem lookup_eq_none {op : UInt16} (h : definitions.length ≤ op.toNat) : lookup op = none := by
  rw [lookup, table, List.getElem?_toArray, List.getElem?_mapIdx, List.getElem?_eq_none h]
  rfl

/-- What `peek` finds is named at its address, in code of any size. -/
theorem names_of_peek (h : peek code pc = .ok info) : Names code pc.toInt info := by
  obtain ⟨hnonneg, hinside, -⟩ := peek_eq_ok h
  have hpos : (pc.toNatClampNeg : Int) = pc.toInt :=
    Int.toNat_of_nonneg (toInt_nonneg_iff.mp hnonneg)
  have hread : pc.toNatClampNeg + 1 < code.size := hinside
  have hop := hasOpcode_value hread
  rw [hpos] at hop
  unfold peek at h
  split at h
  · cases h
  · rw [window_two hread] at h
    exact ⟨_, hop, lookup_of_entry h⟩

/-- Inside the code the opcode is looked up in the table. -/
theorem peek_of_hasOpcode {op : UInt16} (hsize : code.size < 2 ^ 63)
    (h : HasOpcode code pc.toInt op) : peek code pc = entry pc op := by
  have hin := h.inside
  have hnonneg := h.nonneg
  have hsum : (pc + Int64.ofNat opcodeSize).toInt = pc.toInt + opcodeSize := by
    rw [toInt_add_of_bounds, toInt_opcodeSize] <;> rw [toInt_opcodeSize] <;> omega
  have hcheck : ¬ (pc < 0 ∨ Int64.ofNat code.size < pc + Int64.ofNat opcodeSize) := by
    rw [toInt_neg_iff, Int64.lt_iff_toInt_lt, hsum, Int64.toInt_ofNat_of_lt hsize]
    omega
  have hpos : (pc.toNatClampNeg : Int) = pc.toInt := Int.toNat_of_nonneg hnonneg
  have hread : pc.toNatClampNeg + 1 < code.size := by
    simp only [opcodeSize] at hin
    omega
  have hop := hasOpcode_value hread
  rw [hpos] at hop
  rw [peek, if_neg hcheck, window_two hread]
  exact congrArg (entry pc) (hop.unique h)

theorem peek_of_names (hsize : code.size < 2 ^ 63) (h : Names code pc.toInt info) :
    peek code pc = .ok info := by
  obtain ⟨op, hop, hinfo⟩ := h
  rw [peek_of_hasOpcode hsize hop, entry, hinfo]
  rfl

theorem peek_of_unknown (hsize : code.size < 2 ^ 63) (h : Unknown code pc.toInt) :
    FaultsAt .invalidOpcode pc (peek code pc) := by
  obtain ⟨op, hop, hnone⟩ := h
  rw [peek_of_hasOpcode hsize hop, entry, hnone]
  exact ⟨_, rfl⟩

/-- Outside the code there is a fault of the bounds, unless the end of the opcode is no word. -/
theorem peek_of_outside (hsize : code.size < 2 ^ 63) (hrange : pc.toInt + opcodeSize < 2 ^ 63)
    (h : ¬ (0 ≤ pc.toInt ∧ pc.toInt + opcodeSize ≤ code.size)) :
    FaultsAt .codeBounds pc (peek code pc) := by
  have hcheck : pc < 0 ∨ Int64.ofNat code.size < pc + Int64.ofNat opcodeSize := by
    by_cases hneg : pc.toInt < 0
    · exact .inl (toInt_neg_iff.mpr hneg)
    · have hsum : (pc + Int64.ofNat opcodeSize).toInt = pc.toInt + opcodeSize := by
        rw [toInt_add_of_bounds, toInt_opcodeSize] <;> rw [toInt_opcodeSize] <;> omega
      refine .inr ?_
      rw [Int64.lt_iff_toInt_lt, hsum, Int64.toInt_ofNat_of_lt hsize]
      omega
  rw [peek, if_pos hcheck]
  exact ⟨_, rfl⟩

/-- The sum of two addresses that leaves the range becomes negative, so a check against it
passes. -/
theorem not_size_lt_wrapped {n : Nat} (hn : n < 2 ^ 63) (hsize : code.size < 2 ^ 63)
    (hpc : pc.toInt < 2 ^ 63) (h : 2 ^ 63 ≤ pc.toInt + n) :
    ¬ Int64.ofNat code.size < pc + Int64.ofNat n := by
  have hlength : (Int64.ofNat n).toInt = n := Int64.toInt_ofNat_of_lt hn
  have hwrap : (pc + Int64.ofNat n).toInt = pc.toInt + n - 2 ^ 64 := by
    rw [toInt_add_of_large (by omega), hlength]
  rw [Int64.lt_iff_toInt_lt, hwrap, Int64.toInt_ofNat_of_lt hsize]
  omega

/-- At the last two addresses the check wraps and the read behind it aborts. -/
theorem peek_of_wrapped (hsize : code.size < 2 ^ 63) (h : 2 ^ 63 ≤ pc.toInt + opcodeSize) :
    peek code pc = .error (.abort none) := by
  have hpc := (toInt_bounds pc).2
  simp only [opcodeSize] at h
  have hpos : (pc.toNatClampNeg : Int) = pc.toInt := Int.toNat_of_nonneg (by omega)
  -- The end of the opcode wraps below zero and passes the check, and then the window is too short.
  have hcheck : ¬ (pc < 0 ∨ Int64.ofNat code.size < pc + Int64.ofNat opcodeSize) := by
    refine not_or.mpr ⟨?_, not_size_lt_wrapped (by decide) hsize hpc h⟩
    rw [toInt_neg_iff]
    omega
  have hshort : (window code pc.toNatClampNeg opcodeSize).length < 2 := by
    rw [length_window]
    omega
  rw [peek, if_neg hcheck]
  cases hread : window code pc.toNatClampNeg opcodeSize with
  | nil => rfl
  | cons low rest =>
    cases rest with
    | nil => rfl
    | cons high rest =>
      rw [hread, List.length_cons, List.length_cons] at hshort
      omega

/-! ## The operands -/

theorem decode_of_peek_error {e : Stop} (h : peek code pc = .error e) :
    decode code pc = .error e := by
  rw [decode, h]
  rfl

/-- An instruction has its opcode and no more than 16 bytes in all. -/
theorem length_bounds {pc : Int} (h : Names code pc info) :
    opcodeSize ≤ info.length ∧ info.length ≤ 16 := by
  obtain ⟨op, -, hinfo⟩ := h
  exact ⟨Nat.le_add_right _ _, length_le_of_mem_table (Array.mem_of_getElem? hinfo)⟩

/-- All instructions are shorter than the distance to the last address. -/
theorem inRange_of_lt (h : pc.toInt + 16 < 2 ^ 63) : InRange code pc where
  opcode := by
    simp only [opcodeSize]
    omega
  operands info hinfo := by
    have hlength := (length_bounds hinfo).2
    omega

/-- An instruction that lies in the code with all its operands is decoded. -/
theorem decode_of_holds (hsize : code.size < 2 ^ 63) (h : Holds code pc.toInt info) :
    ∃ i, decode code pc = .ok i ∧ i.pc = pc ∧ i.info = info := by
  obtain ⟨hnames, hinside⟩ := h
  obtain ⟨hnonneg, hop⟩ := hnames.bounds
  obtain ⟨hlow, hhigh⟩ := length_bounds hnames
  have hlength : (Int64.ofNat info.length).toInt = info.length := Int64.toInt_ofNat_of_lt (by omega)
  have hsum : (pc + Int64.ofNat info.length).toInt = pc.toInt + info.length := by
    rw [toInt_add_of_bounds, hlength] <;> rw [hlength] <;> omega
  have hcheck : ¬ Int64.ofNat code.size < pc + Int64.ofNat info.length := by
    rw [Int64.lt_iff_toInt_lt, hsum, Int64.toInt_ofNat_of_lt hsize]
    omega
  have hpos : (pc.toNatClampNeg : Int) = pc.toInt := Int.toNat_of_nonneg hnonneg
  -- Both checks are passed, that of the end and that of the number of bytes left.
  have hfields : ¬ (window code (pc.toNatClampNeg + opcodeSize) (info.length - opcodeSize)).length
      < info.length - opcodeSize := by
    rw [length_window]
    omega
  have hdecode : decode code pc = .ok ⟨pc, info, readOperands info.kinds
      (window code (pc.toNatClampNeg + opcodeSize) (info.length - opcodeSize))⟩ := by
    simp only [decode, peek_of_names hsize hnames, bind, Except.bind, if_neg hcheck, if_neg hfields,
      pure, Except.pure]
  exact ⟨_, hdecode, rfl, rfl⟩

/-- One whose operands run over the end is a fault of the bounds. -/
theorem decode_of_truncated (hsize : code.size < 2 ^ 63) (hnames : Names code pc.toInt info)
    (hrange : pc.toInt + info.length < 2 ^ 63) (h : code.size < pc.toInt + info.length) :
    FaultsAt .codeBounds pc (decode code pc) := by
  obtain ⟨hnonneg, -⟩ := hnames.bounds
  obtain ⟨-, hhigh⟩ := length_bounds hnames
  have hlength : (Int64.ofNat info.length).toInt = info.length := Int64.toInt_ofNat_of_lt (by omega)
  have hsum : (pc + Int64.ofNat info.length).toInt = pc.toInt + info.length := by
    rw [toInt_add_of_bounds, hlength] <;> rw [hlength] <;> omega
  have hcheck : Int64.ofNat code.size < pc + Int64.ofNat info.length := by
    rw [Int64.lt_iff_toInt_lt, hsum, Int64.toInt_ofNat_of_lt hsize]
    omega
  simp only [decode, peek_of_names hsize hnames, bind, Except.bind, if_pos hcheck]
  exact ⟨_, rfl⟩

/-- An instruction that would end beyond the last address has too few bytes, and the check for that
wraps. -/
theorem decode_of_wrapped (hsize : code.size < 2 ^ 63) (hnames : Names code pc.toInt info)
    (h : 2 ^ 63 ≤ pc.toInt + info.length) : decode code pc = .error (.abort none) := by
  obtain ⟨hnonneg, hop⟩ := hnames.bounds
  obtain ⟨hlow, hhigh⟩ := length_bounds hnames
  have hcheck := not_size_lt_wrapped (n := info.length) (by omega) hsize (toInt_bounds pc).2 h
  have hpos : (pc.toNatClampNeg : Int) = pc.toInt := Int.toNat_of_nonneg hnonneg
  have hfields : (window code (pc.toNatClampNeg + opcodeSize) (info.length - opcodeSize)).length
      < info.length - opcodeSize := by
    rw [length_window]
    omega
  simp only [decode, peek_of_names hsize hnames, bind, Except.bind, if_neg hcheck, if_pos hfields]
  rfl

/-! ## Exact answers -/

/-- The result `r` of looking for an instruction at `pc`, of which `describe` is the description, is
what the integers say: the one that is `found`, a fault for bytes that are `unknown`, or a fault for
the end of the code. -/
structure Answers {α : Type} (describe : α → Info) (r : Except Stop α) (pc : Int64)
    (found : Info → Prop) (unknown : Prop) : Prop where
  ok : ∀ info, (∃ a, r = .ok a ∧ describe a = info) ↔ found info
  invalid : FaultsAt .invalidOpcode pc r ↔ unknown
  outside : FaultsAt .codeBounds pc r ↔ ¬ ((∃ info, found info) ∨ unknown)

/-- Both ways to look at `pc` answer exactly. -/
structure Exact (code : Array UInt8) (pc : Int64) : Prop where
  peek : Answers id (peek code pc) pc (Names code pc.toInt) (Unknown code pc.toInt)
  decode : Answers Inst.info (decode code pc) pc (Holds code pc.toInt) (Unknown code pc.toInt)

section Answers

variable {α : Type} {describe : α → Info} {r : Except Stop α} {found : Info → Prop} {unknown : Prop}

theorem FaultsAt.not_ok {kind : FaultKind} {a : α} (h : FaultsAt kind pc r) : r ≠ .ok a := by
  obtain ⟨text, rfl⟩ := h
  nofun

theorem FaultsAt.not_invalid (h : FaultsAt .codeBounds pc r) : ¬ FaultsAt .invalidOpcode pc r := by
  obtain ⟨text, rfl⟩ := h
  rintro ⟨text', h'⟩
  injection h' with h'
  injection h' with h'
  injection h' with hkind
  exact absurd hkind (by decide)

/-- The three ways to answer begin here: the instruction is found, it is the only one, and the
opcode is known. -/
theorem Answers.of_ok {a : α} (h : r = .ok a) (hfound : found (describe a))
    (hunique : ∀ info, found info → describe a = info) (hknown : ¬ unknown) :
    Answers describe r pc found unknown where
  ok info := by
    constructor
    · rintro ⟨b, hb, rfl⟩
      cases h.symm.trans hb
      exact hfound
    · exact fun hinfo => ⟨a, h, hunique info hinfo⟩
  invalid := ⟨fun hf => absurd h hf.not_ok, fun hu => absurd hu hknown⟩
  outside := ⟨fun hf => absurd h hf.not_ok, fun hnone => absurd (.inl ⟨_, hfound⟩) hnone⟩

theorem Answers.of_unknown (h : FaultsAt .invalidOpcode pc r) (hnone : ∀ info, ¬ found info)
    (hunknown : unknown) : Answers describe r pc found unknown where
  ok info := ⟨fun ⟨_, ha, _⟩ => absurd ha h.not_ok, fun hinfo => absurd hinfo (hnone info)⟩
  invalid := ⟨fun _ => hunknown, fun _ => h⟩
  outside := ⟨fun hf => absurd h hf.not_invalid, fun hout => absurd (.inr hunknown) hout⟩

/-- The opcode, or what it asks for, ends outside the code. -/
theorem Answers.of_outside (h : FaultsAt .codeBounds pc r) (hnone : ∀ info, ¬ found info)
    (hknown : ¬ unknown) : Answers describe r pc found unknown where
  ok info := ⟨fun ⟨_, ha, _⟩ => absurd ha h.not_ok, fun hinfo => absurd hinfo (hnone info)⟩
  invalid := ⟨fun hf => absurd hf h.not_invalid, fun hu => absurd hu hknown⟩
  outside := ⟨fun _ => not_or.mpr ⟨fun ⟨info, hinfo⟩ => hnone info hinfo, hknown⟩, fun _ => h⟩

end Answers

/-- A fault of `peek` is the fault of `decode`. -/
theorem FaultsAt.decode {kind : FaultKind} (h : FaultsAt kind pc (peek code pc)) :
    FaultsAt kind pc (decode code pc) := by
  obtain ⟨text, h⟩ := h
  exact ⟨text, decode_of_peek_error h⟩

/-- Under a known opcode both questions are answered exactly, whether or not the operands fit. -/
theorem exact_of_names (hsize : code.size < 2 ^ 63) (hrange : InRange code pc)
    (h : Names code pc.toInt info) : Exact code pc where
  peek := .of_ok (peek_of_names hsize h) h (fun _ h' => h.unique h') h.not_unknown
  decode := by
    by_cases hinside : pc.toInt + info.length ≤ code.size
    · obtain ⟨i, hi, -, hinfo⟩ := decode_of_holds hsize ⟨h, hinside⟩
      refine .of_ok hi ⟨hinfo ▸ h, hinfo ▸ hinside⟩ (fun info' h' => ?_) h.not_unknown
      rw [hinfo]
      exact h.unique h'.1
    · have hfault := decode_of_truncated hsize h (hrange.operands info h) (by omega)
      refine .of_outside hfault (fun info' h' => hinside ?_) h.not_unknown
      rw [h.unique h'.1]
      exact h'.2

theorem exact_of_unknown (hsize : code.size < 2 ^ 63) (h : Unknown code pc.toInt) :
    Exact code pc where
  peek := .of_unknown (peek_of_unknown hsize h) (fun _ h' => h'.not_unknown h) h
  decode := .of_unknown (peek_of_unknown hsize h).decode (fun _ h' => h'.1.not_unknown h) h

theorem exact_of_outside (hsize : code.size < 2 ^ 63) (hrange : InRange code pc)
    (h : ¬ (0 ≤ pc.toInt ∧ pc.toInt + opcodeSize ≤ code.size)) : Exact code pc where
  peek := .of_outside (peek_of_outside hsize hrange.opcode h) (fun _ h' => h h'.bounds)
    (fun h' => h h'.bounds)
  decode := .of_outside (peek_of_outside hsize hrange.opcode h).decode (fun _ h' => h h'.1.bounds)
    (fun h' => h h'.bounds)

/-- An address whose ends are words holds a known opcode, an unknown one or none; the three cases
above are all. -/
theorem exact_of_inRange (hsize : code.size < 2 ^ 63) (hrange : InRange code pc) :
    Exact code pc := by
  rcases names_or_unknown_or_none code pc.toInt with ⟨info, h⟩ | h | h
  · exact exact_of_names hsize hrange h
  · exact exact_of_unknown hsize h
  · exact exact_of_outside hsize hrange h

/-- Out of range the check passes although the bytes are not there. -/
theorem decode_of_not_inRange (hsize : code.size < 2 ^ 63) (h : ¬ InRange code pc) :
    decode code pc = .error (.abort none) := by
  by_cases hop : pc.toInt + opcodeSize < 2 ^ 63
  · have hoperands : ¬ ∀ info, Names code pc.toInt info → pc.toInt + info.length < 2 ^ 63 :=
      fun hall => h ⟨hop, hall⟩
    obtain ⟨info, hinfo⟩ := not_forall.mp hoperands
    obtain ⟨hnames, hwrap⟩ := Classical.not_imp.mp hinfo
    exact decode_of_wrapped hsize hnames (by omega)
  · exact decode_of_peek_error (peek_of_wrapped hsize (by omega))

/-! ## The start of the code of an image -/

section Pack

open Command

variable {w : World} {g : Given} {file : List UInt8}

def startOf (g : Given) : UInt64 := g.whole packFlags "start"

/-- What `pack` read before it made an image. -/
theorem peek_of_pack {made : World × String} (h : pack w g = .ok made) :
    ∃ file info, w.read (g.text packFlags "code") = .ok file ∧
      peek file.toArray (startOf g).toInt64 = .ok info := by
  unfold pack at h
  obtain ⟨-, h⟩ := ensure_eq_ok.mp h
  obtain ⟨file, hfile, h⟩ := bind_eq_ok.mp h
  -- The global data are read or empty; the start is looked at either way.
  dsimp only at h
  split at h
  all_goals
    obtain ⟨global, -, h⟩ := bind_eq_ok.mp h
    split at h
    · cases h
    next info hpeek => exact ⟨file, info, hfile, hpeek⟩

/-- A word read as a signed one keeps its value unless it gets a sign. -/
theorem toInt_toInt64_of_nonneg {x : UInt64} (h : 0 ≤ x.toInt64.toInt) :
    x.toInt64.toInt = x.toNat := by
  rw [← toNat_toUInt64_of_nonneg h, UInt64.toUInt64_toInt64]

/-- An image is only made when an opcode stands at its start. -/
theorem names_of_pack {made : World × String} (h : pack w g = .ok made) :
    ∃ file, w.read (g.text packFlags "code") = .ok file ∧
      ∃ info, Names file.toArray (startOf g).toNat info := by
  obtain ⟨file, info, hfile, hpeek⟩ := peek_of_pack h
  have hnonneg := toInt_nonneg_iff.mp (peek_eq_ok hpeek).1
  exact ⟨file, hfile, info, toInt_toInt64_of_nonneg hnonneg ▸ names_of_peek hpeek⟩

/-- The files that `pack` reads are there. -/
structure Readable (w : World) (g : Given) (file : List UInt8) : Prop where
  named : g.text packFlags "code" ≠ ""
  code : w.read (g.text packFlags "code") = .ok file
  global : g.text packFlags "global" = "" ∨ ∃ b, w.read (g.text packFlags "global") = .ok b

/-- An image is not packed if nothing can be decoded at its start. -/
theorem pack_of_peek_error {f : Failure} (h : Readable w g file)
    (hpeek : peek file.toArray (startOf g).toInt64 = .error (.failure f)) :
    pack w g = .error ("code start: " ++ f.message) := by
  unfold startOf at hpeek
  unfold pack
  rcases h.global with hglobal | ⟨b, hglobal⟩
  · simp only [if_neg h.named, h.code, hglobal, if_true, hpeek, bind, Except.bind, pure,
      Except.pure, stopText, throw, throwThe, MonadExceptOf.throw]
  · by_cases hnone : g.text packFlags "global" = ""
    · simp only [if_neg h.named, h.code, hnone, if_true, hpeek, bind, Except.bind, pure,
        Except.pure, stopText, throw, throwThe, MonadExceptOf.throw]
    · simp only [if_neg h.named, h.code, if_neg hnone, hglobal, hpeek, bind, Except.bind, pure,
        Except.pure, stopText, throw, throwThe, MonadExceptOf.throw]

/-- A start outside the code is reported. -/
theorem pack_of_outside (h : Readable w g file) (hsize : file.length < 2 ^ 63)
    (hrange : (startOf g).toInt64.toInt + opcodeSize < 2 ^ 63)
    (hout : ¬ (startOf g).toNat + opcodeSize ≤ file.length) :
    ∃ text, pack w g = .error ("code start: "
      ++ (Failure.fault .codeBounds (startOf g).toInt64 text).message) := by
  have houtside : ¬ (0 ≤ (startOf g).toInt64.toInt ∧
      (startOf g).toInt64.toInt + opcodeSize ≤ file.toArray.size) := by
    rintro ⟨hnonneg, hin⟩
    rw [toInt_toInt64_of_nonneg hnonneg, List.size_toArray] at hin
    omega
  obtain ⟨text, hpeek⟩ := peek_of_outside (by rwa [List.size_toArray]) hrange houtside
  exact ⟨text, pack_of_peek_error h hpeek⟩

end Pack

/-- Decoding is exact at every address whose bounds can be computed, and aborts at the others. The
start that an image is packed with has the opcode of an instruction, and a start that is not inside
the code is reported as such wherever its bounds can be computed. -/
theorem decode_is_exact (code : Array UInt8) (pc : Int64) (w : Command.World) (g : Command.Given)
    (hsize : code.size < 2 ^ 63) :
    (InRange code pc → Exact code pc) ∧
    (¬ InRange code pc → decode code pc = .error (.abort none)) ∧
    (∀ made, Command.pack w g = .ok made →
      ∃ file, w.read (g.text Command.packFlags "code") = .ok file ∧
        ∃ info, Names file.toArray (startOf g).toNat info) ∧
    ∀ file, Readable w g file →
      file.length < 2 ^ 63 → (startOf g).toInt64.toInt + opcodeSize < 2 ^ 63 →
        ¬ (startOf g).toNat + opcodeSize ≤ file.length →
          ∃ text, Command.pack w g = .error ("code start: "
            ++ (Failure.fault .codeBounds (startOf g).toInt64 text).message) :=
  ⟨exact_of_inRange hsize, decode_of_not_inRange hsize, fun _ h => names_of_pack h,
    fun _ h hfile hrange hout => pack_of_outside h hfile hrange hout⟩

/-! ### A jump, and a start behind it -/

section Jump

open Command

def jumpCode : List UInt8 := [0x82, 1, 0, 0, 0, 0]

/-- A world with code in a file, to be packed from an address behind it. -/
def jumpWorld : World := { files := [("jump", jumpCode)] }

def jumpGiven : Given := { values := [("code", "jump"), ("start", "6")] }

theorem readable_jump : Readable jumpWorld jumpGiven jumpCode where
  named := by decide +kernel
  code := by decide +kernel
  global := .inl (by decide +kernel)

theorem startOf_jump : startOf jumpGiven = 6 := by decide +kernel

theorem holds_jump : Holds jumpCode.toArray 0 jumpRel := by
  have named : lookup 386 = some jumpRel := @lookup_eq_some 386 _ rfl
  exact ⟨⟨386, ⟨by decide, by decide, by decide, by decide⟩, named⟩, by decide⟩

/-- A jump at address 0 is decoded, and packing is refused for a start in the middle of its
operand. -/
theorem decode_is_exact_jump :
    (∃ i, decode jumpCode.toArray 0 = .ok i ∧ i.info = jumpRel) ∧
      ∃ text, pack jumpWorld jumpGiven
        = .error ("code start: " ++ (Failure.fault .codeBounds 6 text).message) := by
  obtain ⟨hexact, -, -, hpack⟩ :=
    decode_is_exact jumpCode.toArray 0 jumpWorld jumpGiven (by decide)
  have hexact := hexact (inRange_of_lt (by decide))
  have hpack := hpack jumpCode readable_jump (by decide) (by rw [startOf_jump]; decide)
    (by rw [startOf_jump]; decide)
  rw [startOf_jump] at hpack
  exact ⟨(hexact.decode.ok jumpRel).mpr holds_jump, hpack⟩

end Jump

/-- Two bytes of code, and an address whose sum with the size of an opcode is no address. -/
theorem peek_wraps :
    peek #[0, 0] 0x7ffffffffffffffe = .error (.abort none) ∧
      decode #[0, 0] 0x7ffffffffffffffe = .error (.abort none) ∧
      ¬ FaultsAt .codeBounds 0x7ffffffffffffffe (peek #[0, 0] 0x7ffffffffffffffe) := by
  have hpeek : peek #[0, 0] 0x7ffffffffffffffe = .error (.abort none) :=
    peek_of_wrapped (by decide) (by decide)
  refine ⟨hpeek, decode_of_peek_error hpeek, ?_⟩
  rintro ⟨text, hfault⟩
  rw [hpeek] at hfault
  injection hfault with hstop
  cases hstop

end BlockVM.Isa
