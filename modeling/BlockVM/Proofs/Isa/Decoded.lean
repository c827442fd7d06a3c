import BlockVM.Isa.Decode

/-!
# What a decoded instruction is

`decode_eq_ok` collects what is known of an instruction that decoding gives: it stands where it was
looked for, its opcode is in the table, its operands are of the kinds that the opcode asks for and
its opcode lies inside the code.

The table is a finite list, so a fact about the operands of a family is a computation over it
(`shaped_of_mem_table`). Later proofs use such facts through `Shaped` and never look at the table.
-/

namespace BlockVM.Isa

/-! ## The table -/

/-- The operand kinds that the evaluator and the compiler take for granted: arithmetic writes a
register or 32-bit memory, stack instructions name registers of their own file, and relative jumps
have a displacement. -/
def Shaped (f : Family) (kinds : List Kind) : Bool :=
  match f with
  | .add | .sub | .mul | .div | .mod | .and | .or | .xor | .shl | .shr =>
    match kinds with
    | [.reg, _] | [.mem, _] | [.ptr, _] => true
    | _ => false
  | .push | .pop => kinds == [.reg]
  | .pushes | .pops => kinds == [.reg, .reg]
  | .fpush | .fpop => kinds == [.freg]
  | .fpushes | .fpops => kinds == [.freg, .freg]
  | .jmpr => kinds == [.disp]
  | .jcr => kinds == [.reg, .disp]
  | _ => true

/-- Every definition has operands of the shape that its family asks for. -/
theorem shaped_definitions :
    ∀ d ∈ definitions, Shaped d.family (d.slots.map (·.kind)) = true := by
  decide +kernel

/-- What is found under an opcode is the entry of the table. -/
theorem lookup_of_entry {pc : Int64} {op : UInt16} {info : Info} (h : entry pc op = .ok info) :
    lookup op = some info := by
  unfold entry at h
  cases hl : lookup op with
  | none =>
    rw [hl] at h
    cases h
  | some found =>
    rw [hl] at h
    cases h
    rfl

theorem mem_table_of_entry {pc : Int64} {op : UInt16} {info : Info}
    (h : entry pc op = .ok info) : info ∈ table := by
  have found := lookup_of_entry h
  unfold lookup at found
  exact Array.mem_of_getElem? found

/-- The table has one entry for each definition, under the opcode of its place. -/
theorem mem_table_iff {info : Info} :
    info ∈ table ↔
      ∃ (op : Nat) (d : Definition), definitions[op]? = some d ∧ info = d.info op := by
  simp only [table, List.mem_toArray, List.mem_iff_getElem?, List.getElem?_mapIdx,
    Option.map_eq_some_iff]
  constructor
  · rintro ⟨op, d, hd, rfl⟩
    exact ⟨op, d, hd, rfl⟩
  · rintro ⟨op, d, hd, rfl⟩
    exact ⟨op, d, hd, rfl⟩

/-- The entry of an opcode, from its place among the definitions. -/
theorem lookup_eq_some {op : UInt16} {d : Definition} (h : definitions[op.toNat]? = some d) :
    lookup op = some (d.info op.toNat) := by
  unfold lookup table
  rw [List.getElem?_toArray, List.getElem?_mapIdx, h]
  rfl

/-- Every place of a definition is an opcode that is found. -/
theorem entry_eq_ok {pc : Int64} {op : UInt16} {d : Definition}
    (h : definitions[op.toNat]? = some d) : entry pc op = .ok (d.info op.toNat) := by
  rw [entry, lookup_eq_some h]
  rfl

theorem shaped_of_mem_table {info : Info} (h : info ∈ table) :
    Shaped info.family info.kinds = true := by
  obtain ⟨op, d, hd, rfl⟩ := mem_table_iff.mp h
  exact shaped_definitions d (List.mem_of_getElem? hd)

/-- No definition has more than 14 bytes of operands. -/
theorem sizes_definitions :
    ∀ d ∈ definitions, ((d.slots.map (·.kind)).map Kind.size).sum ≤ 14 := by
  decide +kernel

theorem length_le_of_mem_table {info : Info} (h : info ∈ table) : info.length ≤ 16 := by
  obtain ⟨op, d, hd, rfl⟩ := mem_table_iff.mp h
  have hsum := sizes_definitions d (List.mem_of_getElem? hd)
  simp only [Info.length, Definition.info, opcodeSize]
  omega

/-! ## Decoding -/

theorem ofBytes_kind (k : Kind) (bs : List UInt8) : (Operand.ofBytes k bs).kind = k := by
  cases k <;> rfl

/-- A displacement is sign-extended from 32 bits. -/
theorem signed_ofBytes {k : Kind} (bs : List UInt8) (h : k = .disp) :
    -2 ^ 31 ≤ (Operand.ofBytes k bs).signed.toInt ∧
    (Operand.ofBytes k bs).signed.toInt < 2 ^ 31 := by
  subst h
  have hsigned : (Operand.ofBytes .disp bs).signed
      = (LittleEndian.toUInt64 bs).toUInt32.toInt32.toInt64 := by
    simp only [Operand.ofBytes, Operand.signed, Int64.toInt64_toUInt64]
  rw [hsigned, Int32.toInt_toInt64]
  have h₁ := (LittleEndian.toUInt64 bs).toUInt32.toInt32.le_toInt
  have h₂ := (LittleEndian.toUInt64 bs).toUInt32.toInt32.toInt_lt
  exact ⟨h₁, h₂⟩

theorem signed_readOperands {ks : List Kind} {bs : List UInt8} {a : Operand}
    (ha : a ∈ readOperands ks bs) (hk : a.kind = .disp) :
    -2 ^ 31 ≤ a.signed.toInt ∧ a.signed.toInt < 2 ^ 31 := by
  induction ks generalizing bs with
  | nil => cases ha
  | cons k ks ih =>
    simp only [readOperands, List.mem_cons] at ha
    rcases ha with rfl | ha
    · rw [ofBytes_kind] at hk
      exact signed_ofBytes _ hk
    · exact ih ha

/-- Operands are read with the kinds that are asked for, in order. -/
theorem kinds_readOperands (ks : List Kind) (bs : List UInt8) :
    (readOperands ks bs).map (·.kind) = ks := by
  induction ks generalizing bs with
  | nil => rfl
  | cons k ks ih => simp only [readOperands, List.map_cons, ofBytes_kind, ih]

theorem length_window (code : Array UInt8) (pos n : Nat) :
    (window code pos n).length = min (pos + n) code.size - pos := by
  simp only [window, Array.length_toList, Array.size_extract]

/-- What is known of an instruction that was read at `pc`. -/
structure Decoded (code : Array UInt8) (pc : Int64) (i : Inst) : Prop where
  pc_eq : i.pc = pc
  nonneg : 0 ≤ pc
  /-- The opcode lies inside the code. -/
  inside : pc.toNatClampNeg + opcodeSize ≤ code.size
  known : i.info ∈ table
  kinds_eq : i.args.map (·.kind) = i.info.kinds
  disp : ∀ a ∈ i.args, a.kind = .disp → -2 ^ 31 ≤ a.signed.toInt ∧ a.signed.toInt < 2 ^ 31

/-- What a found opcode says of the address and of the table. -/
theorem peek_eq_ok {code : Array UInt8} {pc : Int64} {info : Info} (h : peek code pc = .ok info) :
    0 ≤ pc ∧ pc.toNatClampNeg + opcodeSize ≤ code.size ∧ info ∈ table := by
  unfold peek at h
  split at h
  · cases h
  next hb =>
    split at h
    next lo hi hw =>
      have hlen := length_window code pc.toNatClampNeg opcodeSize
      rw [hw] at hlen
      simp only [List.length_cons, List.length_nil, opcodeSize] at hlen ⊢
      exact ⟨Int64.not_lt.mp (not_or.mp hb).1, by omega, mem_table_of_entry h⟩
    · cases h

/-- What a decoded instruction says of the code: everything later proofs use is in `Decoded`. -/
theorem decode_eq_ok {code : Array UInt8} {pc : Int64} {i : Inst} (h : decode code pc = .ok i) :
    Decoded code pc i := by
  unfold decode at h
  cases hp : peek code pc with
  | error e => rw [hp] at h; cases h
  | ok info =>
    rw [hp] at h
    simp only [bind, Except.bind, pure, Except.pure] at h
    obtain ⟨hpc, hin, hmem⟩ := peek_eq_ok hp
    split at h
    · cases h
    · split at h
      · cases h
      · cases h
        exact ⟨rfl, hpc, hin, hmem, kinds_readOperands _ _,
          fun a ha hk => signed_readOperands ha hk⟩

end BlockVM.Isa
