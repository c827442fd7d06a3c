import BlockVM.Isa.Assembly
import BlockVM.Proofs.Isa.Mnemonics
import BlockVM.Proofs.Memory.Words
import BlockVM.Proofs.Numeric.Signed
import BlockVM.Proofs.Result
import Mathlib.Data.List.Forall2

/-!
# Assembly and decoding are inverse

`assembly_inverts_decoding` has both directions. A program of instructions is decoded, from its
first byte on, to the instructions it was written with, and they tile the code. An instruction that
was decoded anywhere, written again, is the bytes that it was decoded from.

Both sides follow the list of kinds of an opcode. `fields` is the encoding of the operands as a
function of the kinds alone: assembly writes it (`operandBytes_of_fits`), reading it gives the
operands (`readOperands_fields`), and every stretch of the right length is the encoding of the
operands that are read from it (`fields_readOperands`).
-/

namespace BlockVM.Isa

open LittleEndian

/-! ## One operand -/

/-- What a field keeps of a value: its low bytes, and for a displacement the sign of its low 32 bits
as well. -/
def Kind.reduced (k : Kind) (v : UInt64) : UInt64 :=
  match k with
  | .disp => v.toUInt32.toInt32.toInt64.toUInt64
  | _ => UInt64.ofNat (v.toNat % 256 ^ k.size)

/-- A register number has to fit its byte; every other value is cut down. -/
def Kind.Fits (k : Kind) (v : UInt64) : Prop := k.namesRegister = true → v ≤ 0xff

instance (k : Kind) (v : UInt64) : Decidable (k.Fits v) :=
  inferInstanceAs (Decidable (k.namesRegister = true → v ≤ 0xff))

theorem Kind.size_le (k : Kind) : k.size ≤ 8 := by
  cases k <;> decide

theorem Kind.size_of_namesRegister {k : Kind} (h : k.namesRegister = true) : k.size = 1 := by
  cases k <;> first | rfl | cases h

/-- A value read back from its bytes is what its kind keeps of it. -/
theorem ofBytes_bytes (k : Kind) (v : UInt64) :
    Operand.ofBytes k (bytes k.size v.toNat) = ⟨k, k.reduced v⟩ := by
  -- Only a displacement is extended by its sign; every other field is a plain number.
  by_cases h : k = .disp
  · subst h
    have hlow : (UInt64.ofNat (v.toNat % 256 ^ Kind.disp.size)).toUInt32 = v.toUInt32 := by
      apply UInt32.toNat_inj.mp
      have := v.toNat_lt
      simp only [UInt64.toNat_toUInt32, UInt64.toNat_ofNat', Kind.size]
      omega
    simp only [Operand.ofBytes, toUInt64_bytes, hlow, Kind.reduced]
  · cases k <;>
      first | exact absurd rfl h | simp only [Operand.ofBytes, toUInt64_bytes, Kind.reduced]

/-- Every field is what its own operand is written as. -/
theorem bytes_ofBytes {k : Kind} {bs : List UInt8} (h : bs.length = k.size) :
    bytes k.size (Operand.ofBytes k bs).value.toNat = bs := by
  have hvalue : (toUInt64 bs).toNat = value bs := by
    have hlt := value_lt bs
    have hpow : 256 ^ bs.length ≤ 256 ^ 8 := Nat.pow_le_pow_right (by omega) (h ▸ k.size_le)
    rw [toUInt64, UInt64.toNat_ofNat_of_lt']
    exact Nat.lt_of_lt_of_le hlt (Nat.le_trans hpow (by decide))
  by_cases hk : k = .disp
  · subst hk
    have hlow : (Operand.ofBytes .disp bs).value.toNat % 256 ^ 4 = value bs % 256 ^ 4 := by
      rw [← hvalue]
      show (toUInt64 bs).toUInt32.toInt32.toInt64.toUInt64.toNat % 256 ^ 4 = _
      have hback := congrArg UInt32.toNat (toUInt32_signExtended (toUInt64 bs).toUInt32)
      rw [UInt64.toNat_toUInt32, UInt64.toNat_toUInt32] at hback
      omega
    rw [show Kind.disp.size = 4 from rfl, bytes_congr hlow]
    rw [show (4 : Nat) = bs.length from h.symm, bytes_value]
  · have hplain : (Operand.ofBytes k bs).value = toUInt64 bs := by
      cases k <;> first | exact absurd rfl hk | rfl
    rw [hplain, hvalue, ← h, bytes_value]

/-- A register number that was read is one byte. -/
theorem fits_ofBytes {k : Kind} {bs : List UInt8} (h : bs.length = k.size) :
    k.Fits (Operand.ofBytes k bs).value := by
  intro hk
  have hsize := Kind.size_of_namesRegister hk
  have hplain : (Operand.ofBytes k bs).value = toUInt64 bs := by
    cases k <;> first | rfl | cases hk
  have hlt := value_lt bs
  rw [h, hsize] at hlt
  have hnat : (UInt64.ofNat (value bs)).toNat = value bs :=
    UInt64.toNat_ofNat_of_lt' (Nat.lt_trans hlt (by decide))
  rw [hplain, toUInt64, UInt64.le_iff_toNat_le, hnat]
  exact Nat.le_of_lt_succ hlt

/-! ## The operands of an instruction -/

def fields (ks : List Kind) (vs : List UInt64) : List UInt8 :=
  (List.zipWith (fun k v => bytes k.size v.toNat) ks vs).flatten

@[simp] theorem fields_nil : fields [] [] = [] := rfl

@[simp] theorem fields_cons (k : Kind) (ks : List Kind) (v : UInt64) (vs : List UInt64) :
    fields (k :: ks) (v :: vs) = bytes k.size v.toNat ++ fields ks vs := rfl

theorem length_fields {ks : List Kind} {vs : List UInt64} (h : List.Forall₂ Kind.Fits ks vs) :
    (fields ks vs).length = (ks.map Kind.size).sum := by
  induction h with
  | nil => rfl
  | cons _ _ ih =>
    rw [fields_cons, List.length_append, length_bytes, ih, List.map_cons, List.sum_cons]

/-- Operands that fit are written as their fields. -/
theorem operandBytes_of_fits (mnemonic : String) {ks : List Kind} {vs : List UInt64}
    (h : List.Forall₂ Kind.Fits ks vs) :
    Draft.operandBytes mnemonic ks vs = (fields ks vs, none) := by
  induction h with
  | nil => rfl
  | @cons k v ks vs hfit _ ih =>
    have hpass : (k.namesRegister && decide (0xff < v)) = false := by
      cases hk : k.namesRegister with
      | false => rfl
      | true => simpa using hfit hk
    rw [Draft.operandBytes, hpass, ih]
    rfl

def operands (ks : List Kind) (vs : List UInt64) : List Operand :=
  List.zipWith (fun k v => ⟨k, k.reduced v⟩) ks vs

/-- Operands that fit are read back from their fields. -/
theorem readOperands_fields {ks : List Kind} {vs : List UInt64}
    (h : List.Forall₂ Kind.Fits ks vs) : readOperands ks (fields ks vs) = operands ks vs := by
  induction h with
  | nil => rfl
  | @cons k v ks vs _ _ ih =>
    rw [readOperands, fields_cons, List.take_left' (length_bytes _ _),
      List.drop_left' (length_bytes _ _), ofBytes_bytes, ih]
    rfl

theorem fields_readOperands {ks : List Kind} {bs : List UInt8}
    (h : bs.length = (ks.map Kind.size).sum) :
    List.Forall₂ Kind.Fits ks ((readOperands ks bs).map (·.value)) ∧
      fields ks ((readOperands ks bs).map (·.value)) = bs := by
  induction ks generalizing bs with
  | nil => exact ⟨.nil, (List.eq_nil_of_length_eq_zero h).symm⟩
  | cons k ks ih =>
    rw [List.map_cons, List.sum_cons] at h
    have hhead : (bs.take k.size).length = k.size := by
      rw [List.length_take]
      omega
    have htail : (bs.drop k.size).length = (ks.map Kind.size).sum := by
      rw [List.length_drop]
      omega
    obtain ⟨hfits, hrest⟩ := ih htail
    refine ⟨.cons (fits_ofBytes hhead) hfits, ?_⟩
    rw [readOperands, List.map_cons, fields_cons, bytes_ofBytes hhead, hrest, List.take_append_drop]

/-! ## One instruction -/

def Info.encoding (info : Info) (vs : List UInt64) : List UInt8 :=
  bytes opcodeSize info.op ++ fields info.kinds vs

theorem length_encoding {info : Info} {vs : List UInt64}
    (h : List.Forall₂ Kind.Fits info.kinds vs) : (info.encoding vs).length = info.length := by
  rw [Info.encoding, List.length_append, length_bytes, length_fields h, Info.length]

set_option maxRecDepth 4000 in
theorem length_definitions_le : definitions.length ≤ 2 ^ 16 := by
  decide

/-- An opcode fits its two bytes. -/
theorem op_lt_of_mem_table {info : Info} (h : info ∈ table) : info.op < 2 ^ 16 := by
  obtain ⟨op, d, hd, rfl⟩ := mem_table_iff.mp h
  obtain ⟨hlt, _⟩ := List.getElem?_eq_some_iff.mp hd
  exact Nat.lt_of_lt_of_le hlt length_definitions_le

/-- Every entry of the table is found under its opcode. -/
theorem lookup_op {info : Info} (h : info ∈ table) : lookup (UInt16.ofNat info.op) = some info := by
  have hlt := op_lt_of_mem_table h
  obtain ⟨op, d, hd, rfl⟩ := mem_table_iff.mp h
  have hop : (UInt16.ofNat op).toNat = op := UInt16.toNat_ofNat_of_lt' hlt
  have hlookup := lookup_eq_some (hop.symm ▸ hd : definitions[(UInt16.ofNat op).toNat]? = some d)
  rwa [hop] at hlookup

theorem op_of_entry {pc : Int64} {op : UInt16} {info : Info} (h : entry pc op = .ok info) :
    info.op = op.toNat := by
  have found := lookup_of_entry h
  unfold lookup table at found
  rw [List.getElem?_toArray, List.getElem?_mapIdx, Option.map_eq_some_iff] at found
  obtain ⟨d, _, rfl⟩ := found
  rfl

theorem window_eq (code : Array UInt8) (pos n : Nat) :
    window code pos n = (code.toList.drop pos).take n := by
  rw [window, Array.toList_extract, List.extract_eq_take_drop]
  congr 1
  omega

/-- A stretch of the code between two others. -/
theorem window_append {code : Array UInt8} {pos n : Nat} (before middle after : List UInt8)
    (h : code.toList = before ++ middle ++ after) (hpos : pos = before.length)
    (hn : n = middle.length) : window code pos n = middle := by
  rw [window_eq, h, hpos, hn, List.append_assoc, List.drop_left, List.take_left]

/-- Inside the code addresses do not wrap. -/
theorem not_ofNat_lt_add {size pos n : Nat} (h : pos + n ≤ size) (hsize : size < 2 ^ 63) :
    ¬ Int64.ofNat size < Int64.ofNat pos + Int64.ofNat n := by
  rw [Int64.lt_iff_toInt_lt, ← Int64.ofNat_add, Int64.toInt_ofNat_of_lt hsize,
    Int64.toInt_ofNat_of_lt (by omega)]
  omega

section Encoded

variable {code : Array UInt8} {before after : List UInt8} {info : Info} {vs : List UInt64}

/-- The opcode is found where the instruction was encoded, whatever stands before and behind it. -/
theorem peek_encoding (hcode : code.toList = before ++ info.encoding vs ++ after)
    (hsize : code.size < 2 ^ 63) (hmem : info ∈ table) :
    peek code (Int64.ofNat before.length) = .ok info := by
  have hlen := congrArg List.length hcode
  simp only [Array.length_toList, List.length_append, Info.encoding, length_bytes] at hlen
  have hnonneg : ¬ Int64.ofNat before.length < 0 := by
    rw [toInt_neg_iff, Int64.toInt_ofNat_of_lt (by omega)]
    omega
  have hinside : ¬ Int64.ofNat code.size < Int64.ofNat before.length + Int64.ofNat opcodeSize :=
    not_ofNat_lt_add (by omega) hsize
  -- What is read at the place of the instruction is the opcode it was written with.
  have hwindow : window code (Int64.ofNat before.length).toNatClampNeg opcodeSize
      = bytes opcodeSize info.op := by
    refine window_append before _ (fields info.kinds vs ++ after) ?_
      (Int64.toNatClampNeg_ofNat_of_lt (by omega)) (length_bytes _ _).symm
    rw [hcode, Info.encoding]
    simp only [List.append_assoc]
  have hop : (value (bytes opcodeSize info.op)).toUInt16 = UInt16.ofNat info.op := by
    rw [value_bytes]
    apply UInt16.toNat_inj.mp
    simp [opcodeSize]
  rw [peek, if_neg (not_or.mpr ⟨hnonneg, hinside⟩), hwindow]
  simp only [opcodeSize, bytes] at hop ⊢
  rw [hop, entry, lookup_op hmem]
  rfl

/-- An encoding, wherever it stands, is decoded as the instruction it encodes. -/
theorem decode_encoding (hcode : code.toList = before ++ info.encoding vs ++ after)
    (hsize : code.size < 2 ^ 63) (hmem : info ∈ table)
    (hfits : List.Forall₂ Kind.Fits info.kinds vs) :
    decode code (Int64.ofNat before.length)
      = .ok ⟨Int64.ofNat before.length, info, operands info.kinds vs⟩ := by
  have hlen := congrArg List.length hcode
  simp only [Array.length_toList, List.length_append, length_encoding hfits] at hlen
  have hinside : ¬ Int64.ofNat code.size < Int64.ofNat before.length + Int64.ofNat info.length :=
    not_ofNat_lt_add (by omega) hsize
  have hlength : info.length - opcodeSize = (fields info.kinds vs).length := by
    rw [length_fields hfits, Info.length, Nat.add_sub_cancel_left]
  have hwindow : window code ((Int64.ofNat before.length).toNatClampNeg + opcodeSize)
      (fields info.kinds vs).length = fields info.kinds vs := by
    refine window_append (before ++ bytes opcodeSize info.op) _ after ?_ ?_ rfl
    · rw [hcode, Info.encoding]
      simp only [List.append_assoc]
    · rw [Int64.toNatClampNeg_ofNat_of_lt (by omega), List.length_append, length_bytes]
  simp only [decode, peek_encoding hcode hsize hmem, bind, Except.bind, if_neg hinside, hlength,
    hwindow, Nat.lt_irrefl, if_false, readOperands_fields hfits, pure, Except.pure]

end Encoded

/-- The opcode that was read, as bytes. -/
theorem window_of_peek {code : Array UInt8} {pc : Int64} {info : Info}
    (h : peek code pc = .ok info) :
    window code pc.toNatClampNeg opcodeSize = bytes opcodeSize info.op := by
  unfold peek at h
  split at h
  · cases h
  · split at h
    next lo hi hw =>
      have hlt : value [lo, hi] < UInt16.size := by simpa [UInt16.size] using value_lt [lo, hi]
      have hop : info.op = value [lo, hi] := by
        rw [op_of_entry h]
        exact UInt16.toNat_ofNat_of_lt' hlt
      rw [hw, hop]
      exact (bytes_value [lo, hi]).symm
    · cases h

/-- An instruction that was decoded stands in the code as its own encoding. -/
theorem encoding_of_decode {code : Array UInt8} {pc : Int64} {i : Inst}
    (h : decode code pc = .ok i) : pc.toNatClampNeg + i.length ≤ code.size ∧
      List.Forall₂ Kind.Fits i.info.kinds (i.args.map (·.value)) ∧
      i.info.encoding (i.args.map (·.value)) = window code pc.toNatClampNeg i.length := by
  obtain ⟨info, hpeek, h⟩ := bind_eq_ok.mp h
  obtain ⟨_, hinside, _⟩ := peek_eq_ok hpeek
  simp only [bind, Except.bind, pure, Except.pure] at h
  split at h
  · cases h
  · split at h
    · cases h
    next hfull =>
      cases h
      -- The window is as long as was asked for, so it was not cut at the end of the code.
      have hlength := length_window code (pc.toNatClampNeg + opcodeSize) (info.length - opcodeSize)
      have hsum : info.length - opcodeSize = (info.kinds.map Kind.size).sum := by
        rw [Info.length, Nat.add_sub_cancel_left]
      have hle : opcodeSize ≤ info.length := Nat.le_add_right _ _
      have hend : pc.toNatClampNeg + info.length ≤ code.size := by omega
      have hwhole : (window code (pc.toNatClampNeg + opcodeSize) (info.length - opcodeSize)).length
          = info.length - opcodeSize := by omega
      obtain ⟨hfits, hfields⟩ := fields_readOperands (hwhole.trans hsum)
      refine ⟨hend, hfits, ?_⟩
      show bytes opcodeSize info.op ++ fields info.kinds _ = window code _ info.length
      rw [hfields, ← window_of_peek hpeek]
      simp only [window_eq, ← List.drop_drop]
      rw [← List.take_add, Nat.add_sub_cancel' hle]

/-! ## A program -/

/-- An instruction as it is written: a mnemonic and the values of its operands. -/
abbrev Line := String × List UInt64

/-- A line that can be assembled: its mnemonic is in the table, and it has as many operands as the
opcode takes, with register numbers of one byte. -/
def Line.Accepted (l : Line) : Prop :=
  ∃ info, byName l.1 = some info ∧ List.Forall₂ Kind.Fits info.kinds l.2

/-- The instruction is the one that the line asks for. -/
def Line.ReadsAs (l : Line) (i : Inst) : Prop :=
  i.name = l.1 ∧ byName l.1 = some i.info ∧ i.args = operands i.info.kinds l.2

/-- The instructions cover the addresses from `a` to `b`, each starting where the one before
ends. -/
inductive Tiles : Nat → List Inst → Nat → Prop where
  | nil {a : Nat} : Tiles a [] a
  | cons {a b : Nat} {i : Inst} {is : List Inst} :
      i.pc.toInt = a → Tiles (a + i.length) is b → Tiles a (i :: is) b

def program (ls : List Line) : List Statement := ls.map fun l => .emit l.1 l.2

/-- The encoding of a line; nothing for a mnemonic that is not in the table. -/
def Line.encoding (l : Line) : List UInt8 :=
  (byName l.1).elim [] (·.encoding l.2)

theorem emit_eq_encode {d : Draft} {mnemonic : String} {args : List UInt64} {info : Info}
    (hd : d.error = none) (hname : byName mnemonic = some info)
    (hlength : args.length = info.kinds.length) : d.emit mnemonic args = d.encode info args := by
  unfold Draft.emit
  rw [hd, hname]
  exact if_pos hlength

/-- Encoding operands that fit appends the encoding and notes no fault. -/
theorem encode_of_fits (d : Draft) {info : Info} {vs : List UInt64}
    (h : List.Forall₂ Kind.Fits info.kinds vs) :
    d.encode info vs = { d with code := d.code ++ (info.encoding vs).toArray } := by
  rw [Draft.encode, operandBytes_of_fits _ h]
  rfl

theorem emit_of_accepted {d : Draft} {l : Line} (h : l.Accepted) (hd : d.error = none) :
    d.emit l.1 l.2 = { d with code := d.code ++ l.encoding.toArray } := by
  obtain ⟨info, hname, hfits⟩ := h
  rw [emit_eq_encode hd hname hfits.length_eq.symm, encode_of_fits d hfits, Line.encoding, hname,
    Option.elim_some]

theorem foldl_program {d : Draft} {ls : List Line} (h : ∀ l ∈ ls, l.Accepted)
    (hd : d.error = none) : (program ls).foldl Draft.add d
      = { d with code := d.code ++ (ls.flatMap Line.encoding).toArray } := by
  induction ls generalizing d with
  | nil => simp [program]
  | cons l ls ih =>
    obtain ⟨hl, hls⟩ := List.forall_mem_cons.mp h
    have hemit : d.add (.emit l.1 l.2) = { d with code := d.code ++ l.encoding.toArray } := by
      rw [Draft.add, emit_of_accepted hl hd]
    show (program ls).foldl Draft.add (d.add (.emit l.1 l.2)) = _
    rw [hemit, ih (d := { d with code := d.code ++ l.encoding.toArray }) hls hd]
    simp

/-- Such a program is assembled to the encodings of its lines. -/
theorem assemble_program {ls : List Line} (h : ∀ l ∈ ls, l.Accepted) :
    assemble (program ls) = .ok (ls.flatMap Line.encoding).toArray := by
  rw [assemble, Draft.ofStatements, foldl_program h rfl]
  simp [Draft.finish, Draft.resolve]

/-- The sweep of the rest of a program, from the address that it starts at. -/
theorem sweepFrom_encoding {code : Array UInt8} {before : List UInt8} {ls : List Line} {fuel : Nat}
    (h : ∀ l ∈ ls, l.Accepted) (hcode : code.toList = before ++ ls.flatMap Line.encoding)
    (hsize : code.size < 2 ^ 63) (hfuel : ls.length < fuel) :
    ∃ is, sweepFrom code fuel (Int64.ofNat before.length) = (is, none) ∧
      List.Forall₂ Line.ReadsAs ls is ∧ Tiles before.length is code.size := by
  -- What has been read moves from `ls` to `before`, whose length is the address of the next line.
  induction ls generalizing before fuel with
  | nil =>
    obtain ⟨fuel, rfl⟩ : ∃ n, fuel = n + 1 := ⟨fuel - 1, by omega⟩
    have hend : code.size = before.length := by
      simpa using congrArg List.length hcode
    rw [← hend, sweepFrom, if_neg (Int64.lt_irrefl)]
    exact ⟨[], rfl, .nil, .nil⟩
  | cons l ls ih =>
    obtain ⟨fuel, rfl⟩ : ∃ n, fuel = n + 1 := ⟨fuel - 1, by omega⟩
    obtain ⟨⟨info, hname, hfits⟩, hls⟩ := List.forall_mem_cons.mp h
    obtain ⟨hmem, hinfo⟩ := byName_eq_some hname
    have hencoding : l.encoding = info.encoding l.2 := by
      rw [Line.encoding, hname, Option.elim_some]
    rw [List.flatMap_cons, hencoding, ← List.append_assoc] at hcode
    have hlen := congrArg List.length hcode
    simp only [Array.length_toList, List.length_append, length_encoding hfits] at hlen
    -- The line is not empty, so the sweep has not reached the end of the code.
    have hpos : 0 < info.length := Nat.add_pos_left (by decide) _
    have hpc : (Int64.ofNat before.length).toInt = before.length :=
      Int64.toInt_ofNat_of_lt (by omega)
    have hlt : Int64.ofNat before.length < Int64.ofNat code.size := by
      rw [Int64.lt_iff_toInt_lt, hpc, Int64.toInt_ofNat_of_lt hsize]
      omega
    have hfuel' : ls.length < fuel := Nat.lt_of_succ_lt_succ hfuel
    obtain ⟨is, hsweep, hreads, htiles⟩ := ih hls hcode hfuel'
    rw [List.length_append, length_encoding hfits] at hsweep htiles
    refine ⟨⟨Int64.ofNat before.length, info, operands info.kinds l.2⟩ :: is, ?_,
      .cons ⟨hinfo, hname, rfl⟩ hreads, .cons hpc htiles⟩
    rw [sweepFrom, if_pos hlt, decode_encoding hcode hsize hmem hfits]
    simp only [Inst.next, ← Int64.ofNat_add, hsweep]

theorem length_le_encoding {ls : List Line} (h : ∀ l ∈ ls, l.Accepted) :
    ls.length ≤ (ls.flatMap Line.encoding).length := by
  induction ls with
  | nil => exact Nat.le_refl _
  | cons l ls ih =>
    obtain ⟨⟨info, hname, hfits⟩, hls⟩ := List.forall_mem_cons.mp h
    have hlength : l.encoding.length = opcodeSize + (info.kinds.map Kind.size).sum := by
      rw [Line.encoding, hname, Option.elim_some, length_encoding hfits, Info.length]
    have := ih hls
    simp only [List.flatMap_cons, List.length_append, List.length_cons, hlength, opcodeSize]
    omega

/-- An instruction that was decoded is assembled to the bytes that it was decoded from. -/
theorem assemble_decoded {code : Array UInt8} {pc : Int64} {i : Inst} (h : decode code pc = .ok i) :
    assemble [.emit i.name (i.args.map (·.value))]
      = .ok (code.extract pc.toNatClampNeg (pc.toNatClampNeg + i.length)) := by
  obtain ⟨_, hfits, hencoding⟩ := encoding_of_decode h
  have hname : byName i.name = some i.info := byName_name (decode_eq_ok h).known
  have accepted : ∀ l ∈ ([(i.name, i.args.map (·.value))] : List Line), l.Accepted :=
    List.forall_mem_singleton.mpr ⟨i.info, hname, hfits⟩
  have hassemble := assemble_program accepted
  rw [program, List.map_singleton] at hassemble
  rw [hassemble, List.flatMap_singleton, Line.encoding, hname, Option.elim_some, hencoding, window,
    Array.toArray_toList]

/-- Assembly and decoding are inverse over the whole format. A program of acceptable lines is
assembled, and when it fits the range of addresses, its linear decode is exactly its lines, with
operands reduced to their fields, in instructions that tile the code. An instruction decoded
anywhere in any code lies inside it, and is assembled to the bytes it was decoded from. -/
theorem assembly_inverts_decoding :
    (∀ ls : List Line, (∀ l ∈ ls, l.Accepted) →
      ∃ code, assemble (program ls) = .ok code ∧
        (code.size < 2 ^ 63 → ∃ is, sweep code 0 = (is, none) ∧
          List.Forall₂ Line.ReadsAs ls is ∧ Tiles 0 is code.size)) ∧
    (∀ (code : Array UInt8) (pc : Int64) (i : Inst), decode code pc = .ok i →
      pc.toNatClampNeg + i.length ≤ code.size ∧
        assemble [.emit i.name (i.args.map (·.value))]
          = .ok (code.extract pc.toNatClampNeg (pc.toNatClampNeg + i.length))) := by
  refine ⟨fun ls h => ⟨_, assemble_program h, fun hsize => ?_⟩, fun code pc i h => ?_⟩
  · have hcode : (ls.flatMap Line.encoding).toArray.toList = [] ++ ls.flatMap Line.encoding := rfl
    exact sweepFrom_encoding h hcode hsize (Nat.lt_succ_of_le (length_le_encoding h))
  · exact ⟨(encoding_of_decode h).1, assemble_decoded h⟩

/-! ### A program of two lines -/

def loadImm : Info := ⟨9, "MOV_R_IMMI", .mov, [.reg, .imm32], 0⟩

def jumpRel : Info := ⟨386, "JMPR_DISP", .jmpr, [.disp], 0⟩

theorem loadImm_mem_table : loadImm ∈ table := by
  have hentry : definitions[9]? = some ⟨.mov, 0, [.plain .reg, .plain .imm32]⟩ := rfl
  exact mem_table_iff.mpr ⟨9, _, hentry, by decide⟩

theorem jumpRel_mem_table : jumpRel ∈ table := by
  have hentry : definitions[386]? = some ⟨.jmpr, 0, [.plain .disp]⟩ := rfl
  exact mem_table_iff.mpr ⟨386, _, hentry, by decide⟩

/-- A constant too wide for its field, and a jump back to it. -/
def loadsAndJumpsBack : List Line :=
  [(loadImm.name, [3, 0x100000007]), (jumpRel.name, [0xfffffffffffffff3])]

def loadsAndJumpsBackCode : Array UInt8 := #[9, 0, 3, 7, 0, 0, 0, 130, 1, 0xf3, 0xff, 0xff, 0xff]

theorem loadsAndJumpsBack_accepted : ∀ l ∈ loadsAndJumpsBack, l.Accepted := by
  refine List.forall_mem_cons.mpr ⟨?_, List.forall_mem_singleton.mpr ?_⟩
  · exact ⟨loadImm, byName_name loadImm_mem_table, .cons (by decide) (.cons (by decide) .nil)⟩
  · exact ⟨jumpRel, byName_name jumpRel_mem_table, .cons (by decide) .nil⟩

theorem assemble_loadsAndJumpsBack :
    assemble (program loadsAndJumpsBack) = .ok loadsAndJumpsBackCode := by
  rw [assemble_program loadsAndJumpsBack_accepted]
  simp only [loadsAndJumpsBack, List.flatMap_cons, List.flatMap_nil, Line.encoding,
    byName_name loadImm_mem_table, byName_name jumpRel_mem_table, Option.elim_some]
  rfl

theorem decode_loadsAndJumpsBack :
    decode loadsAndJumpsBackCode 7 = .ok ⟨7, jumpRel, [⟨.disp, 0xfffffffffffffff3⟩]⟩ := by
  have hcode : loadsAndJumpsBackCode.toList
      = [9, 0, 3, 7, 0, 0, 0] ++ jumpRel.encoding [0xfffffffffffffff3] ++ [] := by decide
  have hargs : operands jumpRel.kinds [0xfffffffffffffff3] = [⟨.disp, 0xfffffffffffffff3⟩] := by
    decide
  have hpc : (7 : Int64) = Int64.ofNat ([9, 0, 3, 7, 0, 0, 0] : List UInt8).length := by decide
  rw [← hargs, hpc]
  exact decode_encoding hcode (by decide) jumpRel_mem_table (.cons (by decide) .nil)

/-- Three lines are read back from their code, and the jump at its end is assembled to its own
bytes. -/
theorem assembly_inverts_decoding_loadsAndJumpsBack :
    (∃ is, sweep loadsAndJumpsBackCode 0 = (is, none) ∧
      List.Forall₂ Line.ReadsAs loadsAndJumpsBack is ∧ Tiles 0 is 13) ∧
    assemble [.emit jumpRel.name [0xfffffffffffffff3]] =
    .ok (loadsAndJumpsBackCode.extract 7 13) := by
  obtain ⟨code, hcode, hsweep⟩ := assembly_inverts_decoding.1 _ loadsAndJumpsBack_accepted
  cases hcode.symm.trans assemble_loadsAndJumpsBack
  exact ⟨hsweep (by decide), (assembly_inverts_decoding.2 _ _ _ decode_loadsAndJumpsBack).2⟩

end BlockVM.Isa
