import BlockVM.Proofs.Memory.Words
import BlockVM.X86.Decode
import BlockVM.X86.Encode

/-!
# Machine code reads back

`decode_encode` says that the machine code of an instruction, whatever follows it, is read as that
instruction and that nothing behind it is touched. So a row of instructions can be cut at one place
only.

The proof follows the parts of an instruction: what `rex` writes `takeRex` reads (`takeRex_rex`),
what a ModR/M byte and its followers say is their operand (`takeModRM_direct`, `takeModRM_mem`), and
the opcode selects the form. Only bits that have a place in the machine code come back; `stored`
says which of a constant or a condition do.
-/

namespace BlockVM.X86

open LittleEndian

/-! ## Prefixes -/

/-- Bit 3 of a register number, which goes to the REX prefix. -/
def high (r : UInt8) : Bool := r &&& 8 != 0

def rexOf (wide : Bool) (r x b : UInt8) (force : Bool) : Rex :=
  ⟨wide || high r || high x || high b || force, wide, high r, high x, high b⟩

/-- A prefix is left out exactly if it would say nothing. -/
theorem rex_cases (wide : Bool) (r x b : UInt8) (force : Bool) :
    (rex wide r x b force = [] ∧ rexOf wide r x b force = .none) ∨
    ∃ byte, rex wide r x b force = [byte] ∧ byte &&& 0xf0 = 0x40 ∧
      Rex.ofByte byte = rexOf wide r x b force := by
  unfold rex rexOf high
  generalize (r &&& 8 != 0) = r
  generalize (x &&& 8 != 0) = x
  generalize (b &&& 8 != 0) = b
  cases wide <;> cases r <;> cases x <;> cases b <;> cases force <;>
    first | exact .inl ⟨rfl, rfl⟩ | exact .inr ⟨_, rfl, rfl, rfl⟩

/-- The byte is an opcode by itself, and no prefix of one. -/
def isOpcode (op : UInt8) : Bool := op &&& 0xf0 != 0x40 && op != 0x66 && op != 0xf3 && op != 0x0f

section
variable (wide : Bool) (r x b : UInt8) (force : Bool) {op : UInt8} (rest : List UInt8)

/-- It is read back, whether it is there or not, because no opcode looks like one. -/
theorem takeRex_rex (h : op &&& 0xf0 ≠ 0x40) :
    takeRex (rex wide r x b force ++ op :: rest) = (rexOf wide r x b force, op :: rest) := by
  rcases rex_cases wide r x b force with ⟨hb, hx⟩ | ⟨byte, hb, hbyte, hx⟩
  · rw [hb, hx, List.nil_append, takeRex, if_neg h]
  · rw [hb, List.singleton_append, takeRex, if_pos hbyte, hx]

/-- A byte that is neither a REX prefix nor the opcode does not come first. -/
theorem rex_append_ne {p : UInt8} (hp : p &&& 0xf0 ≠ 0x40) (hop : op ≠ p) (rest' : List UInt8) :
    rex wide r x b force ++ op :: rest ≠ p :: rest' := by
  rcases rex_cases wide r x b force with ⟨hb, -⟩ | ⟨byte, hb, hbyte, -⟩
  · rw [hb, List.nil_append]
    exact fun heq => hop (List.cons.inj heq).1
  · rw [hb, List.singleton_append]
    intro heq
    rw [(List.cons.inj heq).1] at hbyte
    exact hp hbyte

/-- An instruction without legacy prefixes is read by what follows its REX prefix. -/
theorem decode_rex (h : op &&& 0xf0 ≠ 0x40) (h₁ : op ≠ 0x66) (h₂ : op ≠ 0xf3) :
    decode (rex wide r x b force ++ op :: rest) =
      match (rexOf wide r x b force, op :: rest) with
      | (x, 0x0f :: op :: rest) => decode0F x op rest
      | (x, op :: rest) => decodePlain x op rest
      | (_, []) => none := by
  unfold decode
  split
  next heq => exact absurd heq (rex_append_ne _ _ _ _ _ _ (by decide) h₁ _)
  next heq => exact absurd heq (rex_append_ne _ _ _ _ _ _ (by decide) h₂ _)
  · exact congrArg (fun taken : Rex × List UInt8 => match taken with
      | (x, 0x0f :: op :: rest) => decode0F x op rest
      | (x, op :: rest) => decodePlain x op rest
      | (_, []) => none) (takeRex_rex _ _ _ _ _ _ h)

/-- An opcode of one byte goes to its own decoder with the prefix. -/
theorem decode_plain (h : isOpcode op = true) :
    decode (rex wide r x b force ++ op :: rest) =
      decodePlain (rexOf wide r x b force) op rest := by
  simp only [isOpcode, Bool.and_eq_true, bne_iff_ne] at h
  obtain ⟨⟨⟨h, h₁⟩, h₂⟩, h₃⟩ := h
  rw [decode_rex _ _ _ _ _ _ h h₁ h₂]
  split
  next heq => exact absurd (List.cons.inj (Prod.mk.inj heq).2).1 h₃
  next heq => cases heq; rfl
  next heq => cases heq

theorem decode_twoByte :
    decode (rex wide r x b force ++ 0x0f :: op :: rest) =
      decode0F (rexOf wide r x b force) op rest :=
  decode_rex _ _ _ _ _ _ (by decide) (by decide) (by decide)

/-- The repeat prefix stands in front of the other one. -/
theorem decode_rep : decode (0xf3 :: (rex wide r x b force ++ 0x0f :: op :: rest)) =
    decodeF3 (rexOf wide r x b force) op rest := by
  show decodeRep _ = _
  unfold decodeRep
  split
  next heq => exact absurd heq (rex_append_ne _ _ _ _ _ _ (by decide) (by decide) _)
  · rw [takeRex_rex _ _ _ _ _ _ (by decide)]
    rfl

end

/-! ## ModR/M -/

/-- A register number is put together from the prefix and the three bits of the field. -/
theorem extend_high {r : UInt8} (h : r < 16) : extend (high r) (r &&& 7) = r := by
  have all : ∀ k : Fin 16, extend (high (UInt8.ofNat k)) (UInt8.ofNat k &&& 7) = UInt8.ofNat k := by
    decide
  have hlt : r.toNat < 16 := h
  have := all ⟨r.toNat, hlt⟩
  simpa using this

/-- A mask of the low bits. -/
theorem and_mask (v : UInt8) {mask : UInt8} {k : Nat} (h : mask.toNat = 2 ^ k - 1) :
    v &&& mask = UInt8.ofNat (v.toNat % 2 ^ k) := by
  have hlt : v.toNat % 2 ^ k < 2 ^ 8 := Nat.lt_of_le_of_lt (Nat.mod_le _ _) v.toNat_lt
  apply UInt8.toNat_inj.mp
  rw [UInt8.toNat_and, h, Nat.and_two_pow_sub_one_eq_mod, UInt8.toNat_ofNat_of_lt' hlt]

theorem and_seven (v : UInt8) : v &&& 7 = UInt8.ofNat (v.toNat % 8) := and_mask v (k := 3) rfl

set_option maxRecDepth 4000 in
theorem fields_modRM (mode : UInt8) (hm : mode ∈ [modIndirect, modDisp8, modDisp32, modDirect])
    (reg rm : UInt8) :
    modRM mode reg rm >>> 6 = mode >>> 6 ∧ (modRM mode reg rm >>> 3) &&& 7 = reg &&& 7 ∧
      modRM mode reg rm &&& 7 = rm &&& 7 := by
  unfold modRM
  rw [and_seven reg, and_seven rm]
  have all : ∀ mode ∈ [modIndirect, modDisp8, modDisp32, modDirect], ∀ reg rm : Fin 8,
      (mode ||| (UInt8.ofNat reg <<< 3) ||| UInt8.ofNat rm) >>> 6 = mode >>> 6 ∧
      ((mode ||| (UInt8.ofNat reg <<< 3) ||| UInt8.ofNat rm) >>> 3) &&& 7 = UInt8.ofNat reg ∧
      (mode ||| (UInt8.ofNat reg <<< 3) ||| UInt8.ofNat rm) &&& 7 = UInt8.ofNat rm := by
    decide
  exact all mode hm ⟨_, Nat.mod_lt _ (by decide)⟩ ⟨_, Nat.mod_lt _ (by decide)⟩

section
variable {x : Rex} {byte : UInt8} {rest : List UInt8}

theorem takeModRM_of_direct (h : byte >>> 6 = 3) :
    takeModRM x (byte :: rest) =
      some (extend x.r ((byte >>> 3) &&& 7), .reg (extend x.b (byte &&& 7)), rest) := by
  simp only [takeModRM, h, ↓reduceIte]
  rfl

/-- A base field of 4 announces another byte for the index. -/
theorem takeModRM_of_sib (h : byte >>> 6 ≠ 3) (hlow : byte &&& 7 = 4) :
    takeModRM x (byte :: rest) =
      (takeSib x (byte >>> 6) rest).map fun (m, rest) =>
        (extend x.r ((byte >>> 3) &&& 7), .mem m, rest) := by
  simp only [takeModRM, h, hlow, ↓reduceIte]
  cases takeSib x (byte >>> 6) rest <;> rfl

theorem takeModRM_of_disp (h : byte >>> 6 ≠ 3) (hlow : byte &&& 7 ≠ 4)
    (hrel : ¬ (byte >>> 6 = 0 ∧ byte &&& 7 = 5)) :
    takeModRM x (byte :: rest) =
      (takeDisp (byte >>> 6) rest).map fun (disp, rest) =>
        (extend x.r ((byte >>> 3) &&& 7), .mem (.based ⟨extend x.b (byte &&& 7)⟩ disp), rest) := by
  simp only [takeModRM, h, hlow, hrel, ↓reduceIte]
  cases takeDisp (byte >>> 6) rest <;> rfl

/-- A base of 5 without a displacement is relative to the instruction pointer instead. -/
theorem takeModRM_of_relative (h : byte >>> 6 = 0) (hlow : byte &&& 7 = 5) :
    takeModRM x (byte :: rest) =
      (takeImm32 rest).map fun (disp, rest) =>
        (extend x.r ((byte >>> 3) &&& 7), .mem (.relative disp), rest) := by
  simp only [takeModRM, h, hlow]
  cases takeImm32 rest <;> rfl

theorem takeSib_of_base {mode : UInt8} (h : ¬ (mode = 0 ∧ byte &&& 7 = 5))
    (hindex : extend x.x ((byte >>> 3) &&& 7) = 4) (hscale : byte >>> 6 = 0) :
    takeSib x mode (byte :: rest) =
      (takeDisp mode rest).map fun (disp, rest) =>
        (.based ⟨extend x.b (byte &&& 7)⟩ disp, rest) := by
  simp only [takeSib, h, hindex, hscale, ↓reduceIte]
  cases takeDisp mode rest <;> rfl

theorem takeSib_of_index {mode : UInt8} {scale : Scale} (h : ¬ (mode = 0 ∧ byte &&& 7 = 5))
    (hindex : extend x.x ((byte >>> 3) &&& 7) ≠ 4) (hscale : byte >>> 6 = scale.bits) :
    takeSib x mode (byte :: rest) =
      (takeDisp mode rest).map fun (disp, rest) =>
        (.indexed ⟨extend x.b (byte &&& 7)⟩ ⟨extend x.x ((byte >>> 3) &&& 7)⟩ scale disp,
          rest) := by
  have hfactor : Scale.ofFactor? ((1 : UInt8) <<< scale.bits) = some scale := by
    cases scale <;> rfl
  simp only [takeSib, h, hindex, hscale, hfactor, ↓reduceIte]
  cases takeDisp mode rest <;> rfl

end

theorem takeModRM_direct {x : Rex} {reg rm : UInt8} (hr : x.r = high reg) (hb : x.b = high rm)
    (hreg : reg < 16) (hrm : rm < 16) (rest : List UInt8) :
    takeModRM x (direct reg rm ++ rest) = some (reg, .reg rm, rest) := by
  obtain ⟨hmode, hfield, hlow⟩ := fields_modRM modDirect (by decide) reg rm
  unfold direct
  rw [List.singleton_append, takeModRM_of_direct hmode, hfield, hlow, hr, hb, extend_high hreg,
    extend_high hrm]

/-- SIB bytes are built as ModR/M bytes are. -/
theorem fields_sib (scale : Scale) (index base : UInt8) :
    sib scale.bits index base >>> 6 = scale.bits ∧
      (sib scale.bits index base >>> 3) &&& 7 = index &&& 7 ∧
      sib scale.bits index base &&& 7 = base &&& 7 := by
  cases scale
  · exact fields_modRM modIndirect (by decide) index base
  · exact fields_modRM modDisp8 (by decide) index base
  · exact fields_modRM modDisp32 (by decide) index base
  · exact fields_modRM modDirect (by decide) index base

namespace Mem

/-- The registers of the operand exist, and its index is not the stack pointer. -/
def Valid : Mem → Prop
  | based base _ => base.num < 16
  | indexed base index _ _ => base.num < 16 ∧ index.num < 16 ∧ index ≠ .rsp
  | relative _ => True

end Mem

/-- A number is read back from its bytes, up to what they hold. -/
theorem takeNat_bytes (n v : Nat) (rest : List UInt8) :
    takeNat n (bytes n v ++ rest) = some (v % 256 ^ n, rest) := by
  have hlen := length_bytes n v
  unfold takeNat
  rw [if_pos (by rw [List.length_append, hlen]; omega), List.take_left' hlen, List.drop_left' hlen,
    value_bytes]

/-- The short form is for what is left unchanged by sign extension from a byte. -/
theorem fitsByte_iff {v : Int32} : fitsByte v = true ↔ -128 ≤ v.toInt ∧ v.toInt ≤ 127 := by
  simp only [fitsByte, Bool.and_eq_true, decide_eq_true_eq, Int32.le_iff_toInt_le]
  rfl

/-- A constant that fits a byte is the sign extension of its low byte. -/
theorem toInt32_toInt8_of_fitsByte {v : Int32} (h : fitsByte v = true) :
    v.toUInt32.toUInt8.toInt8.toInt32 = v := by
  obtain ⟨hlow, hhigh⟩ := fitsByte_iff.mp h
  have hsame : v.toUInt32.toUInt8.toInt8 = v.toInt8 := by
    apply Int8.toBitVec_inj.mp
    simp [BitVec.signExtend_eq_setWidth_of_le]
  apply Int32.toInt_inj.mp
  rw [hsame, Int8.toInt_toInt32, Int32.toInt_toInt8, Int.bmod_eq_of_le (by omega) (by omega)]

theorem takeImm8_imm8 {v : Int32} (h : fitsByte v = true) (rest : List UInt8) :
    takeImm8 (imm8 v ++ rest) = some (v, rest) := by
  show some ((UInt8.ofNat v.toUInt32.toUInt8.toNat).toInt8.toInt32, rest) = _
  rw [UInt8.ofNat_toNat, toInt32_toInt8_of_fitsByte h]

theorem takeImm32_imm32 (v : Int32) (rest : List UInt8) :
    takeImm32 (imm32 v ++ rest) = some (v, rest) := by
  unfold takeImm32 imm32 ofUInt32
  rw [takeNat_bytes]
  show some ((UInt32.ofNat (v.toUInt32.toNat % 256 ^ 4)).toInt32, rest) = _
  rw [ofNat_mod_dword, Int32.toInt32_toUInt32]

/-- A displacement is read back in the form that its mode announces. -/
theorem takeDisp_dispBytes (base : Reg) (disp : Int32) (rest : List UInt8) :
    takeDisp (Mem.mode base disp >>> 6) (Mem.dispBytes base disp ++ rest) = some (disp, rest) := by
  unfold Mem.mode Mem.dispBytes
  split
  next h =>
    rw [h.1]
    rfl
  · split
    next h => exact takeImm8_imm8 h rest
    · exact takeImm32_imm32 disp rest

theorem mode_mem (base : Reg) (disp : Int32) :
    Mem.mode base disp ∈ [modIndirect, modDisp8, modDisp32, modDirect] := by
  unfold Mem.mode
  split
  · decide
  · split <;> decide

theorem mode_ne_direct (base : Reg) (disp : Int32) : Mem.mode base disp >>> 6 ≠ 3 := by
  unfold Mem.mode
  split
  · decide
  · split <;> decide

/-- A base with low bits 5 always has a displacement. -/
theorem mode_of_low {base : Reg} {disp : Int32} (h : base.num &&& 7 = 5) :
    Mem.mode base disp >>> 6 ≠ 0 := by
  unfold Mem.mode
  rw [if_neg (fun hd => hd.2 h)]
  split <;> decide

/-- A memory operand is read back, one case for each addressing form. -/
theorem takeModRM_mem {x : Rex} {reg : UInt8} {m : Mem} (hr : x.r = high reg)
    (hx : x.x = high m.indexNum) (hb : x.b = high m.baseNum) (hreg : reg < 16) (hm : m.Valid)
    (rest : List UInt8) :
    takeModRM x (m.encode reg ++ rest) = some (reg, .mem m, rest) := by
  cases m with
  | relative disp =>
    obtain ⟨hmode, hfield, hlow⟩ := fields_modRM modIndirect (by decide) reg 5
    unfold Mem.encode
    rw [List.cons_append, takeModRM_of_relative hmode hlow, takeImm32_imm32, hfield, hr,
      extend_high hreg]
    rfl
  | based base disp =>
    have hbase : extend x.b (base.num &&& 7) = base.num := hb ▸ extend_high hm
    have hdisp := takeDisp_dispBytes base disp rest
    unfold Mem.encode
    dsimp only
    split
    next h4 =>
      -- A base with low bits 4 goes through a SIB byte whose index field says that there is none.
      obtain ⟨hmode, hfield, hlow⟩ := fields_modRM _ (mode_mem base disp) reg 4
      obtain ⟨hscale, hindex, hsib⟩ := fields_sib .one 4 base.num
      rw [List.cons_append, List.cons_append,
        takeModRM_of_sib (by rw [hmode]; exact mode_ne_direct base disp) hlow, hmode]
      show (takeSib x _ (sib Scale.one.bits 4 base.num :: (Mem.dispBytes base disp ++ rest))).map
        _ = _
      rw [takeSib_of_base _ (by rw [hindex, hx]; show extend (high 0) (4 &&& 7) = 4; decide) hscale,
        hdisp, hsib, hfield, hr, hbase, extend_high hreg]
      · rfl
      · rintro ⟨-, h5⟩
        rw [hsib, h4] at h5
        cases h5
    next h4 =>
      obtain ⟨hmode, hfield, hlow⟩ := fields_modRM _ (mode_mem base disp) reg base.num
      rw [List.singleton_append, List.cons_append,
        takeModRM_of_disp (by rw [hmode]; exact mode_ne_direct base disp) (by rw [hlow]; exact h4),
        hmode, hdisp, hfield, hlow, hr, hbase, extend_high hreg]
      · rfl
      · rw [hmode, hlow]
        exact fun h => mode_of_low h.2 h.1
  | indexed base index scale disp =>
    obtain ⟨hbase, hindex, hrsp⟩ := hm
    have hbase : extend x.b (base.num &&& 7) = base.num := hb ▸ extend_high hbase
    have hindex : extend x.x (index.num &&& 7) = index.num := hx ▸ extend_high hindex
    obtain ⟨hmode, hfield, hlow⟩ := fields_modRM _ (mode_mem base disp) reg 4
    obtain ⟨hscale, hfield', hsib⟩ := fields_sib scale index.num base.num
    unfold Mem.encode
    dsimp only
    simp only [List.cons_append, List.nil_append]
    rw [takeModRM_of_sib (by rw [hmode]; exact mode_ne_direct base disp) hlow, hmode,
      takeSib_of_index _ _ hscale, takeDisp_dispBytes, hsib, hfield, hfield', hr, hbase, hindex,
      extend_high hreg]
    · rfl
    · rw [hsib]
      exact fun h => mode_of_low h.2 h.1
    · rw [hfield', hindex]
      exact fun h => hrsp (congrArg Reg.mk h)

/-! ## Instructions -/

namespace Inst

/-- The registers of the instruction exist and its operation is one of its group. -/
def Valid : Inst → Prop
  | movRegImm64 reg _ | movRegImm32 reg _ | movRegImmSigned reg _ | idiv _ reg | setcc _ reg
  | push reg | pop reg => reg.num < 16
  | load _ reg m | store _ m reg | lea reg m => reg.num < 16 ∧ m.Valid
  | storeImm _ m _ => m.Valid
  | movzxByte dst src | imul _ dst src => dst.num < 16 ∧ src.num < 16
  | aluRegReg op _ dst src => op.digit < 8 ∧ dst.num < 16 ∧ src.num < 16
  | aluRegImm op _ reg _ => op.digit < 8 ∧ reg.num < 16
  | aluRegMem op _ reg m | aluMemReg op _ m reg => op.digit < 8 ∧ reg.num < 16 ∧ m.Valid
  | aluMemImm op _ m _ => op.digit < 8 ∧ m.Valid
  | shiftCl op _ reg | shiftImm op _ reg _ => op.digit < 8 ∧ reg.num < 16
  | movssLoad x m | movssStore m x | ucomissMem x m | cvtsi2ssMem _ x m => x.num < 16 ∧ m.Valid
  | sseReg op dst src => op ∈ SseOp.all ∧ dst.num < 16 ∧ src.num < 16
  | sseMem op x m => op ∈ SseOp.all ∧ x.num < 16 ∧ m.Valid
  | cvtss2si _ dst src => dst.num < 16 ∧ src.num < 16
  | cvtsi2ss _ dst src => dst.num < 16 ∧ src.num < 16
  | cqo | cdq | jccShort .. | ret | repMovs _ => True

/-- What the machine code of an instruction says: only the bits that are stored count. -/
def stored : Inst → Inst
  | storeImm .byte m imm => storeImm .byte m imm.toUInt32.toUInt8.toInt8.toInt32
  | storeImm .word m imm => storeImm .word m imm.toUInt32.toUInt16.toInt16.toInt32
  | setcc cond reg => setcc ⟨cond.code &&& 0xf⟩ reg
  | jccShort cond rel => jccShort ⟨cond.code &&& 0xf⟩ rel
  | i => i

end Inst

/-- The eight values of a field, to decide facts about a field by cases. -/
theorem eq_of_lt_eight {d : UInt8} (h : d < 8) :
    d = 0 ∨ d = 1 ∨ d = 2 ∨ d = 3 ∨ d = 4 ∨ d = 5 ∨ d = 6 ∨ d = 7 := by
  have hlt : d.toNat < 8 := h
  simp only [← UInt8.toNat_inj, UInt8.toNat_ofNat]
  omega

set_option maxRecDepth 4000 in
/-- The opcodes that carry a register in their low bits. -/
theorem fields_row (base : UInt8) (h : base ∈ [0xb8, 0x50, 0x58]) (r : UInt8) :
    (base ||| (r &&& 7)) &&& 0xf8 = base ∧ (base ||| (r &&& 7)) &&& 7 = r &&& 7 ∧
      isOpcode (base ||| (r &&& 7)) = true := by
  have all : ∀ base ∈ ([0xb8, 0x50, 0x58] : List UInt8), ∀ r : Fin 8,
      (base ||| UInt8.ofNat r) &&& 0xf8 = base ∧ (base ||| UInt8.ofNat r) &&& 7 = UInt8.ofNat r ∧
        isOpcode (base ||| UInt8.ofNat r) = true := by
    decide
  rw [and_seven]
  exact all base h ⟨_, Nat.mod_lt _ (by decide)⟩

section
variable (rest : List UInt8)

/-- One lemma for each instruction: what was encoded is decoded, and what follows is left. -/
theorem decode_movRegImm64 {reg : Reg} (h : reg.num < 16) (imm : UInt64) :
    decode ((Inst.movRegImm64 reg imm).encode ++ rest) = some (.movRegImm64 reg imm, rest) := by
  obtain ⟨hrow, hlow, hop⟩ := fields_row 0xb8 (by decide) reg.num
  simp only [Inst.encode, List.append_assoc, List.cons_append, List.nil_append]
  rw [decode_plain _ _ _ _ _ _ hop, decodePlain, if_pos hrow, hlow]
  show (takeNat 8 (bytes 8 imm.toNat ++ rest)).bind
    (fun v => some (Inst.movRegImm64 ⟨extend (high reg.num) (reg.num &&& 7)⟩ (.ofNat v.1), v.2)) = _
  rw [takeNat_bytes, Option.bind_some, ofNat_mod_qword, extend_high h]

theorem decode_movRegImm32 {reg : Reg} (h : reg.num < 16) (imm : UInt32) :
    decode ((Inst.movRegImm32 reg imm).encode ++ rest) = some (.movRegImm32 reg imm, rest) := by
  obtain ⟨hrow, hlow, hop⟩ := fields_row 0xb8 (by decide) reg.num
  simp only [Inst.encode, List.append_assoc, List.cons_append, List.nil_append]
  rw [decode_plain _ _ _ _ _ _ hop, decodePlain, if_pos hrow, hlow]
  show (takeNat 4 (bytes 4 imm.toNat ++ rest)).bind
    (fun v => some (Inst.movRegImm32 ⟨extend (high reg.num) (reg.num &&& 7)⟩ (.ofNat v.1), v.2)) = _
  rw [takeNat_bytes, Option.bind_some, ofNat_mod_dword, extend_high h]

theorem decode_movRegImmSigned {reg : Reg} (h : reg.num < 16) (imm : Int32) :
    decode ((Inst.movRegImmSigned reg imm).encode ++ rest) =
      some (.movRegImmSigned reg imm, rest) := by
  simp only [Inst.encode, List.append_assoc, List.cons_append, List.nil_append]
  rw [decode_plain _ _ _ _ _ _ rfl]
  show decodeModRM _ 0xc7 _ = _
  unfold decodeModRM
  rw [takeModRM_direct rfl rfl (by decide) h]
  show (takeImm32 (imm32 imm ++ rest)).bind (fun v => some (Inst.movRegImmSigned reg v.1, v.2)) = _
  rw [takeImm32_imm32]
  rfl

theorem decode_load (w : Width) {reg : Reg} {m : Mem} (hreg : reg.num < 16) (hm : m.Valid) :
    decode ((Inst.load w reg m).encode ++ rest) = some (.load w reg m, rest) := by
  cases w
  case byte | word =>
    simp only [Inst.encode, Mem.rex, List.append_assoc, List.cons_append, List.nil_append]
    rw [decode_twoByte, decode0F, takeModRM_mem rfl rfl rfl hreg hm]
    rfl
  case dword | qword =>
    simp only [Inst.encode, Mem.rex, List.append_assoc, List.cons_append, List.nil_append]
    rw [decode_plain _ _ _ _ _ _ rfl]
    show decodeModRM _ 0x8b _ = _
    rw [decodeModRM, takeModRM_mem rfl rfl rfl hreg hm]
    rfl

/-- The prefix that a byte operand asks for makes it readable. -/
theorem byteReg_rexOf (wide : Bool) (r x b : UInt8) (reg : Reg) :
    byteReg (rexOf wide r x b reg.needsByteRex) reg.num = some reg := by
  unfold byteReg
  rw [if_neg]
  simp only [rexOf, Reg.needsByteRex]
  grind

/-- Stores of a byte need a prefix for some registers, which is why the widths are told apart. -/
theorem decode_store (w : Width) {reg : Reg} {m : Mem} (hreg : reg.num < 16) (hm : m.Valid) :
    decode ((Inst.store w m reg).encode ++ rest) = some (.store w m reg, rest) := by
  cases w
  case byte =>
    simp only [Inst.encode, Mem.rex, List.append_assoc, List.cons_append, List.nil_append]
    rw [decode_plain _ _ _ _ _ _ rfl]
    show decodeModRM _ 0x88 _ = _
    rw [decodeModRM, takeModRM_mem rfl rfl rfl hreg hm]
    show (byteReg (rexOf _ _ _ _ reg.needsByteRex) reg.num).bind
      (fun r => some (Inst.store .byte m r, rest)) = _
    rw [byteReg_rexOf]
    rfl
  -- The prefix for words comes first and has a decoder of its own.
  case word =>
    simp only [Inst.encode, Mem.rex, List.append_assoc, List.cons_append, List.nil_append]
    show decodeWord _ = _
    unfold decodeWord
    rw [takeRex_rex _ _ _ _ _ _ (by decide)]
    dsimp only
    rw [takeModRM_mem rfl rfl rfl hreg hm]
    rfl
  case dword | qword =>
    simp only [Inst.encode, Mem.rex, List.append_assoc, List.cons_append, List.nil_append]
    rw [decode_plain _ _ _ _ _ _ rfl]
    show decodeModRM _ 0x89 _ = _
    rw [decodeModRM, takeModRM_mem rfl rfl rfl hreg hm]
    rfl

/-- An immediate that is stored is cut to the width, so `stored` is read back. -/
theorem decode_storeImm (w : Width) {m : Mem} (hm : m.Valid) (imm : Int32) :
    decode ((Inst.storeImm w m imm).encode ++ rest) =
    some ((Inst.storeImm w m imm).stored, rest) := by
  cases w
  case byte =>
    simp only [Inst.encode, Mem.rex, List.append_assoc, List.cons_append, List.nil_append]
    rw [decode_plain _ _ _ _ _ _ rfl]
    show decodeModRM _ 0xc6 _ = _
    rw [decodeModRM, takeModRM_mem rfl rfl rfl (by decide) hm]
    show some
      (Inst.storeImm .byte m (UInt8.ofNat imm.toUInt32.toUInt8.toNat).toInt8.toInt32, rest) = _
    rw [UInt8.ofNat_toNat]
    rfl
  case word =>
    -- A constant for a word is cut to its two bytes, and this is what is read back.
    have himm : UInt16.ofNat (imm.toUInt32.toUInt16.toNat % 256 ^ 2) = imm.toUInt32.toUInt16 := by
      apply UInt16.toNat_inj.mp
      have := imm.toUInt32.toUInt16.toNat_lt
      rw [UInt16.toNat_ofNat']
      omega
    simp only [Inst.encode, Mem.rex, List.append_assoc, List.cons_append, List.nil_append]
    show decodeWord _ = _
    unfold decodeWord
    rw [takeRex_rex _ _ _ _ _ _ (by decide)]
    dsimp only
    rw [takeModRM_mem rfl rfl rfl (by decide) hm]
    show (takeNat 2 (bytes 2 imm.toUInt32.toUInt16.toNat ++ rest)).bind
      (fun v => some (Inst.storeImm .word m (UInt16.ofNat v.1).toInt16.toInt32, v.2)) = _
    rw [takeNat_bytes, Option.bind_some, himm]
    rfl
  case dword | qword =>
    simp only [Inst.encode, Mem.rex, List.append_assoc, List.cons_append, List.nil_append]
    rw [decode_plain _ _ _ _ _ _ rfl]
    show decodeModRM _ 0xc7 _ = _
    rw [decodeModRM, takeModRM_mem rfl rfl rfl (by decide) hm]
    show (takeImm32 (imm32 imm ++ rest)).bind (fun v => some (Inst.storeImm _ m v.1, v.2)) = _
    rw [takeImm32_imm32]
    rfl

/-! ### Arithmetic -/

theorem decode_aluRegReg {op : AluOp} (size : Size) {dst src : Reg} (hop : op.digit < 8)
    (hdst : dst.num < 16) (hsrc : src.num < 16) :
    decode ((Inst.aluRegReg op size dst src).encode ++ rest) =
      some (.aluRegReg op size dst src, rest) := by
  obtain ⟨d⟩ := op
  simp only [Inst.encode, List.append_assoc, List.cons_append, List.nil_append]
  rcases eq_of_lt_eight hop with rfl | rfl | rfl | rfl | rfl | rfl | rfl | rfl
  all_goals
    rw [decode_plain _ _ _ _ _ _ rfl]
    show decodeModRM _ _ _ = _
    rw [decodeModRM, takeModRM_direct rfl rfl hsrc hdst]
    cases size <;> rfl

theorem decode_aluMemReg {op : AluOp} (size : Size) {m : Mem} {reg : Reg} (hop : op.digit < 8)
    (hreg : reg.num < 16) (hm : m.Valid) :
    decode ((Inst.aluMemReg op size m reg).encode ++ rest) =
      some (.aluMemReg op size m reg, rest) := by
  obtain ⟨d⟩ := op
  simp only [Inst.encode, Mem.rex, List.append_assoc, List.cons_append, List.nil_append]
  rcases eq_of_lt_eight hop with rfl | rfl | rfl | rfl | rfl | rfl | rfl | rfl
  all_goals
    rw [decode_plain _ _ _ _ _ _ rfl]
    show decodeModRM _ _ _ = _
    rw [decodeModRM, takeModRM_mem rfl rfl rfl hreg hm]
    cases size <;> rfl

theorem decode_aluRegMem {op : AluOp} (size : Size) {m : Mem} {reg : Reg} (hop : op.digit < 8)
    (hreg : reg.num < 16) (hm : m.Valid) :
    decode ((Inst.aluRegMem op size reg m).encode ++ rest) =
      some (.aluRegMem op size reg m, rest) := by
  obtain ⟨d⟩ := op
  simp only [Inst.encode, Mem.rex, List.append_assoc, List.cons_append, List.nil_append]
  rcases eq_of_lt_eight hop with rfl | rfl | rfl | rfl | rfl | rfl | rfl | rfl
  all_goals
    rw [decode_plain _ _ _ _ _ _ rfl]
    show decodeModRM _ _ _ = _
    rw [decodeModRM, takeModRM_mem rfl rfl rfl hreg hm]
    cases size <;> rfl

theorem lt_sixteen_of_lt_eight {d : UInt8} (h : d < 8) : d < 16 :=
  UInt8.lt_trans h (by decide)

/-- The digit of a group never reaches the REX prefix. -/
theorem high_digit {d : UInt8} (h : d < 8) : high 0 = high d := by
  rcases eq_of_lt_eight h with rfl | rfl | rfl | rfl | rfl | rfl | rfl | rfl <;> rfl

/-- The short and the long form of an immediate operand. -/
theorem decode_aluRegImm {op : AluOp} (size : Size) {reg : Reg} (hop : op.digit < 8)
    (hreg : reg.num < 16) (imm : Int32) :
    decode ((Inst.aluRegImm op size reg imm).encode ++ rest) =
      some (.aluRegImm op size reg imm, rest) := by
  have hdigit := lt_sixteen_of_lt_eight hop
  have hrex := high_digit hop
  unfold Inst.encode
  dsimp only
  -- A constant that fits into a byte has a shorter form with another opcode.
  split
  next hfits =>
    simp only [List.append_assoc, List.cons_append, List.nil_append]
    rw [decode_plain _ _ _ _ _ _ rfl]
    show decodeModRM _ 0x83 _ = _
    rw [decodeModRM, takeModRM_direct hrex rfl hdigit hreg]
    show (takeImm8 (imm8 imm ++ rest)).bind
      (fun v => some (Inst.aluRegImm op (rexOf size.isWide 0 0 reg.num false).size reg v.1, v.2)) =
      _
    rw [takeImm8_imm8 hfits]
    cases size <;> rfl
  next =>
    simp only [List.append_assoc, List.cons_append, List.nil_append]
    rw [decode_plain _ _ _ _ _ _ rfl]
    show decodeModRM _ 0x81 _ = _
    rw [decodeModRM, takeModRM_direct hrex rfl hdigit hreg]
    show (takeImm32 (imm32 imm ++ rest)).bind
      (fun v => some (Inst.aluRegImm op (rexOf size.isWide 0 0 reg.num false).size reg v.1, v.2)) =
      _
    rw [takeImm32_imm32]
    cases size <;> rfl

theorem decode_aluMemImm {op : AluOp} (size : Size) {m : Mem} (hop : op.digit < 8) (hm : m.Valid)
    (imm : Int32) :
    decode ((Inst.aluMemImm op size m imm).encode ++ rest) =
      some (.aluMemImm op size m imm, rest) := by
  have hdigit := lt_sixteen_of_lt_eight hop
  have hrex := high_digit hop
  unfold Inst.encode
  dsimp only
  -- As for a register, a small constant has the shorter form.
  split
  next hfits =>
    simp only [Mem.rex, List.append_assoc, List.cons_append, List.nil_append]
    rw [decode_plain _ _ _ _ _ _ rfl]
    show decodeModRM _ 0x83 _ = _
    rw [decodeModRM, takeModRM_mem hrex rfl rfl hdigit hm]
    show (takeImm8 (imm8 imm ++ rest)).bind (fun v =>
      some (Inst.aluMemImm op (rexOf size.isWide 0 m.indexNum m.baseNum false).size m v.1, v.2)) = _
    rw [takeImm8_imm8 hfits]
    cases size <;> rfl
  next =>
    simp only [Mem.rex, List.append_assoc, List.cons_append, List.nil_append]
    rw [decode_plain _ _ _ _ _ _ rfl]
    show decodeModRM _ 0x81 _ = _
    rw [decodeModRM, takeModRM_mem hrex rfl rfl hdigit hm]
    show (takeImm32 (imm32 imm ++ rest)).bind (fun v =>
      some (Inst.aluMemImm op (rexOf size.isWide 0 m.indexNum m.baseNum false).size m v.1, v.2)) = _
    rw [takeImm32_imm32]
    cases size <;> rfl

theorem decode_shiftImm {op : ShiftOp} (size : Size) {reg : Reg} (hop : op.digit < 8)
    (hreg : reg.num < 16) (count : UInt8) :
    decode ((Inst.shiftImm op size reg count).encode ++ rest) =
      some (.shiftImm op size reg count, rest) := by
  simp only [Inst.encode, List.append_assoc, List.cons_append, List.nil_append]
  rw [decode_plain _ _ _ _ _ _ rfl]
  show decodeModRM _ 0xc1 _ = _
  rw [decodeModRM, takeModRM_direct (high_digit hop) rfl (lt_sixteen_of_lt_eight hop) hreg]
  show some (Inst.shiftImm op (rexOf size.isWide 0 0 reg.num false).size reg
    (UInt8.ofNat count.toNat), rest) = _
  rw [UInt8.ofNat_toNat]
  cases size <;> rfl

/-! ### Conditions -/

theorem and_fifteen (v : UInt8) : v &&& 0xf = UInt8.ofNat (v.toNat % 16) := and_mask v (k := 4) rfl

theorem decode_jccShort (cond : Cond) (rel : Int8) :
    decode ((Inst.jccShort cond rel).encode ++ rest) =
      some (.jccShort ⟨cond.code &&& 0xf⟩ rel, rest) := by
  have all : ∀ c : Fin 16, (0x70 ||| UInt8.ofNat c) &&& 0xf8 ≠ 0xb8 ∧
      (0x70 ||| UInt8.ofNat c) &&& 0xf8 ≠ 0x50 ∧ (0x70 ||| UInt8.ofNat c) &&& 0xf8 ≠ 0x58 ∧
      (0x70 ||| UInt8.ofNat c) &&& 0xf0 = 0x70 ∧ (0x70 ||| UInt8.ofNat c) &&& 0xf = UInt8.ofNat c ∧
      isOpcode (0x70 ||| UInt8.ofNat c) = true := by
    decide
  obtain ⟨h₁, h₂, h₃, h₄, h₅, hop⟩ := all ⟨cond.code.toNat % 16, Nat.mod_lt _ (by decide)⟩
  simp only [Inst.encode, List.cons_append, List.nil_append, and_fifteen]
  show decode (rex false 0 0 0 false ++ _) = _
  rw [decode_plain _ _ _ _ _ _ hop]
  unfold decodePlain
  rw [if_neg h₁, if_neg h₂, if_neg h₃, if_pos h₄, h₅]
  show some (Inst.jccShort _ (UInt8.ofNat rel.toUInt8.toNat).toInt8, rest) = _
  rw [UInt8.ofNat_toNat, Int8.toInt8_toUInt8]

theorem decode_setcc (cond : Cond) {reg : Reg} (h : reg.num < 16) :
    decode ((Inst.setcc cond reg).encode ++ rest) =
      some (.setcc ⟨cond.code &&& 0xf⟩ reg, rest) := by
  have all : ∀ c : Fin 16, (0x90 ||| UInt8.ofNat c) ≠ 0xb6 ∧ (0x90 ||| UInt8.ofNat c) ≠ 0xaf ∧
      (0x90 ||| UInt8.ofNat c) &&& 0xf0 = 0x90 ∧
      (0x90 ||| UInt8.ofNat c) &&& 0xf = UInt8.ofNat c := by
    decide
  obtain ⟨h₁, h₂, h₃, h₄⟩ := all ⟨cond.code.toNat % 16, Nat.mod_lt _ (by decide)⟩
  simp only [Inst.encode, List.append_assoc, List.cons_append, List.nil_append, and_fifteen]
  rw [decode_twoByte, decode0F, takeModRM_direct rfl rfl (by decide) h]
  simp only [Option.bind_eq_bind, Option.bind_some, h₁, h₂, h₃, h₄, ↓reduceIte, and_self]
  rw [byteReg_rexOf]
  rfl

/-! ### All instructions -/

theorem decode_push {reg : Reg} (h : reg.num < 16) :
    decode ((Inst.push reg).encode ++ rest) = some (.push reg, rest) := by
  obtain ⟨hrow, hlow, hop⟩ := fields_row 0x50 (by decide) reg.num
  simp only [Inst.encode, List.append_assoc, List.cons_append, List.nil_append]
  rw [decode_plain _ _ _ _ _ _ hop, decodePlain, if_neg (by rw [hrow]; decide), if_pos hrow, hlow]
  show some (Inst.push ⟨extend (high reg.num) (reg.num &&& 7)⟩, rest) = _
  rw [extend_high h]

theorem decode_pop {reg : Reg} (h : reg.num < 16) :
    decode ((Inst.pop reg).encode ++ rest) = some (.pop reg, rest) := by
  obtain ⟨hrow, hlow, hop⟩ := fields_row 0x58 (by decide) reg.num
  simp only [Inst.encode, List.append_assoc, List.cons_append, List.nil_append]
  rw [decode_plain _ _ _ _ _ _ hop, decodePlain, if_neg (by rw [hrow]; decide),
    if_neg (by rw [hrow]; decide), if_pos hrow, hlow]
  show some (Inst.pop ⟨extend (high reg.num) (reg.num &&& 7)⟩, rest) = _
  rw [extend_high h]

theorem decode_sseReg {op : SseOp} {dst src : Xmm} (hop : op ∈ SseOp.all) (hdst : dst.num < 16)
    (hsrc : src.num < 16) :
    decode ((Inst.sseReg op dst src).encode ++ rest) = some (.sseReg op dst src, rest) := by
  simp only [Inst.encode, sseDirect, List.append_assoc, List.cons_append, List.nil_append]
  rw [decode_rep, decodeF3, takeModRM_direct rfl rfl hdst hsrc]
  simp only [SseOp.all, List.mem_cons, List.not_mem_nil, or_false] at hop
  rcases hop with rfl | rfl | rfl | rfl | rfl | rfl | rfl <;> rfl

theorem decode_sseMem {op : SseOp} {x : Xmm} {m : Mem} (hop : op ∈ SseOp.all) (hx : x.num < 16)
    (hm : m.Valid) :
    decode ((Inst.sseMem op x m).encode ++ rest) = some (.sseMem op x m, rest) := by
  simp only [Inst.encode, sseIndirect, Mem.rex, List.append_assoc, List.cons_append,
    List.nil_append]
  rw [decode_rep, decodeF3, takeModRM_mem rfl rfl rfl hx hm]
  simp only [SseOp.all, List.mem_cons, List.not_mem_nil, or_false] at hop
  rcases hop with rfl | rfl | rfl | rfl | rfl | rfl | rfl <;> rfl

end

/-- The machine code of an instruction is read as that instruction, whatever follows it. -/
theorem decode_encode {i : Inst} (h : i.Valid) (rest : List UInt8) :
    decode (i.encode ++ rest) = some (i.stored, rest) := by
  cases i with
  | movRegImm64 reg imm => exact decode_movRegImm64 rest h imm
  | movRegImm32 reg imm => exact decode_movRegImm32 rest h imm
  | movRegImmSigned reg imm => exact decode_movRegImmSigned rest h imm
  | load w reg m => exact decode_load rest w h.1 h.2
  | store w m reg => exact decode_store rest w h.1 h.2
  | storeImm w m imm => exact decode_storeImm rest w h imm
  | movzxByte dst src =>
    simp only [Inst.encode, List.append_assoc, List.cons_append, List.nil_append]
    rw [decode_twoByte, decode0F, takeModRM_direct rfl rfl h.1 h.2]
    show (byteReg (rexOf _ _ _ _ src.needsByteRex) src.num).bind
      (fun r => some (Inst.movzxByte dst r, rest)) = _
    rw [byteReg_rexOf]
    rfl
  -- With one form for both sizes and no choice of opcode, prefix and operands settle the rest.
  | lea reg m =>
    simp only [Inst.encode, Mem.rex, List.append_assoc, List.cons_append, List.nil_append]
    rw [decode_plain _ _ _ _ _ _ rfl]
    show decodeModRM _ 0x8d _ = _
    rw [decodeModRM, takeModRM_mem rfl rfl rfl h.1 h.2]
    rfl
  | aluRegReg op size dst src => exact decode_aluRegReg rest size h.1 h.2.1 h.2.2
  | aluRegImm op size reg imm => exact decode_aluRegImm rest size h.1 h.2 imm
  | aluRegMem op size reg m => exact decode_aluRegMem rest size h.1 h.2.1 h.2.2
  | aluMemReg op size m reg => exact decode_aluMemReg rest size h.1 h.2.1 h.2.2
  | aluMemImm op size m imm => exact decode_aluMemImm rest size h.1 h.2 imm
  | imul size dst src =>
    simp only [Inst.encode, List.append_assoc, List.cons_append, List.nil_append]
    rw [decode_twoByte, decode0F, takeModRM_direct rfl rfl h.1 h.2]
    cases size <;> rfl
  | idiv size reg =>
    simp only [Inst.encode, List.append_assoc, List.cons_append, List.nil_append]
    rw [decode_plain _ _ _ _ _ _ rfl]
    show decodeModRM _ 0xf7 _ = _
    rw [decodeModRM, takeModRM_direct rfl rfl (by decide) h]
    cases size <;> rfl
  | shiftCl op size reg =>
    simp only [Inst.encode, List.append_assoc, List.cons_append, List.nil_append]
    rw [decode_plain _ _ _ _ _ _ rfl]
    show decodeModRM _ 0xd3 _ = _
    rw [decodeModRM, takeModRM_direct (high_digit h.1) rfl (lt_sixteen_of_lt_eight h.1) h.2]
    cases size <;> rfl
  | shiftImm op size reg count => exact decode_shiftImm rest size h.1 h.2 count
  | movssLoad x m | movssStore m x =>
    simp only [Inst.encode, sseIndirect, Mem.rex, List.append_assoc, List.cons_append,
      List.nil_append]
    rw [decode_rep, decodeF3, takeModRM_mem rfl rfl rfl h.1 h.2]
    rfl
  | ucomissMem x m =>
    simp only [Inst.encode, sseIndirect, Mem.rex, List.append_assoc, List.cons_append,
      List.nil_append]
    rw [decode_twoByte, decode0F, takeModRM_mem rfl rfl rfl h.1 h.2]
    rfl
  | sseReg op dst src => exact decode_sseReg rest h.1 h.2.1 h.2.2
  | sseMem op x m => exact decode_sseMem rest h.1 h.2.1 h.2.2
  | cvtss2si size dst src | cvtsi2ss size dst src =>
    simp only [Inst.encode, sseDirect, List.append_assoc, List.cons_append, List.nil_append]
    rw [decode_rep, decodeF3, takeModRM_direct rfl rfl h.1 h.2]
    cases size <;> rfl
  | cvtsi2ssMem size x m =>
    simp only [Inst.encode, sseIndirect, Mem.rex, List.append_assoc, List.cons_append,
      List.nil_append]
    rw [decode_rep, decodeF3, takeModRM_mem rfl rfl rfl h.1 h.2]
    cases size <;> rfl
  | setcc cond reg => exact decode_setcc rest cond h
  | jccShort cond rel => exact decode_jccShort rest cond rel
  | push reg => exact decode_push rest h
  | pop reg => exact decode_pop rest h
  | cqo | cdq | ret => rfl
  | repMovs w => cases w <;> rfl

/-! ## Lengths -/

theorem length_rex_le (wide : Bool) (r x b : UInt8) (force : Bool) :
    (rex wide r x b force).length ≤ 1 := by
  rcases rex_cases wide r x b force with ⟨h, -⟩ | ⟨byte, h, -⟩ <;> simp [h]

theorem length_dispBytes_le (base : Reg) (disp : Int32) :
    (Mem.dispBytes base disp).length ≤ 4 := by
  unfold Mem.dispBytes
  split
  · simp
  · split <;> simp [imm8, imm32, ofUInt32]

theorem length_memEncode_le (m : Mem) (reg : UInt8) : (m.encode reg).length ≤ 6 := by
  cases m with
  | relative disp => simp [Mem.encode, imm32, ofUInt32]
  | based base disp =>
    have := length_dispBytes_le base disp
    simp only [Mem.encode, List.length_append]
    split <;> simp <;> omega
  | indexed base index scale disp =>
    have := length_dispBytes_le base disp
    simp only [Mem.encode, List.length_append, List.length_cons, List.length_nil]
    omega

/-- An instruction takes at least one byte and never more than the processor fetches. -/
theorem length_encode (i : Inst) : 0 < i.encode.length ∧ i.encode.length ≤ 15 := by
  have hrex := length_rex_le
  have hmem := length_memEncode_le
  cases i with
  | load w | store w | storeImm w | repMovs w =>
    cases w <;> simp only [Inst.encode, Mem.rex, imm8, imm32, ofUInt32, ofUInt16, length_bytes,
      List.length_append, List.length_cons, List.length_nil] <;> grind
  | aluRegImm op size reg imm | aluMemImm op size m imm =>
    simp only [Inst.encode]
    split <;> simp only [Mem.rex, direct, imm8, imm32, ofUInt32, length_bytes, List.length_append,
      List.length_cons, List.length_nil] <;> grind
  | _ =>
    simp only [Inst.encode, Mem.rex, sseDirect, sseIndirect, direct, imm32, ofUInt32, ofUInt64,
      length_bytes, List.length_append, List.length_cons, List.length_nil]
    grind

end BlockVM.X86
