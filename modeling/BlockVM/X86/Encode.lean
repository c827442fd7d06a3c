import BlockVM.X86.Inst

/-!
# Encoding

An instruction is a row of parts: legacy prefixes, a REX prefix when one of its bits is needed, the
opcode, a ModR/M byte with an optional SIB byte and displacement, and an immediate.
-/

namespace BlockVM.X86

open LittleEndian

/-! ## Parts -/

/-- The REX prefix: the width bit and bit 3 of the three register fields. It is left out when no bit
is set, unless `force` asks for it. -/
def rex (wide : Bool) (r x b : UInt8) (force : Bool) : List UInt8 :=
  let byte : UInt8 := 0x40
    ||| (if wide then 8 else 0)
    ||| (if r &&& 8 != 0 then 4 else 0)
    ||| (if x &&& 8 != 0 then 2 else 0)
    ||| (if b &&& 8 != 0 then 1 else 0)
  if byte != 0x40 || force then [byte] else []

/-- How a ModR/M byte addresses its operand. -/
def modIndirect : UInt8 := 0x00
def modDisp8 : UInt8 := 0x40
def modDisp32 : UInt8 := 0x80
def modDirect : UInt8 := 0xc0

def modRM (mode reg rm : UInt8) : UInt8 := mode ||| ((reg &&& 7) <<< 3) ||| (rm &&& 7)

def sib (scale index base : UInt8) : UInt8 :=
  (scale <<< 6) ||| ((index &&& 7) <<< 3) ||| (base &&& 7)

/-- A ModR/M byte with two registers. -/
def direct (reg rm : UInt8) : List UInt8 := [modRM modDirect reg rm]

/-- Whether a displacement or constant has a form of one byte. -/
def fitsByte (v : Int32) : Bool := -128 ≤ v && v ≤ 127

def imm8 (v : Int32) : List UInt8 := [v.toUInt32.toUInt8]

def imm32 (v : Int32) : List UInt8 := ofUInt32 v.toUInt32

namespace Mem

/-- The index register's number in the REX prefix. -/
def indexNum : Mem → UInt8
  | based .. | relative _ => 0
  | indexed _ index _ _ => index.num

/-- The base register's number in the REX prefix. -/
def baseNum : Mem → UInt8
  | based base _ | indexed base _ _ _ => base.num
  | relative _ => 0

/-- The shortest displacement form. A base with low bits 5 has no form without displacement. -/
def mode (base : Reg) (disp : Int32) : UInt8 :=
  if disp = 0 ∧ base.num &&& 7 ≠ 5 then modIndirect
  else if fitsByte disp then modDisp8
  else modDisp32

/-- The displacement that a form carries. -/
def dispBytes (base : Reg) (disp : Int32) : List UInt8 :=
  if disp = 0 ∧ base.num &&& 7 ≠ 5 then []
  else if fitsByte disp then imm8 disp
  else imm32 disp

/-- ModR/M, SIB and displacement. A base with low bits 4 can only be written through a SIB byte. -/
def encode (m : Mem) (reg : UInt8) : List UInt8 :=
  match m with
  | relative disp => modRM modIndirect reg 5 :: imm32 disp
  | based base disp =>
    let head := if base.num &&& 7 = 4 then [modRM (mode base disp) reg 4, sib 0 4 base.num]
      else [modRM (mode base disp) reg base.num]
    head ++ dispBytes base disp
  | indexed base index scale disp =>
    [modRM (mode base disp) reg 4, sib scale.bits index.num base.num] ++ dispBytes base disp

/-- The REX prefix of an instruction with this operand. -/
def rex (m : Mem) (wide : Bool) (reg : UInt8) (force : Bool) : List UInt8 :=
  X86.rex wide reg m.indexNum m.baseNum force

end Mem

/-! ## Instructions -/

/-- An SSE instruction on two registers. -/
def sseDirect (pre : List UInt8) (wide : Bool) (op reg rm : UInt8) : List UInt8 :=
  pre ++ rex wide reg 0 rm false ++ [0x0f, op] ++ direct reg rm

/-- An SSE instruction with a memory operand. -/
def sseIndirect (pre : List UInt8) (wide : Bool) (op reg : UInt8) (m : Mem) : List UInt8 :=
  pre ++ m.rex wide reg false ++ [0x0f, op] ++ m.encode reg

/-- The machine code of an instruction. -/
def Inst.encode : Inst → List UInt8
  | movRegImm64 reg imm =>
    rex true 0 0 reg.num false ++ [0xb8 ||| (reg.num &&& 7)] ++ ofUInt64 imm
  | movRegImm32 reg imm =>
    rex false 0 0 reg.num false ++ [0xb8 ||| (reg.num &&& 7)] ++ ofUInt32 imm
  | movRegImmSigned reg imm =>
    rex true 0 0 reg.num false ++ [0xc7] ++ direct 0 reg.num ++ imm32 imm
  | load .byte reg m => m.rex false reg.num false ++ [0x0f, 0xb6] ++ m.encode reg.num
  | load .word reg m => m.rex false reg.num false ++ [0x0f, 0xb7] ++ m.encode reg.num
  | load .dword reg m => m.rex false reg.num false ++ [0x8b] ++ m.encode reg.num
  | load .qword reg m => m.rex true reg.num false ++ [0x8b] ++ m.encode reg.num
  | store .byte m reg => m.rex false reg.num reg.needsByteRex ++ [0x88] ++ m.encode reg.num
  | store .word m reg => [0x66] ++ m.rex false reg.num false ++ [0x89] ++ m.encode reg.num
  | store .dword m reg => m.rex false reg.num false ++ [0x89] ++ m.encode reg.num
  | store .qword m reg => m.rex true reg.num false ++ [0x89] ++ m.encode reg.num
  | storeImm .byte m imm => m.rex false 0 false ++ [0xc6] ++ m.encode 0 ++ imm8 imm
  | storeImm .word m imm =>
    [0x66] ++ m.rex false 0 false ++ [0xc7] ++ m.encode 0 ++ ofUInt16 imm.toUInt32.toUInt16
  | storeImm .dword m imm => m.rex false 0 false ++ [0xc7] ++ m.encode 0 ++ imm32 imm
  | storeImm .qword m imm => m.rex true 0 false ++ [0xc7] ++ m.encode 0 ++ imm32 imm
  | movzxByte dst src =>
    rex false dst.num 0 src.num src.needsByteRex ++ [0x0f, 0xb6] ++ direct dst.num src.num
  | lea reg m => m.rex true reg.num false ++ [0x8d] ++ m.encode reg.num
  | aluRegReg op size dst src =>
    rex size.isWide src.num 0 dst.num false ++ [(op.digit <<< 3) ||| 1] ++ direct src.num dst.num
  | aluRegImm op size reg imm =>
    let head := rex size.isWide 0 0 reg.num false
    if fitsByte imm then head ++ [0x83] ++ direct op.digit reg.num ++ imm8 imm
    else head ++ [0x81] ++ direct op.digit reg.num ++ imm32 imm
  | aluRegMem op size reg m =>
    m.rex size.isWide reg.num false ++ [(op.digit <<< 3) ||| 3] ++ m.encode reg.num
  | aluMemReg op size m reg =>
    m.rex size.isWide reg.num false ++ [(op.digit <<< 3) ||| 1] ++ m.encode reg.num
  | aluMemImm op size m imm =>
    let head := m.rex size.isWide 0 false
    if fitsByte imm then head ++ [0x83] ++ m.encode op.digit ++ imm8 imm
    else head ++ [0x81] ++ m.encode op.digit ++ imm32 imm
  | imul size dst src =>
    rex size.isWide dst.num 0 src.num false ++ [0x0f, 0xaf] ++ direct dst.num src.num
  | idiv size reg => rex size.isWide 0 0 reg.num false ++ [0xf7] ++ direct 7 reg.num
  | cqo => [0x48, 0x99]
  | cdq => [0x99]
  | shiftCl op size reg => rex size.isWide 0 0 reg.num false ++ [0xd3] ++ direct op.digit reg.num
  | shiftImm op size reg count =>
    rex size.isWide 0 0 reg.num false ++ [0xc1] ++ direct op.digit reg.num ++ [count]
  | movssLoad x m => sseIndirect [0xf3] false 0x10 x.num m
  | movssStore m x => sseIndirect [0xf3] false 0x11 x.num m
  | sseReg op dst src => sseDirect [0xf3] false op.code dst.num src.num
  | sseMem op x m => sseIndirect [0xf3] false op.code x.num m
  | ucomissMem x m => sseIndirect [] false 0x2e x.num m
  | cvtss2si size dst src => sseDirect [0xf3] size.isWide 0x2d dst.num src.num
  | cvtsi2ss size dst src => sseDirect [0xf3] size.isWide 0x2a dst.num src.num
  | cvtsi2ssMem size dst m => sseIndirect [0xf3] size.isWide 0x2a dst.num m
  | setcc cond reg =>
    rex false 0 0 reg.num reg.needsByteRex ++ [0x0f, 0x90 ||| (cond.code &&& 0xf)]
      ++ direct 0 reg.num
  | jccShort cond rel => [0x70 ||| (cond.code &&& 0xf), rel.toUInt8]
  | ret => [0xc3]
  | push reg => rex false 0 0 reg.num false ++ [0x50 ||| (reg.num &&& 7)]
  | pop reg => rex false 0 0 reg.num false ++ [0x58 ||| (reg.num &&& 7)]
  | repMovs .byte => [0xf3, 0xa4]
  | repMovs .word => [0xf3, 0x66, 0xa5]
  | repMovs .dword => [0xf3, 0xa5]
  | repMovs .qword => [0xf3, 0x48, 0xa5]

/-- The length of an instruction's machine code. -/
def Inst.length (i : Inst) : Nat := i.encode.length

/-- The machine code of a row of instructions. -/
def encodeAll (is : List Inst) : List UInt8 := is.flatMap Inst.encode

end BlockVM.X86
