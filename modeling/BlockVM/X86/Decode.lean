import BlockVM.X86.Inst

/-!
# Decoding machine code

The inverse of encoding, for the opcodes that the encoder uses: prefixes, REX, opcode, ModR/M, SIB,
displacement and immediate are read in this order. Bytes that are no instruction of this set give
`none`. A byte operand without REX prefix whose register field is 4 to 7 means the second byte of
another register; no instruction here has such an operand.
-/

namespace BlockVM.X86

open LittleEndian

def takeNat (n : Nat) (bs : List UInt8) : Option (Nat × List UInt8) :=
  if n ≤ bs.length then some (value (bs.take n), bs.drop n) else none

/-- Reads a signed constant of one byte. -/
def takeImm8 (bs : List UInt8) : Option (Int32 × List UInt8) := do
  let (v, rest) ← takeNat 1 bs
  return ((UInt8.ofNat v).toInt8.toInt32, rest)

def takeImm32 (bs : List UInt8) : Option (Int32 × List UInt8) := do
  let (v, rest) ← takeNat 4 bs
  return ((UInt32.ofNat v).toInt32, rest)

/-- The bits of a REX prefix; all clear where there is none. -/
structure Rex where
  present : Bool
  w : Bool
  r : Bool
  x : Bool
  b : Bool
deriving DecidableEq, Repr

def Rex.ofByte (byte : UInt8) : Rex :=
  ⟨true, byte &&& 8 != 0, byte &&& 4 != 0, byte &&& 2 != 0, byte &&& 1 != 0⟩

def Rex.none : Rex := ⟨false, false, false, false, false⟩

def Rex.size (x : Rex) : Size := if x.w then .qword else .dword

/-- A three-bit register field with its fourth bit. -/
def extend (high : Bool) (low : UInt8) : UInt8 := if high then low ||| 8 else low

/-- Reads the REX prefix, if there is one. -/
def takeRex : List UInt8 → Rex × List UInt8
  | byte :: rest => if byte &&& 0xf0 = 0x40 then (.ofByte byte, rest) else (.none, byte :: rest)
  | [] => (.none, [])

/-- The operand that a ModR/M byte selects. -/
inductive Place where
  | reg (num : UInt8)
  | mem (m : Mem)
deriving DecidableEq, Repr

/-- Reads the displacement that the mode field asks for. -/
def takeDisp (mode : UInt8) (bs : List UInt8) : Option (Int32 × List UInt8) :=
  if mode = 0 then some (0, bs)
  else if mode = 1 then takeImm8 bs
  else takeImm32 bs

/-- Reads the SIB byte and the displacement of a memory operand. -/
def takeSib (x : Rex) (mode : UInt8) : List UInt8 → Option (Mem × List UInt8)
  | [] => none
  | byte :: rest => do
    let base := byte &&& 7
    let index := extend x.x ((byte >>> 3) &&& 7)
    if mode = 0 ∧ base = 5 then none
    let (disp, rest) ← takeDisp mode rest
    let base : Reg := ⟨extend x.b base⟩
    if index = 4 then
      if byte >>> 6 = 0 then return (.based base disp, rest) else none
    let scale ← Scale.ofFactor? ((1 : UInt8) <<< (byte >>> 6))
    return (.indexed base ⟨index⟩ scale disp, rest)

/-- Reads ModR/M and what follows it: the register field and the operand. -/
def takeModRM (x : Rex) : List UInt8 → Option (UInt8 × Place × List UInt8)
  | [] => none
  | byte :: rest => do
    let mode := byte >>> 6
    let reg := extend x.r ((byte >>> 3) &&& 7)
    let rm := byte &&& 7
    if mode = 3 then return (reg, .reg (extend x.b rm), rest)
    if rm = 4 then
      let (m, rest) ← takeSib x mode rest
      return (reg, .mem m, rest)
    if mode = 0 ∧ rm = 5 then
      let (disp, rest) ← takeImm32 rest
      return (reg, .mem (.relative disp), rest)
    let (disp, rest) ← takeDisp mode rest
    return (reg, .mem (.based ⟨extend x.b rm⟩ disp), rest)

/-- A register that can be a byte operand under the given prefix. -/
def byteReg (x : Rex) (num : UInt8) : Option Reg :=
  if !x.present && 4 ≤ num && num ≤ 7 then none else some ⟨num⟩

/-- Instructions with a two-byte opcode and no mandatory prefix. -/
def decode0F (x : Rex) (op : UInt8) (bs : List UInt8) : Option (Inst × List UInt8) := do
  let (reg, place, rest) ← takeModRM x bs
  match place with
  | .mem m =>
    if op = 0xb6 then return (.load .byte ⟨reg⟩ m, rest)
    if op = 0xb7 then return (.load .word ⟨reg⟩ m, rest)
    if op = 0x2e then return (.ucomissMem ⟨reg⟩ m, rest)
    none
  | .reg rm =>
    if op = 0xb6 then return (.movzxByte ⟨reg⟩ (← byteReg x rm), rest)
    if op = 0xaf then return (.imul x.size ⟨reg⟩ ⟨rm⟩, rest)
    if op &&& 0xf0 = 0x90 ∧ reg = 0 then
      return (.setcc ⟨op &&& 0xf⟩ (← byteReg x rm), rest)
    none

/-- Instructions with a two-byte opcode after the prefix `F3`. -/
def decodeF3 (x : Rex) (op : UInt8) (bs : List UInt8) : Option (Inst × List UInt8) := do
  let (reg, place, rest) ← takeModRM x bs
  match place with
  | .mem m =>
    if op = 0x10 then return (.movssLoad ⟨reg⟩ m, rest)
    if op = 0x11 then return (.movssStore m ⟨reg⟩, rest)
    if op = 0x2a then return (.cvtsi2ssMem x.size ⟨reg⟩ m, rest)
    if SseOp.all.contains ⟨op⟩ then return (.sseMem ⟨op⟩ ⟨reg⟩ m, rest)
    none
  | .reg rm =>
    if op = 0x2a then return (.cvtsi2ss x.size ⟨reg⟩ ⟨rm⟩, rest)
    if op = 0x2d then return (.cvtss2si x.size ⟨reg⟩ ⟨rm⟩, rest)
    if SseOp.all.contains ⟨op⟩ then return (.sseReg ⟨op⟩ ⟨reg⟩ ⟨rm⟩, rest)
    none

/-- Arithmetic with a constant that follows the operand. -/
def decodeAluImm (x : Rex) (digit : UInt8) (place : Place) (imm : Int32) : Inst :=
  match place with
  | .mem m => .aluMemImm ⟨digit⟩ x.size m imm
  | .reg rm => .aluRegImm ⟨digit⟩ x.size ⟨rm⟩ imm

/-- Instructions with a one-byte opcode and a ModR/M byte. -/
def decodeModRM (x : Rex) (op : UInt8) (bs : List UInt8) : Option (Inst × List UInt8) := do
  let (reg, place, rest) ← takeModRM x bs
  match place with
  | .mem m =>
    if op = 0x8b then return (.load (if x.w then .qword else .dword) ⟨reg⟩ m, rest)
    if op = 0x89 then return (.store (if x.w then .qword else .dword) m ⟨reg⟩, rest)
    if op = 0x88 then return (.store .byte m (← byteReg x reg), rest)
    if op = 0x8d ∧ x.w then return (.lea ⟨reg⟩ m, rest)
    if op = 0xc6 ∧ reg = 0 then
      let (imm, rest) ← takeImm8 rest
      return (.storeImm .byte m imm, rest)
    if op = 0xc7 ∧ reg = 0 then
      let (imm, rest) ← takeImm32 rest
      return (.storeImm (if x.w then .qword else .dword) m imm, rest)
    if op &&& 0xc7 = 0x01 then return (.aluMemReg ⟨op >>> 3⟩ x.size m ⟨reg⟩, rest)
    if op &&& 0xc7 = 0x03 then return (.aluRegMem ⟨op >>> 3⟩ x.size ⟨reg⟩ m, rest)
    if op = 0x83 then
      let (imm, rest) ← takeImm8 rest
      return (decodeAluImm x reg place imm, rest)
    if op = 0x81 then
      let (imm, rest) ← takeImm32 rest
      return (decodeAluImm x reg place imm, rest)
    none
  | .reg rm =>
    if op = 0xc7 ∧ reg = 0 ∧ x.w then
      let (imm, rest) ← takeImm32 rest
      return (.movRegImmSigned ⟨rm⟩ imm, rest)
    if op &&& 0xc7 = 0x01 then return (.aluRegReg ⟨op >>> 3⟩ x.size ⟨rm⟩ ⟨reg⟩, rest)
    if op = 0x83 then
      let (imm, rest) ← takeImm8 rest
      return (decodeAluImm x reg place imm, rest)
    if op = 0x81 then
      let (imm, rest) ← takeImm32 rest
      return (decodeAluImm x reg place imm, rest)
    if op = 0xf7 ∧ reg = 7 then return (.idiv x.size ⟨rm⟩, rest)
    if op = 0xd3 then return (.shiftCl ⟨reg⟩ x.size ⟨rm⟩, rest)
    if op = 0xc1 then
      let (count, rest) ← takeNat 1 rest
      return (.shiftImm ⟨reg⟩ x.size ⟨rm⟩ (UInt8.ofNat count), rest)
    none

/-- Instructions with a one-byte opcode and no ModR/M byte, then the others. -/
def decodePlain (x : Rex) (op : UInt8) (bs : List UInt8) : Option (Inst × List UInt8) := do
  let low : Reg := ⟨extend x.b (op &&& 7)⟩
  if op &&& 0xf8 = 0xb8 then
    if x.w then
      let (imm, rest) ← takeNat 8 bs
      return (.movRegImm64 low (UInt64.ofNat imm), rest)
    let (imm, rest) ← takeNat 4 bs
    return (.movRegImm32 low (UInt32.ofNat imm), rest)
  if op &&& 0xf8 = 0x50 then return (.push low, bs)
  if op &&& 0xf8 = 0x58 then return (.pop low, bs)
  if op &&& 0xf0 = 0x70 then
    let (rel, rest) ← takeNat 1 bs
    return (.jccShort ⟨op &&& 0xf⟩ (UInt8.ofNat rel).toInt8, rest)
  if op = 0xc3 then return (.ret, bs)
  if op = 0x99 then return (if x.w then .cqo else .cdq, bs)
  decodeModRM x op bs

/-- Instructions after the operand-size prefix: 16-bit stores. -/
def decodeWord (bs : List UInt8) : Option (Inst × List UInt8) :=
  match takeRex bs with
  | (x, op :: rest) => do
    let (reg, place, rest) ← takeModRM x rest
    match place with
    | .mem m =>
      if op = 0x89 then return (.store .word m ⟨reg⟩, rest)
      if op = 0xc7 ∧ reg = 0 then
        let (imm, rest) ← takeNat 2 rest
        return (.storeImm .word m (UInt16.ofNat imm).toInt16.toInt32, rest)
      none
    | .reg _ => none
  | (_, []) => none

/-- Instructions after the prefix `F3`: string copies and scalar floats. -/
def decodeRep (bs : List UInt8) : Option (Inst × List UInt8) :=
  match bs with
  | 0x66 :: 0xa5 :: rest => some (.repMovs .word, rest)
  | _ =>
    match takeRex bs with
    | (x, 0x0f :: op :: rest) => decodeF3 x op rest
    | (_, 0xa4 :: rest) => some (.repMovs .byte, rest)
    | (x, 0xa5 :: rest) => some (.repMovs (if x.w then .qword else .dword), rest)
    | _ => none

/-- Reads one instruction from the front of `bs`, and gives the bytes after it. -/
def decode (bs : List UInt8) : Option (Inst × List UInt8) :=
  match bs with
  | 0x66 :: rest => decodeWord rest
  | 0xf3 :: rest => decodeRep rest
  | _ =>
    match takeRex bs with
    | (x, 0x0f :: op :: rest) => decode0F x op rest
    | (x, op :: rest) => decodePlain x op rest
    | (_, []) => none

end BlockVM.X86
