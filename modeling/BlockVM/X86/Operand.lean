import BlockVM.Bytes.LittleEndian
import BlockVM.Text.Hex

/-!
# Operands of x86-64 instructions

Registers, condition codes and operation codes are kept as the numbers that the encoding uses. Of a
register number the encoding takes the low three bits and bit 3; the names cover the sixteen
registers that exist.
-/

namespace BlockVM.X86

/-- A general purpose register. -/
structure Reg where
  num : UInt8
deriving DecidableEq, Repr

namespace Reg

def rax : Reg := ⟨0⟩
def rcx : Reg := ⟨1⟩
def rdx : Reg := ⟨2⟩
def rsp : Reg := ⟨4⟩
def rsi : Reg := ⟨6⟩
def rdi : Reg := ⟨7⟩
def r8 : Reg := ⟨8⟩
def r9 : Reg := ⟨9⟩
def r11 : Reg := ⟨11⟩

def names : List String := [
  "rax", "rcx", "rdx", "rbx", "rsp", "rbp", "rsi", "rdi",
  "r8", "r9", "r10", "r11", "r12", "r13", "r14", "r15"]

def name (r : Reg) : String :=
  names.getD r.num.toNat ("reg(" ++ toString r.num.toNat ++ ")")

/-- As a byte operand the register needs a REX prefix, which selects its low byte instead of the
second byte of another register. -/
def needsByteRex (r : Reg) : Bool := 4 ≤ r.num && r.num ≤ 7

end Reg

/-- An SSE register. -/
structure Xmm where
  num : UInt8
deriving DecidableEq, Repr

def Xmm.name (x : Xmm) : String := "xmm" ++ toString x.num.toNat

/-- The size of a move. -/
inductive Width where
  | byte
  | word
  | dword
  | qword
deriving DecidableEq, Repr

def Width.ofBits? (bits : UInt8) : Option Width :=
  if bits = 8 then some .byte
  else if bits = 16 then some .word
  else if bits = 32 then some .dword
  else if bits = 64 then some .qword
  else none

def Width.bytes : Width → Nat
  | byte => 1
  | word => 2
  | dword => 4
  | qword => 8

def Width.bits (w : Width) : Nat := 8 * w.bytes

def bytesOfBits (bits : UInt8) : Nat := bits.toNat / 8

/-- The size of an arithmetic operation. -/
inductive Size where
  | dword
  | qword
deriving DecidableEq, Repr

def Size.ofBits? (bits : UInt8) : Option Size :=
  if bits = 32 then some .dword else if bits = 64 then some .qword else none

/-- The REX bit of a 64-bit operation. -/
def Size.isWide : Size → Bool
  | dword => false
  | qword => true

def Size.bytes : Size → Nat
  | dword => 4
  | qword => 8

def Size.countMask : Size → UInt8
  | dword => 31
  | qword => 63

/-- A two-operand integer operation: the digit of its immediate forms. -/
structure AluOp where
  digit : UInt8
deriving DecidableEq, Repr

namespace AluOp

def add : AluOp := ⟨0⟩
def or : AluOp := ⟨1⟩
def adc : AluOp := ⟨2⟩
def sbb : AluOp := ⟨3⟩
def and : AluOp := ⟨4⟩
def sub : AluOp := ⟨5⟩
def xor : AluOp := ⟨6⟩
def cmp : AluOp := ⟨7⟩

def names : List String := ["add", "or", "adc", "sbb", "and", "sub", "xor", "cmp"]

def name (op : AluOp) : String := names.getD (op.digit &&& 7).toNat ""

end AluOp

/-- A shift or rotation: the digit of its opcode group. -/
structure ShiftOp where
  digit : UInt8
deriving DecidableEq, Repr

namespace ShiftOp

def rol : ShiftOp := ⟨0⟩
def ror : ShiftOp := ⟨1⟩
def shl : ShiftOp := ⟨4⟩
def shr : ShiftOp := ⟨5⟩
def sar : ShiftOp := ⟨7⟩

def name (op : ShiftOp) : String :=
  if op = rol then "rol"
  else if op = ror then "ror"
  else if op = shl then "shl"
  else if op = shr then "shr"
  else if op = sar then "sar"
  else "shift(" ++ toString op.digit.toNat ++ ")"

end ShiftOp

/-- A scalar single-precision operation: its opcode after `F3 0F`. -/
structure SseOp where
  code : UInt8
deriving DecidableEq, Repr

namespace SseOp

def sqrt : SseOp := ⟨0x51⟩
def add : SseOp := ⟨0x58⟩
def mul : SseOp := ⟨0x59⟩
def sub : SseOp := ⟨0x5c⟩
def min : SseOp := ⟨0x5d⟩
def div : SseOp := ⟨0x5e⟩
def max : SseOp := ⟨0x5f⟩

def all : List SseOp := [sqrt, add, mul, sub, min, div, max]

end SseOp

/-- A condition code; only its low four bits count. -/
structure Cond where
  code : UInt8
deriving DecidableEq, Repr

namespace Cond

def below : Cond := ⟨0x2⟩
def aboveEqual : Cond := ⟨0x3⟩
def equal : Cond := ⟨0x4⟩
def notEqual : Cond := ⟨0x5⟩
def belowEqual : Cond := ⟨0x6⟩
def above : Cond := ⟨0x7⟩
def less : Cond := ⟨0xc⟩
def greaterEqual : Cond := ⟨0xd⟩
def lessEqual : Cond := ⟨0xe⟩
def greater : Cond := ⟨0xf⟩

def names : List String := [
  "o", "no", "b", "ae", "e", "ne", "be", "a",
  "s", "ns", "p", "np", "l", "ge", "le", "g"]

def name (c : Cond) : String := names.getD (c.code &&& 0xf).toNat ""

end Cond

/-- The factor of an index register. -/
inductive Scale where
  | one
  | two
  | four
  | eight
deriving DecidableEq, Repr

namespace Scale

def ofFactor? (n : UInt8) : Option Scale :=
  if n = 1 then some .one
  else if n = 2 then some .two
  else if n = 4 then some .four
  else if n = 8 then some .eight
  else none

def factor : Scale → UInt8
  | one => 1
  | two => 2
  | four => 4
  | eight => 8

/-- The binary logarithm, as the encoding has it. -/
def bits : Scale → UInt8
  | one => 0
  | two => 1
  | four => 2
  | eight => 3

end Scale

/-- A memory operand. -/
inductive Mem where
  | based (base : Reg) (disp : Int32)
  | indexed (base index : Reg) (scale : Scale) (disp : Int32)
  /-- Relative to the end of the instruction. -/
  | relative (disp : Int32)
deriving DecidableEq, Repr

/-- Why an instruction has no encoding. -/
inductive EncodeError where
  | unsupportedWidth (what : String) (bits : UInt8)
  | stackPointerIndex
  | invalidScale (factor : UInt8)
deriving DecidableEq, Repr

def EncodeError.message : EncodeError → String
  | unsupportedWidth what bits =>
    "x86: " ++ what ++ ": unsupported width " ++ toString bits.toNat
  | stackPointerIndex => "x86: rsp cannot be an index register"
  | invalidScale factor => "x86: invalid scale " ++ toString factor.toNat

/-- A signed number with its sign always shown. -/
def signedText (i : Int) : String := if i < 0 then toString i else "+" ++ toString i

namespace Mem

/-- An operand with an index, unless the index or its factor is impossible. -/
def withIndex (base index : Reg) (factor : UInt8) (disp : Int32) : Except EncodeError Mem :=
  if index = .rsp then .error .stackPointerIndex
  else match Scale.ofFactor? factor with
    | some scale => .ok (.indexed base index scale disp)
    | none => .error (.invalidScale factor)

def text : Mem → String
  | based base disp => "[" ++ base.name ++ signedText disp.toInt ++ "]"
  | indexed base index scale disp =>
    "[" ++ base.name ++ "+" ++ index.name ++ "*" ++ toString scale.factor.toNat
      ++ signedText disp.toInt ++ "]"
  | relative disp => "[rip" ++ signedText disp.toInt ++ "]"

end Mem

end BlockVM.X86
