import BlockVM.Isa.Family
import BlockVM.Isa.Kind
import BlockVM.Numeric.Instances
import BlockVM.Text.Hex

/-!
# The opcode table

An opcode is a 16-bit number. It selects a family and the kinds of the operands, so the length of
an instruction depends on its opcode alone. The table is dense: opcode `n` is the `n`-th entry, and
`definitions` lists the entries in order, family by family.

A mnemonic is the family's name followed by one token per operand, all joined by `_`. In port
instructions the token of the value operand also carries the width of the port access.
-/

namespace BlockVM.Isa

def opcodeSize : Nat := 2

/-- An operand slot as a mnemonic shows it. -/
structure Slot where
  token : String
  kind : Kind
deriving DecidableEq, Repr

/-- A slot under its kind's own token. -/
def Slot.plain (k : Kind) : Slot := ⟨k.name, k⟩

/-- One entry of the table before it has a number. -/
structure Definition where
  family : Family
  /-- Bytes of a port access, 0 for other families. -/
  width : Nat
  slots : List Slot
deriving DecidableEq, Repr

/-- The description of one opcode. -/
structure Info where
  op : Nat
  name : String
  family : Family
  kinds : List Kind
  width : Nat
deriving DecidableEq, Repr

/-- Encoded bytes of an instruction: the opcode and its operands. -/
def Info.length (i : Info) : Nat := opcodeSize + (i.kinds.map Kind.size).sum

/-- Whether the opcode transfers control. -/
def Info.isControl (i : Info) : Bool := i.family.isControl

/-! ## Addressing modes -/

open Kind

def intLocations : List Kind := [reg, mem, ptr]
def intSources : List Kind := [reg, mem, ptr, imm32]
def floatLocations : List Kind := [freg, fmem, fptr]
def floatSources : List Kind := [freg, fmem, fptr, fimm]

/-- Every destination with every source. -/
def cross (dsts srcs : List Kind) : List (List Kind) :=
  dsts.flatMap fun d => srcs.map fun s => [d, s]

/-- Modes of integer arithmetic: locations with locations, then locations with a constant. -/
def intModes : List (List Kind) :=
  cross intLocations intLocations ++ cross intLocations [imm32]

/-- Modes of float arithmetic: a float destination with any source, or an integer destination with a
float source. Two float operands in memory never meet. -/
def floatModes : List (List Kind) :=
  cross [freg] [freg, fmem, fptr, fimm, reg, mem, ptr]
    ++ cross [fmem, fptr] [freg, fimm, reg, mem, ptr]
    ++ cross intLocations floatSources

/-! ## The entries -/

/-- A family in modes that show their kinds' own tokens. -/
def family (f : Family) (width : Nat) (modes : List (List Kind)) : List Definition :=
  modes.map fun kinds => ⟨f, width, kinds.map Slot.plain⟩

/-- A register that takes part in a port access of `w` bytes. -/
def portReg (w : Nat) : Slot := ⟨"R" ++ toString (8 * w), reg⟩

/-- A constant written to a port of `w` bytes. -/
def portImm (w : Nat) : Slot :=
  ⟨"IMMI" ++ toString (8 * w),
    if w = 1 then imm8 else if w = 2 then imm16 else if w = 4 then imm32 else imm64⟩

def portWidths : List Nat := [1, 2, 4, 8]

def outputModes (w : Nat) : List (List Slot) := [
  [.plain reg, portImm w],
  [.plain imm32, portReg w],
  [.plain reg, portReg w],
  [.plain imm32, portImm w]]

def inputModes (w : Nat) : List (List Slot) := [
  [portReg w, .plain imm32],
  [portReg w, .plain reg]]

/-- Port instructions of one family at every width. -/
def portFamily (f : Family) (modes : Nat → List (List Slot)) : List Definition :=
  portWidths.flatMap fun w => (modes w).map fun slots => ⟨f, w, slots⟩

/-- The entries of the table in order. -/
def definitions : List Definition :=
  family .mov 0 intModes ++ family .mov 0 [[reg, imm64]]
    ++ [Family.add, .sub, .mul, .div, .mod, .and, .or, .xor].flatMap (family · 0 intModes)
    ++ family .movp 0 [[reg, quadMem], [quadMem, reg], [reg, quadPtr], [quadPtr, reg]]
    ++ family .bmov 0 [[reg, byteMem], [byteMem, reg], [reg, bytePtr], [bytePtr, reg],
      [byteMem, imm8], [bytePtr, imm8], [byteMem, byteMem], [bytePtr, bytePtr]]
    ++ [Family.shl, .shr].flatMap (family · 0 (cross intLocations [reg, mem, ptr, imm8]))
    ++ family .push 0 [[reg]] ++ family .pop 0 [[reg]]
    ++ family .pushes 0 [[reg, reg]] ++ family .pops 0 [[reg, reg]]
    ++ family .fpush 0 [[freg]] ++ family .fpop 0 [[freg]]
    ++ family .fpushes 0 [[freg, freg]] ++ family .fpops 0 [[freg, freg]]
    ++ [Family.cmpe, .cmpne, .cmpg, .cmpl, .cmpge, .cmple].flatMap
      (family · 0 [[reg, reg], [reg, imm32]])
    ++ [Family.fcmpe, .fcmpne, .fcmpg, .fcmpl, .fcmpge, .fcmple].flatMap
      (family · 0 [[reg, freg, freg]])
    ++ family .fcon 0 (cross intLocations floatSources)
    ++ family .fcon 0 (cross floatLocations intSources)
    ++ family .fmov 0 (cross floatLocations floatSources)
    ++ [Family.fadd, .fsub, .fmul, .fdiv, .fmod].flatMap (family · 0 floatModes)
    ++ portFamily .output outputModes ++ portFamily .input inputModes
    ++ family .foutput 4 [[imm32, freg], [imm32, fimm]]
    ++ family .finput 4 [[freg, imm32]]
    ++ family .draw 0 [[reg, reg, reg], [reg, reg, mem]]
    ++ [Family.nop, .time, .sleep, .rand].flatMap (family · 0 [[]])
    ++ family .jmp 0 [[addr]] ++ family .jmpr 0 [[disp]]
    ++ family .jc 0 [[reg, addr]] ++ family .jcr 0 [[reg, disp]]
    ++ family .call 0 [[addr]] ++ family .ret 0 [[]]

/-- The description of an entry at a place of the table. -/
def Definition.info (d : Definition) (op : Nat) : Info where
  op := op
  name := "_".intercalate (d.family.name :: d.slots.map (·.token))
  family := d.family
  kinds := d.slots.map (·.kind)
  width := d.width

/-- The opcode table. -/
def table : Array Info := (definitions.mapIdx fun op d => d.info op).toArray

/-- The description of opcode `op`. -/
def lookup (op : UInt16) : Option Info := table[op.toNat]?

/-- The description of the opcode with a mnemonic. -/
def byName (name : String) : Option Info := table.find? fun i => i.name == name

/-- The description of a mnemonic that the caller knows to exist. -/
def require (name : String) : Except String Info :=
  match byName name with
  | some i => .ok i
  | none => .error ("isa: unknown mnemonic " ++ name)

/-- The mnemonic of an opcode, or its number where it has none. -/
def opcodeName (op : UInt16) : String :=
  match lookup op with
  | some i => i.name
  | none => "op(0x" ++ Hex.padded 4 op.toNat ++ ")"

end BlockVM.Isa
