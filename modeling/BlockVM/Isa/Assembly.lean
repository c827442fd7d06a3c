import BlockVM.Isa.Decode
import BlockVM.Text.Quoted

/-!
# Assembly

A program is written as a list of statements: instructions, labels, branches to labels and raw
bytes. `Draft` is the program under construction; `Draft.finish` resolves the labels.

The first error is kept and later instructions are dropped, while labels and raw bytes still take
effect, so the address after each statement stays defined. An instruction with a register number
that does not fit keeps the bytes written before that operand.
-/

namespace BlockVM.Isa

/-- One line of a program. -/
inductive Statement where
  | emit (mnemonic : String) (args : List UInt64)
  | label (name : String)
  /-- An instruction whose address or displacement is that of a label; `args` are its other
  operands in order. -/
  | branch (mnemonic : String) (target : String) (args : List UInt64)
  | raw (bytes : List UInt8)
deriving DecidableEq, Repr

/-- Why a program cannot be assembled. -/
inductive AssemblyError where
  | labelTwice (name : String)
  | unknownMnemonic (name : String)
  | operandCount (mnemonic : String) (takes got : Nat)
  | missingOperand (mnemonic : String) (slot : Nat)
  | notABranch (mnemonic : String)
  | registerRange (mnemonic : String) (value : UInt64)
  | undefinedLabel (name : String) (pc : Int64)
deriving DecidableEq, Repr

def AssemblyError.message : AssemblyError → String
  | labelTwice name => "label " ++ Text.quoted name ++ " defined twice"
  | unknownMnemonic name => "unknown mnemonic " ++ Text.quoted name
  | operandCount mnemonic takes got =>
    mnemonic ++ " takes " ++ toString takes ++ " operands, got " ++ toString got
  | missingOperand mnemonic slot => mnemonic ++ ": missing operand " ++ toString slot
  | notABranch mnemonic => mnemonic ++ " cannot branch to a label with these operands"
  | registerRange mnemonic value =>
    mnemonic ++ ": register " ++ toString value.toNat ++ " out of range"
  | undefinedLabel name pc =>
    "undefined label " ++ Text.quoted name ++ " at " ++ Hex.ofInt pc.toInt

/-- A field that waits for the address of a label. -/
structure Fixup where
  /-- Offset of the field. -/
  pos : Nat
  /-- Address of the instruction. -/
  pc : Nat
  /-- Address of the following instruction. -/
  next : Nat
  kind : Kind
  target : String
deriving DecidableEq, Repr

/-- A program under construction. -/
structure Draft where
  code : Array UInt8 := #[]
  labels : List (String × Nat) := []
  fixups : List Fixup := []
  error : Option AssemblyError := none
deriving DecidableEq, Repr

namespace Draft

/-- The address of the next instruction. -/
def pc (d : Draft) : Nat := d.code.size

def fail (d : Draft) (e : AssemblyError) : Draft :=
  match d.error with
  | none => { d with error := some e }
  | some _ => d

/-- The bytes of the operands, up to the first register number that does not fit. -/
def operandBytes (mnemonic : String) :
    List Kind → List UInt64 → List UInt8 × Option AssemblyError
  | k :: ks, v :: vs =>
    if k.namesRegister && 0xff < v then ([], some (.registerRange mnemonic v))
    else
      let (rest, e) := operandBytes mnemonic ks vs
      (LittleEndian.bytes k.size v.toNat ++ rest, e)
  | _, _ => ([], none)

/-- Appends an instruction with all of its operands. -/
def encode (d : Draft) (info : Info) (args : List UInt64) : Draft :=
  let (fields, e) := operandBytes info.name info.kinds args
  let bytes := LittleEndian.bytes opcodeSize info.op ++ fields
  let d := { d with code := d.code ++ bytes.toArray }
  match e with
  | some e => d.fail e
  | none => d

def emit (d : Draft) (mnemonic : String) (args : List UInt64) : Draft :=
  match d.error with
  | some _ => d
  | none =>
    match byName mnemonic with
    | none => d.fail (.unknownMnemonic mnemonic)
    | some info =>
      if args.length = info.kinds.length then d.encode info args
      else d.fail (.operandCount mnemonic info.kinds.length args.length)

def label (d : Draft) (name : String) : Draft :=
  if (d.labels.lookup name).isSome then d.fail (.labelTwice name)
  else { d with labels := (name, d.pc) :: d.labels }

def raw (d : Draft) (bytes : List UInt8) : Draft :=
  { d with code := d.code ++ bytes.toArray }

def takesLabel (k : Kind) : Bool := k == .addr || k == .disp

/-- Spreads the given operands over the slots that no label fills, which get 0. Gives the operands
and those left over, or the slot that found none. -/
def spread : List Kind → Nat → List UInt64 → Except Nat (List UInt64 × List UInt64)
  | [], _, args => .ok ([], args)
  | k :: ks, i, args =>
    if takesLabel k then do
      let (full, left) ← spread ks (i + 1) args
      return (0 :: full, left)
    else match args with
      | [] => .error i
      | v :: vs => do
        let (full, left) ← spread ks (i + 1) vs
        return (v :: full, left)

/-- The last slot that a label can fill, with its offset from the instruction's start. -/
def labelSlot (kinds : List Kind) : Option (Kind × Nat) :=
  (go kinds opcodeSize none)
where
  go : List Kind → Nat → Option (Kind × Nat) → Option (Kind × Nat)
    | [], _, found => found
    | k :: ks, off, found => go ks (off + k.size) (if takesLabel k then some (k, off) else found)

def branch (d : Draft) (mnemonic target : String) (args : List UInt64) : Draft :=
  match d.error with
  | some _ => d
  | none =>
    match byName mnemonic with
    | none => d.fail (.unknownMnemonic mnemonic)
    | some info =>
      match spread info.kinds 0 args with
      | .error slot => d.fail (.missingOperand mnemonic slot)
      | .ok (full, left) =>
        match labelSlot info.kinds, left with
        | some (kind, off), [] =>
          let fixup : Fixup := ⟨d.pc + off, d.pc, d.pc + info.length, kind, target⟩
          let d := d.encode info full
          { d with fixups := d.fixups ++ [fixup] }
        | _, _ => d.fail (.notABranch mnemonic)

def add (d : Draft) : Statement → Draft
  | .emit mnemonic args => d.emit mnemonic args
  | .label name => d.label name
  | .branch mnemonic target args => d.branch mnemonic target args
  | .raw bytes => d.raw bytes

/-- The value of a fixed-up field: the label's address, or its distance from the next
instruction. -/
def Fixup.value (f : Fixup) (target : Nat) : UInt32 :=
  match f.kind with
  | .disp => (Int64.ofNat target - Int64.ofNat f.next).toInt32.toUInt32
  | _ => UInt32.ofNat target

def overwrite (code : Array UInt8) : Nat → List UInt8 → Array UInt8
  | _, [] => code
  | pos, b :: bs => overwrite (code.setIfInBounds pos b) (pos + 1) bs

/-- Fills the fields that wait for labels. -/
def resolve (labels : List (String × Nat)) :
    Array UInt8 → List Fixup → Except AssemblyError (Array UInt8)
  | code, [] => .ok code
  | code, f :: fs =>
    match labels.lookup f.target with
    | none => .error (.undefinedLabel f.target (Int64.ofNat f.pc))
    | some target =>
      resolve labels (overwrite code f.pos (LittleEndian.ofUInt32 (Fixup.value f target))) fs

/-- The program, or its first error; labels that are never defined are found last. -/
def finish (d : Draft) : Except AssemblyError (Array UInt8) :=
  match d.error with
  | some e => .error e
  | none => resolve d.labels d.code d.fixups

/-- The draft of a list of statements. -/
def ofStatements (ss : List Statement) : Draft := ss.foldl add {}

/-- The address after each statement. -/
def addresses : Draft → List Statement → List Nat
  | _, [] => []
  | d, s :: ss => (d.add s).pc :: addresses (d.add s) ss

end Draft

/-- Assembles a program. -/
def assemble (ss : List Statement) : Except AssemblyError (Array UInt8) :=
  (Draft.ofStatements ss).finish

end BlockVM.Isa
