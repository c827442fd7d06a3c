import BlockVM.Block.Operand

/-!
# Actions

What an instruction asks for, with its operands in their roles. The evaluator performs actions and
the compiler lowers them, so the two agree on which operand is which.
-/

namespace BlockVM

open Isa (Inst Kind Family)

/-- Integer arithmetic. -/
inductive ArithOp where
  | add | sub | mul | div | mod | and | or | xor | shl | shr
deriving DecidableEq, Repr

/-- Comparisons. -/
inductive Relation where
  | equal | notEqual | greater | less | greaterEqual | lessEqual
deriving DecidableEq, Repr

/-- Float arithmetic. -/
inductive FloatOp where
  | add | sub | mul | div | mod
deriving DecidableEq, Repr

/-- Consecutive registers of one file. -/
structure RegRange where
  float : Bool
  first : UInt8
  count : Nat
deriving DecidableEq, Repr

namespace RegRange

/-- Bytes that one register of the range takes on the stack. -/
def slotSize (r : RegRange) : Nat := if r.float then 4 else 8

/-- Bytes that the range takes on the stack. -/
def bytes (r : RegRange) : Nat := r.count * r.slotSize

def single (float : Bool) (o : Operand) : RegRange := ⟨float, o.index, 1⟩

/-- The registers from one to another, both included. -/
def between (float : Bool) (first last : Operand) : RegRange :=
  ⟨float, first.index, last.index.toNat + 1 - first.index.toNat⟩

end RegRange

/-- What only the host can do. -/
inductive Service where
  | output (port value : Operand) (width : Nat)
  | input (dst port : Operand) (width : Nat)
  | foutput (port value : Operand)
  | finput (dst port : Operand)
  | draw (x y image : Operand)
  | time
  | sleep
  | rand
deriving DecidableEq, Repr

/-- What an instruction asks for. -/
inductive Action where
  | move (dst src : Operand)
  | arith (op : ArithOp) (dst src : Operand)
  /-- Writes 1 or 0 to the first operand: how its low 32 bits compare with those of the second. -/
  | compare (rel : Relation) (dst src : Operand)
  | fcompare (rel : Relation) (dst a b : Operand)
  /-- Moves a float, converting from or to an integer where an operand is one. -/
  | fmove (dst src : Operand)
  | farith (op : FloatOp) (dst src : Operand)
  /-- Pushes one register. -/
  | push (reg : RegRange)
  /-- Pops one register. -/
  | pop (reg : RegRange)
  /-- Pushes registers in ascending order. -/
  | pushRange (regs : RegRange)
  /-- Pops registers that were pushed in ascending order. -/
  | popRange (regs : RegRange)
  | nop
  | service (s : Service)
deriving DecidableEq, Repr

namespace Action

def arith? : Family → Option ArithOp
  | .add => some .add
  | .sub => some .sub
  | .mul => some .mul
  | .div => some .div
  | .mod => some .mod
  | .and => some .and
  | .or => some .or
  | .xor => some .xor
  | .shl => some .shl
  | .shr => some .shr
  | _ => none

/-- The comparison of a family of integer comparisons. -/
def relation? : Family → Option Relation
  | .cmpe => some .equal
  | .cmpne => some .notEqual
  | .cmpg => some .greater
  | .cmpl => some .less
  | .cmpge => some .greaterEqual
  | .cmple => some .lessEqual
  | _ => none

/-- The comparison of a family of float comparisons. -/
def floatRelation? : Family → Option Relation
  | .fcmpe => some .equal
  | .fcmpne => some .notEqual
  | .fcmpg => some .greater
  | .fcmpl => some .less
  | .fcmpge => some .greaterEqual
  | .fcmple => some .lessEqual
  | _ => none

/-- The arithmetic of a float family. -/
def floatArith? : Family → Option FloatOp
  | .fadd => some .add
  | .fsub => some .sub
  | .fmul => some .mul
  | .fdiv => some .div
  | .fmod => some .mod
  | _ => none

/-- The action of a family with no operand. -/
def ofNone? : Family → Option Action
  | .nop => some .nop
  | .time => some (.service .time)
  | .sleep => some (.service .sleep)
  | .rand => some (.service .rand)
  | _ => none

/-- The action of a family with one operand. -/
def ofOne? (a : Operand) : Family → Option Action
  | .push => some (.push (.single false a))
  | .pop => some (.pop (.single false a))
  | .fpush => some (.push (.single true a))
  | .fpop => some (.pop (.single true a))
  | _ => none

/-- The action of a family with two operands; `width` is that of a port access. -/
def ofTwo? (width : Nat) (a b : Operand) (f : Family) : Option Action :=
  match f with
  | .mov | .movp | .bmov => some (.move a b)
  | .fmov | .fcon => some (.fmove a b)
  | .pushes => some (.pushRange (.between false a b))
  | .pops => some (.popRange (.between false a b))
  | .fpushes => some (.pushRange (.between true a b))
  | .fpops => some (.popRange (.between true a b))
  | .output => some (.service (.output a b width))
  | .input => some (.service (.input a b width))
  | .foutput => some (.service (.foutput a b))
  | .finput => some (.service (.finput a b))
  | _ =>
    match arith? f, relation? f, floatArith? f with
    | some op, _, _ => some (.arith op a b)
    | none, some rel, _ => some (.compare rel a b)
    | none, none, some op => some (.farith op a b)
    | none, none, none => none

/-- The action of a family with three operands. -/
def ofThree? (a b c : Operand) (f : Family) : Option Action :=
  match f, floatRelation? f with
  | .draw, _ => some (.service (.draw a b c))
  | _, some rel => some (.fcompare rel a b c)
  | _, none => none

/-- The action of a family on its operands. -/
def of? (f : Family) (width : Nat) : List Operand → Option Action
  | [] => ofNone? f
  | [a] => ofOne? a f
  | [a, b] => ofTwo? width a b f
  | [a, b, c] => ofThree? a b c f
  | _ => none

/-- The action of an instruction that is not control flow. -/
def ofInst (i : Inst) (globalSize : Int64) : Except Stop Action := do
  let ops ← prepare i globalSize
  match of? i.family i.info.width ops with
  | some a => return a
  | none => throw (.fault .invalidOpcode i.pc (i.name ++ " has no evaluator"))

/-- Whether generated code leaves the action to the host. -/
def isHosted : Action → Bool
  | service _ | farith .mod _ _ => true
  | _ => false

end Action

end BlockVM
