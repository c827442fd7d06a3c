/-!
# Instruction families

Opcodes that differ in addressing mode only share a family, and the family decides what the
instruction does.
-/

namespace BlockVM.Isa

/-- What an instruction does, apart from where its operands live. -/
inductive Family where
  | mov | add | sub | mul | div | mod | and | or | xor | movp | bmov | shl | shr | push | pop
  | pushes | pops | fpush | fpop | fpushes | fpops | cmpe | cmpne | cmpg | cmpl | cmpge | cmple
  | fcmpe | fcmpne | fcmpg | fcmpl | fcmpge | fcmple | fcon | fmov | fadd | fsub | fmul | fdiv
  | fmod | output | input | foutput | finput | draw | nop | time | sleep | rand | jmp | jmpr
  | jc | jcr | call | ret
deriving DecidableEq, Repr

namespace Family

/-- Every family, in the order of their codes. -/
def all : List Family := [
  mov, add, sub, mul, div, mod, and, or, xor, movp, bmov, shl, shr, push, pop, pushes, pops,
  fpush, fpop, fpushes, fpops, cmpe, cmpne, cmpg, cmpl, cmpge, cmple, fcmpe, fcmpne, fcmpg,
  fcmpl, fcmpge, fcmple, fcon, fmov, fadd, fsub, fmul, fdiv, fmod, output, input, foutput,
  finput, draw, nop, time, sleep, rand, jmp, jmpr, jc, jcr, call, ret]

def name : Family → String
  | mov => "MOV"
  | add => "ADD"
  | sub => "SUB"
  | mul => "MUL"
  | div => "DIV"
  | mod => "MOD"
  | and => "AND"
  | or => "OR"
  | xor => "XOR"
  | movp => "MOVP"
  | bmov => "BMOV"
  | shl => "SHL"
  | shr => "SHR"
  | push => "PUSH"
  | pop => "POP"
  | pushes => "PUSHES"
  | pops => "POPS"
  | fpush => "FPUSH"
  | fpop => "FPOP"
  | fpushes => "FPUSHES"
  | fpops => "FPOPS"
  | cmpe => "CMPE"
  | cmpne => "CMPNE"
  | cmpg => "CMPG"
  | cmpl => "CMPL"
  | cmpge => "CMPGE"
  | cmple => "CMPLE"
  | fcmpe => "FCMPE"
  | fcmpne => "FCMPNE"
  | fcmpg => "FCMPG"
  | fcmpl => "FCMPL"
  | fcmpge => "FCMPGE"
  | fcmple => "FCMPLE"
  | fcon => "FCON"
  | fmov => "FMOV"
  | fadd => "FADD"
  | fsub => "FSUB"
  | fmul => "FMUL"
  | fdiv => "FDIV"
  | fmod => "FMOD"
  | output => "OUT"
  | input => "IN"
  | foutput => "FOUT"
  | finput => "FIN"
  | draw => "DRW"
  | nop => "NOP"
  | time => "TIME"
  | sleep => "SLEEP"
  | rand => "RAND"
  | jmp => "JMP"
  | jmpr => "JMPR"
  | jc => "JC"
  | jcr => "JCR"
  | call => "CALL"
  | ret => "RET"

def ofCode? (n : UInt8) : Option Family := all[n.toNat]?

/-- The mnemonic of the family with a code, or the code itself where there is no such family. -/
def nameOfCode (n : UInt8) : String :=
  match ofCode? n with
  | some f => f.name
  | none => "family(" ++ toString n.toNat ++ ")"

/-- Families that decide where the next instruction is. They end a block and are never compiled. -/
def isControl : Family → Bool
  | jmp | jmpr | jc | jcr | call | ret => true
  | _ => false

end Family

end BlockVM.Isa
