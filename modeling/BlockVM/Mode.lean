import BlockVM.Fault
import BlockVM.Text.Blank
import BlockVM.Text.Quoted

/-!
# Execution modes

Straight-line code is either compiled and run as machine code, or evaluated one instruction at a
time.
-/

namespace BlockVM

inductive Mode where
  /-- Compile blocks and run them. -/
  | jit
  /-- Evaluate every instruction. -/
  | interpret
deriving DecidableEq, Repr

namespace Mode

def all : List Mode := [jit, interpret]

def name : Mode → String
  | jit => "jit"
  | interpret => "interpreter"

def code : Mode → Nat
  | jit => 0
  | interpret => 1

/-- The name of the mode with a code, or the code itself where there is no such mode. -/
def nameOfCode (n : Int64) : String :=
  match all.find? fun m => n.toInt == m.code with
  | some m => m.name
  | none => "mode(" ++ toString n.toInt ++ ")"

/-- Reads a mode, whatever its case and the blanks around it; no text means the first one. -/
def parse (s : String) : Except Failure Mode :=
  let word := String.ofList ((Text.trim s.toList).map Text.toLower)
  if word = "" ∨ word = "jit" then .ok jit
  else if word = "interpreter" ∨ word = "interpret" then .ok interpret
  else .error (.ofText ("unknown execution mode " ++ Text.quoted s))

end Mode

end BlockVM
