import BlockVM.Command.Pack
import BlockVM.Isa.Assembly
import BlockVM.Machine.Group

/-!
# The self test

`selftest` runs small programs in both execution modes and compares the global data that they leave.
-/

namespace BlockVM.Command

open Isa (Statement)

def selftestPrograms : List (String × List Statement) := [
  ("factorial", [
    .emit "MOV_R_IMMI" [0, 1],
    .emit "MOV_R_IMMI" [1, 10],
    .label "loop",
    .emit "MUL_R_R" [0, 1],
    .emit "SUB_R_IMMI" [1, 1],
    .emit "MOV_R_R" [2, 1],
    .emit "CMPE_R_IMMI" [2, 0],
    .branch "JC_R_ADDR" "loop" [2],
    .emit "MOV_M_R" [0, 0],
    .emit "RET" []]),
  ("float", [
    .emit "FMOV_FR_FIMMI" [0, 0x3fc00000],
    .emit "FMUL_FR_FIMMI" [0, 0x40400000],
    .emit "FADD_FR_FIMMI" [0, 0x3e800000],
    .emit "FMOV_FM_FR" [4, 0],
    .emit "FCON_R_FR" [3, 0],
    .emit "MOV_M_R" [8, 3],
    .emit "RET" []]),
  ("stack", [
    .emit "MOV_R_IMMI" [3, 7],
    .emit "PUSH_R" [3],
    .branch "CALL_ADDR" "double" [],
    .emit "POP_R" [4],
    .emit "MOV_M_R" [12, 4],
    .emit "RET" [],
    .label "double",
    .emit "ADD_R_R" [3, 3],
    .emit "MOV_M_R" [16, 3],
    .emit "RET" []]),
  ("bitwise", [
    .emit "MOV_R_IMMI" [5, 0xf0],
    .emit "SHR_R_IMMI8" [5, 4],
    .emit "XOR_R_IMMI" [5, 0xff],
    .emit "SHL_R_IMMI8" [5, 2],
    .emit "OR_R_IMMI" [5, 1],
    .emit "MOV_M_R" [20, 5],
    .emit "RET" []])]

/-- What came out for one program. -/
structure SelftestResult where
  name : String
  modes : List Mode := []
  error : Option String := none

def SelftestResult.isMatch (r : SelftestResult) : Bool := r.error.isNone

/-- The global data that a program leaves. -/
def globalAfter (p : Program) (mode : Mode) : Except String (List UInt8) := do
  let proc ← (Proc.new p { mode := mode, seed := 1 }).mapError Failure.message
  match (Group.ofProc proc).run with
  | (g, .ok ()) => return g.proc.global.bytes g.proc.host.memory
  | (_, .error e) => throw (stopText e)

def selftestOne (name : String) (statements : List Statement) : SelftestResult :=
  match Isa.assemble statements with
  | .error e => { name := name, error := some e.message }
  | .ok code =>
    let p : Program := ⟨⟨256, 16, 0, 0⟩, code, List.replicate 32 0⟩
    match globalAfter p .interpret with
    | .error e => { name := name, error := some (Mode.interpret.name ++ ": " ++ e) }
    | .ok reference =>
      match globalAfter p .jit with
      | .error e =>
        { name := name, modes := [.interpret], error := some (Mode.jit.name ++ ": " ++ e) }
      | .ok global =>
        let spaced (bs : List UInt8) : String :=
          " ".intercalate (bs.map fun b => Hex.padded 2 b.toNat)
        if global = reference then { name := name, modes := [.interpret, .jit] }
        else {
          name := name
          modes := [.interpret, .jit]
          error := some (Mode.jit.name ++ " global data " ++ spaced global ++ ", "
            ++ Mode.interpret.name ++ " " ++ spaced reference) }

def SelftestResult.yaml (r : SelftestResult) : Yaml := .fields ([
  ("name", .text r.name),
  ("modes", .list (r.modes.map fun m => .text m.name)),
  ("match", .bool r.isMatch)]
  ++ (r.error.map fun e => ("error", .text e)).toList)

/-- The results of all programs as text, and a complaint if some of them differ. -/
def selftest : String × Option String :=
  let results := selftestPrograms.map fun (name, statements) => selftestOne name statements
  let failed := (results.filter fun r => !r.isMatch).length
  ((Yaml.list (results.map SelftestResult.yaml)).render,
    if failed = 0 then none
    else some (toString failed ++ " of " ++ toString results.length ++ " programs diverged"))

end BlockVM.Command
