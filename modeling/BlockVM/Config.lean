import BlockVM.Machine.State
import BlockVM.Toml.Document

/-!
# Configuration of the runner

The settings of a run come from a file over the defaults, and the environment has the last word on
the execution mode. Keys are matched without regard to case, and keys without a meaning are ignored;
a value of the wrong kind is an error.
-/

namespace BlockVM

/-- The settings of the runner. Empty texts switch their features off. -/
structure Config where
  mode : String := Mode.jit.name
  /-- The step in which code buffers grow. -/
  codeIncrement : Int64 := 10240
  /-- Where random numbers start; 0 picks a start. -/
  seed : UInt64 := 0
  verbosity : Int64 := 1
  logFile : String := ""
  journal : String := ""
  monitorAddress : String := ""
  monitorKey : String := ""
  metricsAddress : String := ""
deriving DecidableEq, Repr

namespace Config

/-- Why there is no configuration. -/
inductive Problem where
  | missing
  | syntactic
  | invalid (f : Failure)
deriving DecidableEq, Repr

def text? : Toml.Value → Option String
  | .string s => some s
  | _ => none

def integer? : Toml.Value → Option Int
  | .integer i => some i
  | _ => none

/-- Applies the entries of a table whose keys have a meaning. -/
def overlay? (fields : List (String × (Config → Toml.Value → Option Config))) (c : Config)
    (t : Toml.Table) : Option Config :=
  t.foldlM (fun c (k, v) =>
    match fields.find? fun (name, _) => Text.equalFold name k with
    | some (_, set) => set c v
    | none => some c) c

/-- Applies the entries of a table that is a value. -/
def section? (fields : List (String × (Config → Toml.Value → Option Config))) (c : Config) :
    Toml.Value → Option Config
  | .table _ t => overlay? fields c t
  | _ => none

/-- Applies a file to a configuration. -/
def overlayFile? (c : Config) (t : Toml.Table) : Option Config :=
  overlay? [
    ("mode", fun c v => (text? v).map fun s => { c with mode := s }),
    ("engine", section? [
      ("code-increment", fun c v => (integer? v).map fun i => { c with codeIncrement := .ofInt i }),
      ("seed", fun c v => (integer? v).map fun i => { c with seed := .ofInt i })]),
    ("log", section? [
      ("verbosity", fun c v => (integer? v).map fun i => { c with verbosity := .ofInt i }),
      ("file", fun c v => (text? v).map fun s => { c with logFile := s })]),
    ("journal", section? [
      ("path", fun c v => (text? v).map fun s => { c with journal := s })]),
    ("monitor", section? [
      ("addr", fun c v => (text? v).map fun s => { c with monitorAddress := s }),
      ("key", fun c v => (text? v).map fun s => { c with monitorKey := s })]),
    ("metrics", section? [
      ("addr", fun c v => (text? v).map fun s => { c with metricsAddress := s })])] c t

/-- Refuses settings that could not be used. -/
def validate (c : Config) : Except Failure Unit := do
  let _ ← Mode.parse c.mode
  if c.codeIncrement ≤ 0 then
    throw (.ofText ("engine.code-increment must be positive, got "
      ++ toString c.codeIncrement.toInt))

/-- Where a configuration comes from. -/
inductive Source where
  | defaults
  | missing
  | file (text : String)

/-- The configuration from a source, with the mode that the environment asks for, if it does. -/
def load (source : Source) (mode : String) : Except Problem Config := do
  let c ← match source with
    | .defaults => .ok {}
    | .missing => .error .missing
    | .file text =>
      match (Toml.parse? text).bind (overlayFile? {}) with
      | some c => .ok c
      | none => .error .syntactic
  let c := if mode = "" then c else { c with mode }
  c.validate.mapError .invalid
  return c

def options (c : Config) : Except Failure Options := do
  return { mode := ← Mode.parse c.mode, increment := c.codeIncrement, seed := c.seed }

end Config

end BlockVM
