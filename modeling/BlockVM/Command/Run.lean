import BlockVM.Command.Pack
import BlockVM.Config
import BlockVM.Machine.Group
import BlockVM.Monitor
import BlockVM.Text.HostPort

/-!
# Running images

`run` loads an image, runs it to its end and prints the statistics of its cores. The configuration
comes from a file and from flags, which win over it.
-/

namespace BlockVM.Command

def logFlags : List Flag := [
  ⟨"v", .signed, "log verbosity (0 quiet, 1 errors ... 5 debug); overrides the config", "0"⟩,
  ⟨"log-file", .text, "write logs to this file instead of stderr", ""⟩]

def runFlags : List Flag := [
  ⟨"config", .text, "path to a despair.toml file", ""⟩,
  ⟨"mode", .text, "execution mode: jit or interpreter", ""⟩,
  ⟨"journal", .text, "record the run in this journal directory", ""⟩,
  ⟨"monitor", .text, "serve snapshots over QUIC on this UDP address", ""⟩,
  ⟨"metrics", .text, "serve Prometheus metrics on this TCP address", ""⟩,
  ⟨"seed", .whole, "seed for RAND (0 picks one)", "0"⟩] ++ logFlags

/-- The statistics of a core, for printing. -/
def statsYaml (s : Stats) : Yaml := .fields [
  ("core", .int s.core.toInt),
  ("compiled", .nat s.compiled.toNat),
  ("executed", .nat s.executed.toNat),
  ("hits", .nat s.hits.toNat),
  ("serviceExits", .nat s.serviceExits.toNat),
  ("controls", .nat s.controls.toNat),
  ("interpreted", .nat s.interpreted.toNat),
  ("blocks", .nat s.blocks.toNat),
  ("codeBytes", .nat s.codeBytes.toNat),
  ("running", .bool s.running)]

/-- The configuration in a file, or the default one when there is no path. -/
def loadConfig (w : World) (path : String) : Except String Config := do
  let source ← if path = "" then pure Config.Source.defaults
    else match w.read path with
      | .ok b => pure (.file (String.fromUTF8? b.toByteArray |>.getD "\x00"))
      | .error e => throw ("cannot read " ++ path ++ ": " ++ e)
  match Config.load source w.mode with
  | .ok c => return c
  | .error .missing => throw ("cannot read " ++ path)
  | .error .syntactic => throw ("parse error in " ++ path)
  | .error (.invalid f) => throw f.message

/-- The configuration with the settings that flags ask for. -/
def overrule (c : Config) (g : Given) : Config :=
  let text (name given : String) : String :=
    let v := g.text runFlags name
    if v = "" then given else v
  let seed := g.whole runFlags "seed"
  { c with
    mode := text "mode" c.mode
    journal := text "journal" c.journal
    monitorAddress := text "monitor" c.monitorAddress
    metricsAddress := text "metrics" c.metricsAddress
    seed := if seed = 0 then c.seed else seed }

/-- Checks a key of the monitor: digits for the bytes of a seed. An empty text makes a new key. -/
def checkKey (key : String) : Except String Unit :=
  let bytes := key.toUTF8.toList
  match bytes.find? fun b => (Hex.digitValue? (Char.ofNat b.toNat)).isNone with
  | some b =>
    let c := Char.ofNat b.toNat
    let shown := if Text.isPrintable c then " '" ++ c.toString ++ "'" else ""
    .error ("encoding/hex: invalid byte: U+" ++ (Hex.padded 4 b.toNat).toUpper ++ shown)
  | none =>
    let size := bytes.length / 2
    if bytes.length % 2 = 1 then .error "encoding/hex: odd length hex string"
    else if size = Monitor.keySize ∨ key = "" then .ok ()
    else .error ("want " ++ toString Monitor.keySize ++ " bytes, got " ++ toString size)

/-- Sets a process up: the name of the program, its mode, its group, and the configuration. -/
def setUp (w : World) (g : Given) : Except String (String × Mode × Group × Config) := do
  match g.rest with
  | [path] =>
    let c := overrule (← loadConfig w (g.text runFlags "config")) g
    let o ← c.options.mapError Failure.message
    let program ← load .standard w path
    if c.metricsAddress ≠ "" then
      (HostPort.check "tcp" c.metricsAddress).mapError
        ("failed to start metrics server: listen tcp: " ++ ·)
    let seed := if o.seed = 0 then w.entropy else o.seed
    let p ← (Proc.new program { o with seed := seed }).mapError Failure.message
    if c.monitorAddress ≠ "" then
      (checkKey c.monitorKey).mapError ("monitor.key: " ++ ·)
      (HostPort.check "udp" c.monitorAddress).mapError
        (("failed to listen on " ++ c.monitorAddress ++ ": ") ++ ·)
    return (Image.id .standard program, o.mode, .ofProc p, c)
  | rest => throw ("expected one image path, got " ++ toString rest.length ++ " arguments")

/-- Keeps a record of a run. A journal that cannot be opened is left alone. -/
def keepRecord (w : World) (path : String) (r : Record) : World :=
  match w.journal path with
  | .error _ => w
  | .ok j =>
    let (fresh, later) := match w.fresh with
      | id :: later => (id, later)
      | [] => (RunId.none, [])
    { w.keep path (j.put fresh r).2 with fresh := later }

def run (w : World) (g : Given) : Reply :=
  match setUp w g with
  | .error e => { world := w, error := some e }
  | .ok (image, mode, group, c) =>
    let (group, result) := group.run
    let stats := group.snapshot
    let error := match result with
      | .ok () => none
      | .error e => some (stopText e)
    let w := if c.journal = "" then w
      else keepRecord w c.journal ⟨.none, image, mode.name, w.now, 0, error.getD "", stats⟩
    let canceled : Bool := match result with
      | .error (.failure f) => f.root? == some .canceled
      | _ => false
    { world := w
      stdout := (Yaml.list (stats.map statsYaml)).render
      error := if canceled then some "interrupted" else error }

end BlockVM.Command
