import BlockVM.Command.History
import BlockVM.Command.Selftest

/-!
# The command line

The first argument names a command, the others are for it. Failures are printed after the names of
the program and of the command; wrong flags are followed by a description of the right ones.
-/

namespace BlockVM.Command

/-- A command: its name, what it does, the flags that it takes, and how it is carried out. -/
structure Entry where
  name : String
  summary : String
  flags : List Flag
  action : World → Given → Reply

/-- A reply of a command that leaves the world alone. -/
def reply (w : World) : Except String String → Reply
  | .ok out => { world := w, stdout := out }
  | .error e => { world := w, error := some e }

/-- A reply of a command that changes the world. -/
def replyWith (w : World) : Except String (World × String) → Reply
  | .ok (w, out) => { world := w, stdout := out }
  | .error e => { world := w, error := some e }

def commands : List Entry := [
  ⟨"run", "execute an image", runFlags, run⟩,
  ⟨"pack", "build an image from raw code and global data", packFlags,
    fun w g => replyWith w (pack w g)⟩,
  ⟨"info", "describe an image", [], fun w g => reply w (info .standard Yaml.render w g)⟩,
  ⟨"history", "list journaled runs", historyFlags, fun w g => replyWith w (history w g)⟩,
  ⟨"monitor", "query a running process", monitorFlags, fun w g => reply w (monitor g)⟩,
  ⟨"selftest", "compare the recompiler against the interpreter", logFlags, fun w _ =>
    let (out, error) := selftest
    { world := w, stdout := out, error := error }⟩]

def overview : String :=
  "usage: despair <command> [flags]\n\ncommands:\n" ++ String.join (commands.map fun c =>
    "  " ++ c.name ++ String.ofList (List.replicate (10 - c.name.length) ' ') ++ " " ++
      c.summary ++ "\n")

def Entry.invoke (c : Entry) (w : World) (args : List String) : World × Outcome :=
  match parseFlags c.flags [] args with
  | .error .help => (w, { stderr := usage c.name c.flags })
  | .error (.message text) => (w, { exit := 2, stderr := text ++ "\n" ++ usage c.name c.flags })
  | .ok given =>
    let r := c.action w given
    match r.error with
    | none => (r.world, { stdout := r.stdout })
    | some e => (r.world,
        { exit := 1, stdout := r.stdout, stderr := "despair " ++ c.name ++ ": " ++ e ++ "\n" })

/-- Carries out the command that the arguments name. -/
def execute (w : World) : List String → World × Outcome
  | [] => (w, { exit := 2, stderr := overview })
  | name :: args =>
    match commands.find? (·.name == name) with
    | some c => c.invoke w args
    | none =>
      if name = "-h" ∨ name = "--help" ∨ name = "help" then (w, { stderr := overview })
      else (w, { exit := 2, stderr := "unknown command " ++ Text.quoted name ++ "\n" ++ overview })

end BlockVM.Command
