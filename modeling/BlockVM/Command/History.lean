import BlockVM.Command.Run

/-!
# Runs of the past and of the present

`history` lists the runs of a journal, shows one or deletes one. `monitor` asks a running process
for a report.
-/

namespace BlockVM.Command

/-! ## history -/

def historyFlags : List Flag := [
  ⟨"journal", .text, "journal directory", ""⟩,
  ⟨"image", .text, "only list runs of this image ID", ""⟩,
  ⟨"id", .text, "show one run", ""⟩,
  ⟨"delete", .switch, "delete the run named by -id", "false"⟩]

def recordYaml (r : Record) : Yaml := .fields ([
  ("id", .text r.id.text),
  ("image", .text r.image),
  ("mode", .text r.mode),
  ("started", .word r.started.text),
  ("elapsed", .word (Time.durationText r.elapsed.toInt))]
  ++ (if r.error = "" then [] else [("error", .text r.error)])
  ++ [("cores", .list (r.cores.map statsYaml))])

def history (w : World) (g : Given) : Except String (World × String) := do
  let text := g.text historyFlags
  let path := text "journal"
  if path = "" then throw "-journal is required"
  let j ← w.journal path
  let w := w.keep path j
  if text "id" = "" then
    return (w, (Yaml.list ((j.list (text "image")).map recordYaml)).render)
  let id ← (RunId.parse (text "id")).mapError ("-id: " ++ ·)
  if g.isOn historyFlags "delete" then return (w.keep path (j.delete id), "")
  let r ← (j.get id).mapError Failure.message
  return (w, (recordYaml r).render)

/-! ## monitor -/

def monitorFlags : List Flag := [
  ⟨"addr", .text, "UDP address of the monitor server", "127.0.0.1:7400"⟩,
  ⟨"pin", .text, "expected server key, as printed by run", ""⟩,
  ⟨"ping", .switch, "measure a round trip instead of fetching a snapshot", "false"⟩,
  ⟨"timeout", .duration, "request timeout", "10s"⟩]

/-- Nothing outside the process can be reached, so a well-formed request ends without an answer. -/
def monitor (g : Given) : Except String String := do
  let pin := g.text monitorFlags "pin"
  if pin ≠ "" then
    let _ ← (Monitor.parseName pin).mapError ("-pin: " ++ ·)
  let address := g.text monitorFlags "addr"
  let failed (reason : String) : String := "failed to connect to " ++ address ++ ": " ++ reason
  (HostPort.check "udp" address).mapError failed
  throw (failed "context deadline exceeded")

end BlockVM.Command
