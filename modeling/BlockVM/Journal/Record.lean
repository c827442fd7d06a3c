import BlockVM.Bytes.Cbor
import BlockVM.Journal.RunId
import BlockVM.Machine.State
import BlockVM.Time.Timestamp

/-!
# Records of runs

A record says which program ran, when, for how long and how it ended. It is stored as one binary
object; a run that did not fail has no error in it.
-/

namespace BlockVM

/-- What the journal keeps of a finished run. -/
structure Record where
  id : RunId
  image : String
  mode : String
  started : Time.Timestamp
  /-- In nanoseconds. -/
  elapsed : Int64
  error : String
  cores : List Stats
deriving DecidableEq, Repr

/-- The stored form of the statistics of a core. -/
def Stats.encode (s : Stats) : List UInt8 := Cbor.map [
  ("core", Cbor.int s.core.toInt),
  ("compiled", Cbor.int s.compiled.toNat),
  ("executed", Cbor.int s.executed.toNat),
  ("hits", Cbor.int s.hits.toNat),
  ("serviceExits", Cbor.int s.serviceExits.toNat),
  ("controls", Cbor.int s.controls.toNat),
  ("interpreted", Cbor.int s.interpreted.toNat),
  ("blocks", Cbor.int s.blocks.toNat),
  ("codeBytes", Cbor.int s.codeBytes.toNat),
  ("running", Cbor.bool s.running)]

def Record.encode (r : Record) : List UInt8 :=
  let error := if r.error = "" then [] else [("error", Cbor.text r.error)]
  let cores := if r.cores.isEmpty then Cbor.null else Cbor.array (r.cores.map Stats.encode)
  Cbor.map ([
    ("id", Cbor.bytes r.id.bytes.toList),
    ("image", Cbor.text r.image),
    ("mode", Cbor.text r.mode),
    ("started", Cbor.text r.started.text),
    ("elapsed", Cbor.int r.elapsed.toInt)] ++ error ++ [("cores", cores)])

end BlockVM
