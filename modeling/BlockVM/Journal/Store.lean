import BlockVM.Fault
import BlockVM.Journal.Record

/-!
# The journal

The journal keeps records in a map that is ordered by the bytes of its keys. A record stands under
its *run key*, which starts with the image and goes on with the start time, so that the runs of an
image stand together, oldest first. A second entry leads from the name of a run to its run key.
-/

namespace BlockVM

/-- A key of the journal; keys are ordered byte by byte. -/
abbrev Key := List UInt8

namespace Journal

/-- What stands under a key. -/
inductive Entry where
  | run (r : Record)
  /-- The run key of a name. -/
  | index (key : Key)
deriving DecidableEq, Repr

def Entry.encode : Entry → List UInt8
  | run r => r.encode
  | index key => key

end Journal

/-- Entries in the order of their keys. -/
structure Journal where
  entries : List (Key × Journal.Entry) := []
deriving Repr

namespace Journal

/-! ## The ordered map -/

/-- Puts an entry under a key, in place of what was there. -/
def insert (k : Key) (e : Entry) : List (Key × Entry) → List (Key × Entry)
  | [] => [(k, e)]
  | (k', e') :: rest =>
    if k < k' then (k, e) :: (k', e') :: rest
    else if k = k' then (k, e) :: rest
    else (k', e') :: insert k e rest

/-- Takes away what stands under a key. -/
def erase (k : Key) (entries : List (Key × Entry)) : List (Key × Entry) :=
  entries.filter (·.1 != k)

/-! ## Keys -/

def bytesOf (s : String) : List UInt8 := s.toUTF8.toList

/-- The key of a record: its image, its start in nanoseconds and its name. -/
def runKey (r : Record) : Key :=
  bytesOf ("run:" ++ r.image ++ ":") ++ Cbor.bigEndian 8 r.started.unixNanos.toNat
    ++ r.id.bytes.toList

/-- The key that leads from a name to a run key. -/
def idKey (id : RunId) : Key := bytesOf "id:" ++ id.bytes.toList

/-! ## Operations -/

/-- Stores a record and gives its name. A record without one gets the `fresh` one. -/
def put (j : Journal) (fresh : RunId) (r : Record) : RunId × Journal :=
  let r := if r.id = .none then { r with id := fresh } else r
  -- The entry under an earlier run key of the same name stays.
  let key := runKey r
  (r.id, ⟨insert (idKey r.id) (.index key) (insert key (.run r) j.entries)⟩)

def get (j : Journal) (id : RunId) : Except Failure Record :=
  match j.entries.lookup (idKey id) with
  | some (.index key) =>
    match j.entries.lookup key with
    | some (.run r) => .ok r
    | _ => .error (.within ("run " ++ id.text ++ " indexed but unreadable")
        (.ofText "pebble: not found"))
  | _ => .error (.detailed (.cause .runNotFound) id.text)

/-- Removes the record with a name, if there is one. -/
def delete (j : Journal) (id : RunId) : Journal :=
  match j.entries.lookup (idKey id) with
  | some (.index key) => ⟨erase (idKey id) (erase key j.entries)⟩
  | _ => j

/-- The runs of an image, or all runs when no image is named, in the order of their keys. -/
def list (j : Journal) (image : String) : List Record :=
  let (lower, upper) :=
    if image = "" then (bytesOf "run:", bytesOf "run;")
    else (bytesOf ("run:" ++ image ++ ":"), bytesOf ("run:" ++ image ++ ";"))
  j.entries.filterMap fun (k, e) =>
    match e with
    | .run r => if ¬ k < lower ∧ k < upper then some r else none
    | .index _ => none

/-- All entries in their stored form. -/
def dump (j : Journal) : List (Key × List UInt8) := j.entries.map fun (k, e) => (k, e.encode)

end Journal

end BlockVM
