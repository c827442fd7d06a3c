import BlockVM.Journal.Store

/-!
# What commands work on

A command sees files, journals, the environment and a clock. All of it is one value, so that a
command is a function: from a world and arguments to a world and what was printed.
-/

namespace BlockVM.Command

structure World where
  /-- Files by their paths. -/
  files : List (String × List UInt8) := []
  /-- Journals by the paths of their directories. -/
  journals : List (String × Journal) := []
  /-- The execution mode that the environment asks for, or an empty text. -/
  mode : String := ""
  now : Time.Timestamp := ⟨0, 0, 0⟩
  /-- Names for the next runs. -/
  fresh : List RunId := []
  /-- Where random numbers start when nobody says where. -/
  entropy : UInt64 := 1

/-- How a command ended. -/
structure Outcome where
  exit : Nat := 0
  stdout : String := ""
  stderr : String := ""
deriving DecidableEq, Repr

/-- A world after a command, with what it printed and the failure that it ended in. -/
structure Reply where
  world : World
  stdout : String := ""
  error : Option String := none

namespace World

/-- A path without the dots in front that mean the current directory. -/
def normal (path : String) : String :=
  match path.toList with
  | '.' :: '/' :: rest => String.ofList (rest.dropWhile (· == '/'))
  | _ => path

/-- The directory of a path, if it names one. -/
def parent? (path : String) : Option String :=
  let cs := (normal path).toList.reverse
  match cs.dropWhile (· != '/') with
  | _ :: dir => some (String.ofList dir.reverse)
  | [] => none

def isDirectory (w : World) (path : String) : Bool :=
  path == "." || path == "./" || w.journals.any (·.1 == normal path)

def file? (w : World) (path : String) : Option (List UInt8) := w.files.lookup (normal path)

/-- What is wrong with a path that names no file. -/
def missing (w : World) (path : String) : String :=
  let reason :=
    if ((parent? path).bind w.file?).isSome then "not a directory" else "no such file or directory"
  "open " ++ path ++ ": " ++ reason

def read (w : World) (path : String) : Except String (List UInt8) :=
  match w.file? path with
  | some b => .ok b
  | none =>
    if w.isDirectory path then .error ("read " ++ path ++ ": is a directory")
    else .error (w.missing path)

/-- Writes a file, in place of the one that was there. -/
def write (w : World) (path : String) (b : List UInt8) : Except String World :=
  if w.isDirectory path then .error ("open " ++ path ++ ": is a directory")
  else if path = "" ∨ (parent? path).any (fun dir => !w.isDirectory dir) then
    .error (w.missing path)
  else
    let path := normal path
    .ok { w with files := (path, b) :: w.files.filter (·.1 != path) }

/-- The journal in a directory, which is made if it is not there. -/
def journal (w : World) (path : String) : Except String Journal :=
  if (w.file? path).isSome then
    .error ("failed to open journal at " ++ path ++ ": error opening database at "
      ++ Text.quoted path ++ ": mkdir " ++ path ++ ": not a directory")
  else .ok ((w.journals.lookup (normal path)).getD {})

/-- Keeps a journal in its directory. -/
def keep (w : World) (path : String) (j : Journal) : World :=
  let path := normal path
  { w with journals := (path, j) :: w.journals.filter (·.1 != path) }

end World

end BlockVM.Command
