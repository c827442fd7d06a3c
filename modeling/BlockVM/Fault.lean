import BlockVM.Text.Hex

/-!
# Faults and failures

A *fault* is an unrecoverable error raised while bytecode is decoded, compiled or run. It has a
kind, the bytecode address involved (or `-1`) and a message, and it may be caused by another
failure. A *failure* is a chain of such faults, of plain causes and of the contexts they were met
in. `Failure.message` is the one place that turns a chain into text.

A *stop* ends an operation early: by a failure that the caller can report, or by an abort, which
means that a precondition of the operation was broken.
-/

namespace BlockVM

/-- The class of a fault. Codes 1 to 9 have names; a code of its own keeps other numbers apart. -/
structure FaultKind where
  code : Int64
deriving DecidableEq, Repr

namespace FaultKind

def resource : FaultKind := ⟨1⟩
def codeBounds : FaultKind := ⟨2⟩
def operandBounds : FaultKind := ⟨3⟩
def stackBounds : FaultKind := ⟨4⟩
def badPointer : FaultKind := ⟨5⟩
def invalidOpcode : FaultKind := ⟨6⟩
def reservedRegister : FaultKind := ⟨7⟩
def divide : FaultKind := ⟨8⟩
def unsupportedHost : FaultKind := ⟨9⟩

/-- The kinds with a name, in the order of their codes. -/
def named : List (FaultKind × String) := [
  (resource, "resource exhausted"),
  (codeBounds, "code bounds"),
  (operandBounds, "operand bounds"),
  (stackBounds, "stack bounds"),
  (badPointer, "bad pointer"),
  (invalidOpcode, "invalid opcode"),
  (reservedRegister, "reserved register"),
  (divide, "divide error"),
  (unsupportedHost, "unsupported host")]

def name (k : FaultKind) : String :=
  match named.lookup k with
  | some s => s
  | none => "kind(" ++ toString k.code.toInt ++ ")"

end FaultKind

/-- Where a chain of failures begins. -/
inductive Cause where
  /-- An access that leaves its arena. -/
  | outOfBounds
  /-- An address in no registered arena. -/
  | unmapped
  /-- A port access that leaves the port space. -/
  | portRange
  /-- A file that is no executable image. -/
  | badMagic
  /-- An image of an unknown format version. -/
  | imageVersion
  /-- An image that ends too early. -/
  | imageTruncated
  /-- An image with more damage than its parity repairs. -/
  | imageUnrecoverable
  /-- A payload whose parts do not add up to its length. -/
  | payloadLengths
  /-- A compressed payload that cannot be decompressed. -/
  | decompression
  /-- A run that the journal does not hold. -/
  | runNotFound
  /-- A process that has not been started. -/
  | notStarted
  /-- A process that was started before. -/
  | alreadyStarted
  /-- Work given up because its context is done. -/
  | canceled
  /-- A cause known by its text only. -/
  | other (text : String)
deriving DecidableEq, Repr, Inhabited

def Cause.message : Cause → String
  | outOfBounds => "access out of bounds"
  | unmapped => "address not mapped"
  | portRange => "port out of range"
  | badMagic => "not an executable image"
  | imageVersion => "unsupported image version"
  | imageTruncated => "image truncated"
  | imageUnrecoverable => "image payload damaged beyond repair"
  | payloadLengths => "payload lengths do not match"
  | decompression => "invalid compressed data"
  | runNotFound => "run not found"
  | notStarted => "process not started"
  | alreadyStarted => "process already started"
  | canceled => "context canceled"
  | other text => text

/-- A chain of failures, outermost first. -/
inductive Failure where
  | cause (c : Cause)
  /-- The inner failure, met in a context that is named before it. -/
  | within (context : String) (inner : Failure)
  /-- The inner failure, with a detail added after it. -/
  | detailed (inner : Failure) (detail : String)
  | fault (kind : FaultKind) (pc : Int64) (message : String)
  | faultBy (kind : FaultKind) (pc : Int64) (message : String) (inner : Failure)
deriving DecidableEq, Repr, Inhabited

namespace Failure

/-- A failure known by its text only. -/
def ofText (text : String) : Failure := cause (.other text)

/-- Kind, message and address of a fault; a negative address is left out. -/
def faultText (kind : FaultKind) (pc : Int64) (message : String) : String :=
  let base := if message = "" then kind.name else kind.name ++ ": " ++ message
  if 0 ≤ pc then "pc " ++ Hex.ofInt pc.toInt ++ ": " ++ base else base

def message : Failure → String
  | cause c => c.message
  | within context inner => context ++ ": " ++ inner.message
  | detailed inner detail => inner.message ++ ": " ++ detail
  | fault kind pc message => faultText kind pc message
  | faultBy kind pc message inner => faultText kind pc message ++ ": " ++ inner.message

def inner? : Failure → Option Failure
  | cause _ | fault .. => none
  | within _ inner | detailed inner _ | faultBy _ _ _ inner => some inner

/-- The kinds of the faults in the chain, outermost first. -/
def kinds : Failure → List FaultKind
  | cause _ => []
  | within _ inner | detailed inner _ => inner.kinds
  | fault kind _ _ => [kind]
  | faultBy kind _ _ inner => kind :: inner.kinds

/-- The cause that the chain ends in, if it ends in one. -/
def root? : Failure → Option Cause
  | cause c => some c
  | within _ inner | detailed inner _ | faultBy _ _ _ inner => inner.root?
  | fault .. => none

def kind? (f : Failure) : Option FaultKind := f.kinds.head?

/-- The code of the outermost fault's kind, or 0. -/
def kindCode (f : Failure) : Int64 := (f.kind?.map (·.code)).getD 0

/-- A fault with a kind of its own ends the core that raised it. -/
def isFatal (f : Failure) : Bool := f.kindCode != 0

/-- A fault that stands for its whole kind: no address, no message, no cause. -/
def sentinel (kind : FaultKind) : Failure := fault kind (-1) ""

/-- Whether some fault of the chain is of the kind that `target` stands for. A target that is not
a sentinel is matched by nothing. -/
def matchesKind (f target : Failure) : Bool :=
  match target with
  | fault kind pc message => pc == -1 && message == "" && f.kinds.contains kind
  | _ => false

end Failure

/-- Why an operation ended early. -/
inductive Stop where
  | failure (f : Failure)
  /-- A broken precondition, with its text if it was checked for. -/
  | abort (reason : Option String)
deriving DecidableEq, Repr

def Stop.fault (kind : FaultKind) (pc : Int64) (message : String) : Stop :=
  .failure (.fault kind pc message)

end BlockVM
