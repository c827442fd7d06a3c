import BlockVM.Machine.State
import BlockVM.Text.Base58

/-!
# The monitor

A running process can be asked for a report over the network. A request is one byte; the answer is
the report, nothing, or an error. A server is known by its public key, whose text starts with an
`m`; a client may insist on one.
-/

namespace BlockVM.Monitor

/-- What a process tells about itself. -/
structure Report where
  image : String
  mode : String
  heaps : Int64
  cores : List Stats
deriving DecidableEq, Repr

/-- The answer to a request: the report for 0, nothing for 1. -/
def answer (r : Report) (kind : UInt8) : Except String (Option Report) :=
  match kind with
  | 0 => .ok (some r)
  | 1 => .ok none
  | k => .error ("unknown request kind " ++ toString k.toNat)

def name (key : List UInt8) : String := "m" ++ Base58.encode key

/-- The size of keys, and of the seeds that they are made from. -/
def keySize : Nat := 32

/-- The key with a text; the `m` may be left out. -/
def parseName (s : String) : Except String (List UInt8) := do
  let text := match s.toList with
    | 'm' :: rest => String.ofList rest
    | _ => s
  let key ← Base58.decode text
  if key.length = keySize then return key
  else throw ("want " ++ toString keySize ++ " bytes, got " ++ toString key.length)

/-- Why a client got no connection. -/
inductive Problem where
  /-- Nothing answers at the address. -/
  | unreachable
  /-- The server has another key than the one insisted on. -/
  | pin
deriving DecidableEq, Repr

/-- Connects to the server with a key, if the network reaches it. -/
def connect (reached : Bool) (server : List UInt8) (pin : Option (List UInt8)) :
    Except Problem Unit :=
  if !reached then .error .unreachable
  else if pin.all (· == server) then .ok ()
  else .error .pin

end BlockVM.Monitor
