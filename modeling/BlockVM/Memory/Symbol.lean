import BlockVM.Memory.Host
import BlockVM.Text.Number

/-!
# Symbolic addresses

Where a mapping lies is the host's business, so reports name addresses by arena and offset: in
values, in messages and in dumps of memory.
-/

namespace BlockVM

/-- The contents of memory without the zero bytes at their end. The addresses that they hold are
listed apart, and their bytes count as zero. -/
structure Dump where
  bytes : List UInt8
  pointers : List (Nat × String)
deriving DecidableEq, Repr

namespace Host

/-- The name of an address that lies in a mapping. -/
def symbol? (h : Host) (v : UInt64) : Option String :=
  (h.arenaAt v).map fun (a, off) => a.name ++ "+" ++ toString off

/-- An unsigned value, by name if it is an address. -/
def unsignedText (h : Host) (v : UInt64) : String := (h.symbol? v).getD (toString v.toNat)

/-- A signed value, by name if it is an address. -/
def signedText (h : Host) (v : UInt64) : String := (h.symbol? v).getD (toString v.toInt64.toInt)

/-- Splits text at its last sign into a name and an offset. -/
def splitOffset? (s : String) : Option (String × Int) :=
  let digits := s.toList.reverse.takeWhile fun c => c != '+' && c != '-'
  match s.toList.reverse.drop digits.length, Number.unsigned? digits.reverse with
  | '-' :: name, some n => some (String.ofList name.reverse, -(n : Int))
  | _ :: name, some n => some (String.ofList name.reverse, n)
  | _, _ => none

/-- The address that a name and an offset stand for. -/
def address? (h : Host) (s : String) : Option Int := do
  let (name, off) ← splitOffset? s
  let a ← h.history.find? fun a => a.name == name
  return a.base.toNat + off

/-- Replaces each number written in hexadecimal by the name of the address that it is. -/
def nameIn (h : Host) : Nat → List Char → List Char
  | fuel + 1, '0' :: 'x' :: rest =>
    let digits := rest.takeWhile fun c => (Hex.digitValue? c).isSome
    let tail := h.nameIn fuel (rest.drop digits.length)
    match (Number.ofDigits? 16 digits).bind fun n => h.symbol? (UInt64.ofNat n) with
    | some name => '<' :: name.toList ++ '>' :: tail
    | none => '0' :: 'x' :: digits ++ tail
  | fuel + 1, c :: rest => c :: h.nameIn fuel rest
  | _, cs => cs

/-- A message with its addresses named. -/
def nameAddresses (h : Host) (s : String) : String :=
  String.ofList (h.nameIn s.length s.toList)

/-- The addresses in bytes from `off` on, scanning upward and past each of them. -/
def pointersIn (h : Host) : Nat → Nat → List UInt8 → List (Nat × String)
  | fuel + 1, off, b :: bs =>
    if bs.length < 7 then []
    else match h.symbol? (LittleEndian.toUInt64 ((b :: bs).take 8)) with
      | some name => (off, name) :: h.pointersIn fuel (off + 8) (bs.drop 7)
      | none => h.pointersIn fuel (off + 1) bs
  | _, _, _ => []

/-- The bytes without the zero bytes at their end. -/
def trimZeros (bs : List UInt8) : List UInt8 := (bs.reverse.dropWhile (· == 0)).reverse

/-- The dump of `size` bytes, of which those after `bs` are zero. -/
def dump (h : Host) (bs : List UInt8) (size : Nat) : Dump :=
  let bs := bs ++ List.replicate (min 8 (size - bs.length)) 0
  let pointers := h.pointersIn bs.length 0 bs
  let isCovered (i : Nat) : Bool := pointers.any fun (p, _) => p ≤ i && i < p + 8
  ⟨trimZeros (bs.mapIdx fun i b => if isCovered i then 0 else b), pointers⟩

def dumpArena (h : Host) (a : Arena) : Dump := h.dump (a.significant h.memory) a.size

end Host

end BlockVM
