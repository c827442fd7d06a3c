import BlockVM.Text.Blank
import BlockVM.Text.Hex
import BlockVM.Text.Quoted

/-!
# Names of runs

A run is named by sixteen bytes, written as 32 digits in five groups.
-/

namespace BlockVM

structure RunId where
  bytes : Vector UInt8 16
deriving DecidableEq, Repr

namespace RunId

def none : RunId := ⟨Vector.replicate 16 0⟩

instance : Inhabited RunId := ⟨none⟩

/-- The bytes in groups of four, two, two, two and six. -/
def text (id : RunId) : String :=
  let bs := id.bytes.toList
  let group (start count : Nat) : String := Hex.ofBytes ((bs.drop start).take count)
  "-".intercalate [group 0 4, group 4 2, group 6 2, group 8 2, group 10 6]

/-- The name with the given sixteen bytes. -/
def ofBytes? (bs : List UInt8) : Option RunId :=
  if h : bs.length = 16 then some ⟨⟨bs.toArray, by simpa using h⟩⟩ else .none

def ofDigits (digits : List Char) : Except String RunId :=
  match (Hex.pairs? digits).bind ofBytes? with
  | some id => .ok id
  | .none => .error "invalid UUID format"

/-- The name written as five groups of digits, whatever follows them. -/
def ofGroups (cs : List Char) : Except String RunId :=
  let mark (i : Nat) : Bool := cs.getD i ' ' == '-'
  if !(mark 8 && mark 13 && mark 18 && mark 23) then .error "invalid UUID format"
  else
    let group (start count : Nat) : List Char := (cs.drop start).take count
    ofDigits (group 0 8 ++ group 9 4 ++ group 14 4 ++ group 19 4 ++ group 24 12)

/-- Reads a name: five groups, alone, after `urn:uuid:` or between two braces; or 32 digits. -/
def parse (s : String) : Except String RunId :=
  let cs := s.toUTF8.toList.map fun b => Char.ofNat b.toNat
  match cs.length with
  | 36 => ofGroups cs
  | 45 =>
    let scheme := String.ofList (cs.take 9)
    if Text.equalFold "urn:uuid:" scheme then ofGroups (cs.drop 9)
    else .error ("invalid urn prefix: " ++ Text.quoted scheme)
  | 38 => ofGroups (cs.drop 1)
  | 32 => ofDigits cs
  | n => .error ("invalid UUID length: " ++ toString n)

end RunId

end BlockVM
