import BlockVM.Text.Hex

/-!
# Numbers in text

Integers are written in decimal, or in hexadecimal after `0x`; a sign may stand in front.
-/

namespace BlockVM.Number

/-- The value of digits in a base, most significant first. -/
def ofDigits? (base : Nat) (cs : List Char) : Option Nat :=
  if cs.isEmpty then none
  else cs.foldl (fun n c => do
    let n ← n
    let d ← Hex.digitValue? c
    if d < base then return base * n + d else none) (some 0)

def unsigned? : List Char → Option Nat
  | '0' :: 'x' :: ds => ofDigits? 16 ds
  | ds => ofDigits? 10 ds

def parse? (s : String) : Option Int :=
  match s.toList with
  | '-' :: cs => (unsigned? cs).map fun n => -(n : Int)
  | '+' :: cs => (unsigned? cs).map Int.ofNat
  | cs => (unsigned? cs).map Int.ofNat

end BlockVM.Number
