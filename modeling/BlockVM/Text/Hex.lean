/-!
# Hexadecimal text

Addresses and opcodes appear in messages as lowercase hexadecimal numbers with a `0x` in front;
byte strings are written as two digits a byte.
-/

namespace BlockVM.Hex

/-- The lowercase digits of `n`, without leading zeros. -/
def digits (n : Nat) : String := String.ofList (Nat.toDigits 16 n)

/-- The digits of `n`, filled up with zeros to at least `width` of them. -/
def padded (width n : Nat) : String :=
  let ds := Nat.toDigits 16 n
  String.ofList (List.replicate (width - ds.length) '0' ++ ds)

/-- `0x` and the digits of a number; the sign, if any, stands in front. -/
def ofInt (i : Int) : String :=
  if i < 0 then "-0x" ++ digits i.natAbs else "0x" ++ digits i.natAbs

/-- `0x` and the digits of a natural number. -/
def ofNat (n : Nat) : String := "0x" ++ digits n

def ofBytes (bs : List UInt8) : String :=
  String.join (bs.map fun b => padded 2 b.toNat)

/-- The value of one digit, in either case. -/
def digitValue? (c : Char) : Option Nat :=
  if '0' ≤ c ∧ c ≤ '9' then some (c.toNat - 48)
  else if 'a' ≤ c ∧ c ≤ 'f' then some (c.toNat - 87)
  else if 'A' ≤ c ∧ c ≤ 'F' then some (c.toNat - 55)
  else none

def pairs? : List Char → Option (List UInt8)
  | [] => some []
  | [_] => none
  | a :: b :: rest => do
    let hi ← digitValue? a
    let lo ← digitValue? b
    let tail ← pairs? rest
    return UInt8.ofNat (16 * hi + lo) :: tail

/-- The byte string written in `s`, if it is an even number of digits. -/
def toBytes? (s : String) : Option (List UInt8) := pairs? s.toList

end BlockVM.Hex
