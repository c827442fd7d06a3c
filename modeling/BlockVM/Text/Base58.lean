import BlockVM.Text.Quoted

/-!
# Base 58

Digests are shown to users in base 58: digits and letters without the four that are easily mistaken
for one another. A byte string is read as one number, most significant byte first; each leading
zero byte is written as a leading `1`, so nothing is lost.
-/

namespace BlockVM.Base58

/-- The digits, in the order of their values. -/
def alphabet : List Char := "123456789ABCDEFGHJKLMNPQRSTUVWXYZabcdefghijkmnopqrstuvwxyz".toList

/-- The digits of a number, most significant first, in front of `rest`; zero has none. -/
def digits (n : Nat) (rest : List Char) : List Char :=
  if h : n = 0 then rest
  else digits (n / 58) (alphabet.getD (n % 58) '1' :: rest)
termination_by n
decreasing_by omega

/-- The bytes of a number, most significant first, in front of `rest`; zero has none. -/
def bytes (n : Nat) (rest : List UInt8) : List UInt8 :=
  if h : n = 0 then rest
  else bytes (n / 256) (UInt8.ofNat n :: rest)
termination_by n
decreasing_by omega

def encode (bs : List UInt8) : String :=
  let zeros := (bs.takeWhile (· == 0)).length
  let n := bs.foldl (fun n b => 256 * n + b.toNat) 0
  String.ofList (List.replicate zeros '1' ++ digits n [])

def digit? (c : Char) : Option Nat := alphabet.findIdx? (· == c)

/-- The number that the digits stand for, after `n`. -/
def value (n : Nat) : List Char → Except String Nat
  | [] => .ok n
  | c :: cs =>
    if c.toNat > 127 then .error "high-bit set on invalid digit"
    else match digit? c with
      | none => .error ("invalid base58 digit (" ++ Text.quotedChar c ++ ")")
      | some d => value (58 * n + d) cs

/-- The byte string written in `text`, or what is wrong with it. -/
def decode (text : String) : Except String (List UInt8) := do
  let cs := text.toList
  if cs.isEmpty then throw "zero length string"
  let n ← value 0 cs
  return List.replicate (cs.takeWhile (· == '1')).length 0 ++ bytes n []

end BlockVM.Base58
