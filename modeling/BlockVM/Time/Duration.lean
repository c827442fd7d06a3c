import BlockVM.Numeric.Instances

/-!
# Lengths of time

A length of time is written as numbers with units, from hours down to nanoseconds, as in `1h2m0.5s`.
It is kept in nanoseconds.
-/

namespace BlockVM.Time

/-- The units and their lengths, longer names first. -/
def durationUnits : List (String × Nat) := [
  ("ns", 1), ("us", 1000), ("µs", 1000), ("μs", 1000), ("ms", 1000000), ("s", 1000000000),
  ("m", 60000000000), ("h", 3600000000000)]

/-- Reads numbers with units, of which at most `fuel`. -/
def durationParts? : (fuel : Nat) → List Char → Option Nat
  | _, [] => some 0
  | 0, _ => none
  | fuel + 1, cs => do
    let whole := cs.takeWhile Char.isDigit
    let rest := cs.dropWhile Char.isDigit
    let (fraction, rest) := match rest with
      | '.' :: rest => (rest.takeWhile Char.isDigit, rest.dropWhile Char.isDigit)
      | rest => ([], rest)
    if whole.isEmpty && fraction.isEmpty then none
    else do
      let isUnit c := !(Char.isDigit c || c == '.')
      let unit ← durationUnits.lookup (String.ofList (rest.takeWhile isUnit))
      let value := (whole ++ fraction).foldl (fun n c => 10 * n + (c.toNat - 48)) 0
      let tail ← durationParts? fuel (rest.dropWhile isUnit)
      return value * unit / 10 ^ fraction.length + tail

/-- The length of time written in `s`, if it fits in 64 bits. A zero needs no unit. -/
def duration? (s : String) : Option Int := do
  let (negative, cs) := match s.toList with
    | '-' :: cs => (true, cs)
    | '+' :: cs => (false, cs)
    | cs => (false, cs)
  if cs = ['0'] then return 0
  else if cs.isEmpty then none
  else do
    let n ← durationParts? cs.length cs
    if negative then (if n ≤ 2 ^ 63 then return -(n : Int) else none)
    else if n < 2 ^ 63 then return n else none

/-- A count of `10 ^ places` parts of a unit, without the zeros at its end. -/
def decimalText (n places : Nat) : String :=
  let unit := 10 ^ places
  let digits := Nat.toDigits 10 (n % unit)
  let padded := List.replicate (places - digits.length) '0' ++ digits
  let fraction := (padded.reverse.dropWhile (· == '0')).reverse
  toString (n / unit) ++
    (if places = 0 ∨ fraction.isEmpty then "" else "." ++ String.ofList fraction)

/-- The text of a length of time. Below a second, the largest unit that leaves a whole part is
used. -/
def durationText (nanos : Int) : String :=
  let n := nanos.natAbs
  let body :=
    if n = 0 then "0s"
    else if n < 1000 then decimalText n 0 ++ "ns"
    else if n < 1000000 then decimalText n 3 ++ "µs"
    else if n < 1000000000 then decimalText n 6 ++ "ms"
    else
      let minutes := n / 60000000000
      let seconds := decimalText (n % 60000000000) 9 ++ "s"
      if minutes = 0 then seconds
      else if minutes < 60 then toString minutes ++ "m" ++ seconds
      else toString (minutes / 60) ++ "h" ++ toString (minutes % 60) ++ "m" ++ seconds
  if nanos < 0 then "-" ++ body else body

end BlockVM.Time
