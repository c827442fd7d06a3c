import BlockVM.Numeric.Binary32

/-!
# Decimal text of floats

A float is written with the fewest digits that read back as the same float, and of those texts the
one nearest to it. `shortest` finds the digits by exact comparison: for one digit, two digits and so
on it tests the two neighbours of the value on the decimal grid of that many digits.
-/

namespace BlockVM.Decimal

/-- Digits `d₁d₂…` and the place of the point: the number `0.d₁d₂… * 10 ^ point`. -/
structure Digits where
  digits : List Char
  point : Int
deriving DecidableEq, Repr

/-- `10 ^ e` for a signed exponent, as a ratio. -/
def pow10 (e : Int) : Nat × Nat :=
  if 0 ≤ e then (10 ^ e.toNat, 1) else (1, 10 ^ (-e).toNat)

/-- The largest `k ≤ e` with `10 ^ k ≤ num / den`, among the `fuel` candidates below `e`. -/
def floorLog10 (num den : Nat) : Nat → Int → Int
  | 0, e => e
  | fuel + 1, e =>
    let (p, q) := pow10 e
    if p * den ≤ num * q then e else floorLog10 num den fuel (e - 1)

/-- The reals that round to one magnitude. The ends are halfway to the neighbouring floats and are
given in half units of the least positive float. -/
structure Interval where
  low : Nat
  high : Nat
  /-- Whether the ends belong to it. -/
  closed : Bool
deriving DecidableEq, Repr

/-- The interval of a finite, non-zero pattern. A halfway case goes to the even pattern. -/
def Interval.of (b : UInt32) : Interval :=
  let m := Binary32.magnitude b
  let v := Binary32.units m
  let above := if m + 1 = Binary32.infinity then v + (v - Binary32.units (m - 1))
    else Binary32.units (m + 1)
  ⟨v + Binary32.units (m - 1), v + above, m % 2 == 0⟩

/-- Whether `n * 10 ^ e` lies in the interval. -/
def Interval.contains (i : Interval) (n : Nat) (e : Int) : Bool :=
  let (p, q) := pow10 e
  let x := n * p * 2 ^ 150
  let low := i.low * q
  let high := i.high * q
  if i.closed then low ≤ x && x ≤ high else low < x && x < high

/-- The first grid, of `n` digits or up to `fuel` more, with a point in the interval, and that
point. `v` is the value in units and `e` the exponent of its first digit. -/
def search (i : Interval) (v : Nat) (e : Int) : Nat → Nat → Option (Nat × Int)
  | 0, _ => none
  | fuel + 1, n =>
    let step := e - (n : Int) + 1
    let (p, q) := pow10 step
    let num := v * q
    let den := p * 2 ^ 149
    let down := num / den
    let rest := num % den
    let nearDown := 2 * rest < den || (2 * rest == den && down % 2 == 0)
    let okDown := down != 0 && i.contains down step
    let okUp := i.contains (down + 1) step
    if okDown && (nearDown || !okUp) then some (down, step)
    else if okUp then some (down + 1, step)
    else search i v e fuel (n + 1)

/-- Removes up to `fuel` zeros from the end of a number. -/
def stripZeros : Nat → Nat → Int → Nat × Int
  | 0, n, e => (n, e)
  | fuel + 1, n, e => if n % 10 = 0 ∧ n ≠ 0 then stripZeros fuel (n / 10) (e + 1) else (n, e)

/-- The fewest digits that read back as a finite, non-zero float. Nine always do. -/
def shortest (b : UInt32) : Digits :=
  let v := Binary32.units b
  let e := floorLog10 v (2 ^ 149) 90 38
  match search (Interval.of b) v e 9 1 with
  | none => ⟨[], 0⟩
  | some (n, step) =>
    let (n, step) := stripZeros 12 n step
    let ds := Nat.toDigits 10 n
    ⟨ds, ds.length + step⟩

/-- A signed exponent of at least two digits. -/
def exponentText (e : Int) : String :=
  let ds := Nat.toDigits 10 e.natAbs
  (if e < 0 then "-" else "+") ++ String.ofList (List.replicate (2 - ds.length) '0' ++ ds)

/-- One digit, the others after a point, and the exponent. -/
def scientific (d : Digits) : String :=
  let mantissa := match d.digits with
    | c :: c' :: cs => c :: '.' :: c' :: cs
    | cs => cs
  String.ofList mantissa ++ "e" ++ exponentText (d.point - 1)

/-- The digits around a decimal point. -/
def positional (d : Digits) : String :=
  let n := d.point.toNat
  if d.point ≤ 0 then
    "0." ++ String.ofList (List.replicate (-d.point).toNat '0' ++ d.digits)
  else if d.digits.length ≤ n then
    String.ofList (d.digits ++ List.replicate (n - d.digits.length) '0')
  else String.ofList (d.digits.take n ++ '.' :: d.digits.drop n)

/-- Exponents from -4 to 5 are written positionally. -/
def isPositional (d : Digits) : Bool := -4 ≤ d.point - 1 && d.point - 1 < 6

def ofBinary32 (b : UInt32) : String :=
  let sign := if Binary32.isNegative b then "-" else ""
  if Binary32.isNaN b then "NaN"
  else if Binary32.isInfinite b then (if Binary32.isNegative b then "-Inf" else "+Inf")
  else if Binary32.isZero b then sign ++ "0"
  else
    let d := shortest b
    sign ++ (if isPositional d then positional d else scientific d)

end BlockVM.Decimal
