import BlockVM.Numeric.Instances

/-!
# Single-precision floats

Floats are handled as their 32-bit patterns, so that moving one never changes it, whatever it is.
Arithmetic is exact arithmetic on integers followed by one rounding: every finite float is a
multiple of the least positive one, `2 ^ -149`, and `units` says which multiple.

`nearest` rounds a ratio of such units to the pattern of the nearest float, halfway cases to the
even one. Because patterns of increasing magnitudes are consecutive numbers, it needs no cases for
subnormal numbers, for carries into the next binade or for overflow to infinity.
-/

namespace BlockVM.Binary32

def infinity : UInt32 := 0x7f800000

/-- The quiet NaN that an invalid operation gives. -/
def indefinite : UInt32 := 0xffc00000

/-- The quiet NaN that a remainder without a value gives. -/
def positiveNaN : UInt32 := 0x7fc00000

def signBit : UInt32 := 0x80000000

def magnitude (b : UInt32) : UInt32 := b &&& 0x7fffffff

def isNegative (b : UInt32) : Bool := b &&& signBit != 0

def isNaN (b : UInt32) : Bool := infinity < magnitude b

def isInfinite (b : UInt32) : Bool := magnitude b == infinity

def isZero (b : UInt32) : Bool := magnitude b == 0

/-- A finite pattern's magnitude in units of the least positive float. -/
def units (b : UInt32) : Nat :=
  let e := (magnitude b).toNat / 2 ^ 23
  let f := (magnitude b).toNat % 2 ^ 23
  if e = 0 then f else (f + 2 ^ 23) * 2 ^ (e - 1)

/-- A finite pattern's value in units of the least positive float. -/
def signedUnits (b : UInt32) : Int := if isNegative b then -(units b : Int) else units b

/-- `num / den` rounded to the nearest integer, halfway cases to the even one. -/
def roundDiv (num den : Nat) : Nat :=
  let q := num / den
  let r := num % den
  if den < 2 * r ∨ (2 * r = den ∧ q % 2 = 1) then q + 1 else q

/-- The pattern of the magnitude nearest to `num / den` units. -/
def nearest (num den : Nat) : UInt32 :=
  let q := num / den
  let k := if q < 2 ^ 24 then 0 else q.log2 - 23
  let pattern := k * 2 ^ 23 + roundDiv num (den * 2 ^ k)
  if pattern < infinity.toNat then UInt32.ofNat pattern else infinity

/-- A magnitude with a sign. -/
def withSign (negative : Bool) (m : UInt32) : UInt32 := if negative then m ||| signBit else m

/-- The NaN that an operation on a NaN gives: the first one among its operands, made quiet. -/
def quietNaN (a b : UInt32) : UInt32 := (if isNaN a then a else b) ||| 0x00400000

def neg (b : UInt32) : UInt32 := b ^^^ signBit

def add (a b : UInt32) : UInt32 :=
  if isNaN a || isNaN b then quietNaN a b
  else if isInfinite a then
    if isInfinite b && isNegative a != isNegative b then indefinite else a
  else if isInfinite b then b
  else
    let s := signedUnits a + signedUnits b
    if s = 0 then withSign (isNegative a && isNegative b) 0
    else withSign (s < 0) (nearest s.natAbs 1)

def sub (a b : UInt32) : UInt32 :=
  if isNaN a || isNaN b then quietNaN a b else add a (neg b)

def mul (a b : UInt32) : UInt32 :=
  let negative := isNegative a != isNegative b
  if isNaN a || isNaN b then quietNaN a b
  else if isInfinite a || isInfinite b then
    if isZero a || isZero b then indefinite else withSign negative infinity
  else withSign negative (nearest (units a * units b) (2 ^ 149))

def div (a b : UInt32) : UInt32 :=
  let negative := isNegative a != isNegative b
  if isNaN a || isNaN b then quietNaN a b
  else if isInfinite a then
    if isInfinite b then indefinite else withSign negative infinity
  else if isInfinite b then withSign negative 0
  else if isZero b then
    if isZero a then indefinite else withSign negative infinity
  else withSign negative (nearest (units a * 2 ^ 149) (units b))

/-- The remainder of the division that rounds toward zero; it has the sign of `a` and is exact. -/
def mod (a b : UInt32) : UInt32 :=
  if isNaN a || isNaN b || isInfinite a || isZero b then positiveNaN
  else if isInfinite b then a
  else withSign (isNegative a) (nearest (units a % units b) 1)

/-- How two floats compare. -/
inductive Order where
  | less
  | equal
  | greater
  | unordered
deriving DecidableEq, Repr

/-- The value of a pattern that is no NaN, on a scale where infinities are the outermost numbers. -/
def rank (b : UInt32) : Int :=
  if isNegative b then -((magnitude b).toNat : Int) else (magnitude b).toNat

def compare (a b : UInt32) : Order :=
  if isNaN a || isNaN b then .unordered
  else if rank a < rank b then .less
  else if rank a = rank b then .equal
  else .greater

def ofInt (i : Int) : UInt32 := withSign (i < 0) (nearest (i.natAbs * 2 ^ 149) 1)

/-- What a conversion gives for a value without a 32-bit integer near it. -/
def integerIndefinite : UInt32 := 0x80000000

/-- The nearest 32-bit integer, halfway cases to the even one. -/
def toInt32 (b : UInt32) : UInt32 :=
  if isNaN b || isInfinite b then integerIndefinite
  else
    let m := roundDiv (units b) (2 ^ 149)
    if isNegative b then if m ≤ 2 ^ 31 then UInt32.ofNat (2 ^ 32 - m) else integerIndefinite
    else if m < 2 ^ 31 then UInt32.ofNat m else integerIndefinite

end BlockVM.Binary32
