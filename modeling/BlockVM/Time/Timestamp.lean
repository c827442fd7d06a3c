import BlockVM.Time.Calendar

/-!
# Points in time

A timestamp is a point in time together with the offset of the clock that showed it. Its text is a
date, a `T`, the time of day, a fraction of a second if there is one, and the offset, which is
written `Z` when it is zero.
-/

namespace BlockVM.Time

/-- A point in time, as a clock at some offset showed it. -/
structure Timestamp where
  /-- Seconds since the start of 1970, without leap seconds. -/
  seconds : Int
  nanos : Nat
  /-- How far the clock was ahead, in seconds. -/
  offset : Int
deriving DecidableEq, Repr, Inhabited

/-! ## Reading -/

def digit? (c : Char) : Option Nat := if c.isDigit then some (c.toNat - 48) else none

def two? : List Char → Option (Nat × List Char)
  | a :: b :: rest => do return (10 * (← digit? a) + (← digit? b), rest)
  | _ => none

/-- Reads one digit, or two if there are two. -/
def oneOrTwo? (cs : List Char) : Option (Nat × List Char) :=
  (two? cs).orElse fun _ =>
    match cs with
    | a :: rest => (digit? a).map fun d => (d, rest)
    | [] => none

def expect? (c : Char) : List Char → Option (List Char)
  | d :: rest => if c = d then some rest else none
  | [] => none

/-- Reads a day that the calendar has. -/
def date? (cs : List Char) : Option (Date × List Char) := do
  let (high, rest) ← two? cs
  let (low, rest) ← two? rest
  let (month, rest) ← two? (← expect? '-' rest)
  let (day, rest) ← two? (← expect? '-' rest)
  let d : Date := ⟨(100 * high + low : Nat), month, day⟩
  if d.isValid then return (d, rest) else none

/-- The nanoseconds that the digits of a fraction stand for; digits after the ninth are dropped. -/
def fraction (digits : List Char) : Nat :=
  (digits ++ List.replicate 9 '0').take 9 |>.foldl (fun n c => 10 * n + (c.toNat - 48)) 0

/-- Reads a fraction, after a point or a comma, if there is one. -/
def fraction? : List Char → Nat × List Char
  | mark :: d :: rest =>
    if (mark = '.' ∨ mark = ',') ∧ d.isDigit then
      (fraction ((d :: rest).takeWhile Char.isDigit), (d :: rest).dropWhile Char.isDigit)
    else (0, mark :: d :: rest)
  | cs => (0, cs)

/-- Reads hour and minute; the hour may have one digit. -/
def hourMinute? (cs : List Char) : Option (Nat × Nat × List Char) := do
  let (hour, rest) ← oneOrTwo? cs
  let (minute, rest) ← two? (← expect? ':' rest)
  if hour < 24 ∧ minute < 60 then return (hour, minute, rest) else none

/-- Reads a second and its fraction, after a colon. -/
def second? (cs : List Char) : Option (Nat × Nat × List Char) := do
  let (second, rest) ← two? (← expect? ':' cs)
  let (nanos, rest) := fraction? rest
  if second < 60 then return (second, nanos, rest) else none

/-- Reads the offset that ends a timestamp. It may reach 24 hours and 60 minutes. -/
def offset? : List Char → Option Int
  | ['Z'] => some 0
  | sign :: cs => do
    let (hour, rest) ← two? cs
    let (minute, rest) ← two? (← expect? ':' rest)
    let seconds : Int := (hour * 60 + minute) * 60
    if rest ≠ [] ∨ 24 < hour ∨ 60 < minute then none
    else if sign = '+' then some seconds
    else if sign = '-' then some (-seconds)
    else none
  | [] => none

def Timestamp.parse? (text : String) : Option Timestamp := do
  let (date, rest) ← date? text.toList
  let (hour, minute, rest) ← hourMinute? (← expect? 'T' rest)
  let (second, nanos, rest) ← second? rest
  let offset ← offset? rest
  let ofDay : Int := (hour * 60 + minute) * 60 + second
  return ⟨date.toDays * 86400 + ofDay - offset, nanos, offset⟩

/-! ## Writing -/

/-- A number with leading zeros up to a width. -/
def padded (width n : Nat) : String :=
  let digits := Nat.toDigits 10 n
  String.ofList (List.replicate (width - digits.length) '0' ++ digits)

def offsetText (offset : Int) : String :=
  if offset = 0 then "Z"
  else
    let minutes := offset.natAbs / 60
    (if offset < 0 then "-" else "+") ++ padded 2 (minutes / 60) ++ ":" ++ padded 2 (minutes % 60)

/-- The text of a fraction, without the zeros at its end. -/
def fractionText (nanos : Nat) : String :=
  let digits := ((padded 9 nanos).toList.reverse.dropWhile (· == '0')).reverse
  if digits.isEmpty then "" else String.ofList ('.' :: digits)

/-- The text of a timestamp, for years of four digits. -/
def Timestamp.text (t : Timestamp) : String :=
  let clock := t.seconds + t.offset
  let day := clock.fdiv 86400
  let ofDay := (clock - day * 86400).toNat
  let date := Date.ofDays day
  padded 4 date.year.toNat ++ "-" ++ padded 2 date.month ++ "-" ++ padded 2 date.day ++ "T"
    ++ padded 2 (ofDay / 3600) ++ ":" ++ padded 2 (ofDay / 60 % 60) ++ ":" ++ padded 2 (ofDay % 60)
    ++ fractionText t.nanos ++ offsetText t.offset

/-- Nanoseconds since the start of 1970, in 64 bits. -/
def Timestamp.unixNanos (t : Timestamp) : UInt64 :=
  UInt64.ofInt (t.seconds * 1000000000 + t.nanos)

end BlockVM.Time
