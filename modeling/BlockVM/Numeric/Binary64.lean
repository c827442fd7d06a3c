import BlockVM.Numeric.Instances

/-!
# Natural numbers in 53 bits

Counters are kept with 53 bits of precision: a larger number is rounded to the nearest one that has
so many significant bits, and a tie goes to the even one. Such a number is written with the fewest
significant digits that still round to it.
-/

namespace BlockVM.Binary64

/-- The nearest number with 53 significant bits. -/
def round (n : Nat) : Nat :=
  let unit := 2 ^ (n.log2 + 1 - 53)
  let down := n / unit
  let rest := n % unit
  if 2 * rest < unit ∨ (2 * rest = unit ∧ down % 2 = 0) then down * unit else (down + 1) * unit

/-- The number nearest to `n` among those that round to `n`, of `digits` significant digits or up to
`fuel` more. -/
def fewest (n : Nat) : (fuel digits : Nat) → Nat
  | 0, _ => n
  | fuel + 1, digits =>
    let grid := 10 ^ ((Nat.toDigits 10 n).length - digits)
    let down := n / grid * grid
    let up := down + grid
    let nearDown := 2 * (n - down) ≤ grid
    if round down = n ∧ (nearDown ∨ round up ≠ n) then down
    else if round up = n then up
    else fewest n fuel (digits + 1)

/-- The text of a number that has 53 significant bits. -/
def text (n : Nat) : String := toString (if n < 2 ^ 53 then n else fewest n 17 1)

end BlockVM.Binary64
