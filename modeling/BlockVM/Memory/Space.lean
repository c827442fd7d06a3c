import BlockVM.Memory.Arena

/-!
# Address spaces

A space finds the arena that an address lies in. Its arenas are kept in the order of their
addresses, so that a lookup is a binary search.

A closed arena has no address: ordering, searching or comparing it aborts. `add` then leaves the
new arena at the end of the list.
-/

namespace BlockVM

/-- The registered arenas in the order of their addresses. -/
structure Space where
  arenas : List Arena := []
deriving DecidableEq, Repr

namespace Space

def size (s : Space) : Nat := s.arenas.length

def below (a b : Arena) : Bool := a.base ≤ b.base

def add (s : Space) (a : Arena) : Space × Option Stop :=
  let all := s.arenas ++ [a]
  if 1 < all.length && all.any (fun x => !x.isOpen) then (⟨all⟩, some (.abort none))
  else (⟨all.mergeSort below⟩, none)

/-- Whether two values stand for the same mapping. A base does not decide that: the addresses of a
mapping that is gone may be handed out again. -/
def same (a b : Arena) : Bool := a.serial == b.serial

/-- Takes an arena out, whether it is open or not. -/
def remove (s : Space) (a : Arena) : Space := ⟨s.arenas.eraseP (same a)⟩

/-- The space after the mapping of an arena is gone. -/
def close (s : Space) (a : Arena) : Space :=
  ⟨s.arenas.map fun x => if same a x then x.close else x⟩

/-- The arena that begins at an address. -/
def findIn (addr : UInt64) : List Arena → Except Stop (Option Arena)
  | [] => .ok none
  | a :: rest => do
    if (← a.address) = addr then return some a
    findIn addr rest

/-- The arena that begins at an address. -/
def find (s : Space) (addr : UInt64) : Except Stop (Option Arena) := findIn addr s.arenas

/-- Halves `[lo, hi)` until it is empty: below the result arenas begin at or before the address,
from it on they begin after it. -/
def search (arenas : Array Arena) (addr : UInt64) (lo hi : Nat) : Except Stop Nat :=
  if _h : lo < hi then
    let mid := (lo + hi) / 2
    match arenas[mid]? with
    | none => .error (.abort none)
    | some a =>
      match a.address with
      | .error e => .error e
      | .ok base =>
        if addr < base then search arenas addr lo mid else search arenas addr (mid + 1) hi
  else .ok lo
termination_by hi - lo

/-- An access that begins in an arena and ends behind it. -/
def crossesEnd (a : Arena) (addr : UInt64) (n : Int64) : Failure :=
  .detailed (.cause .outOfBounds)
    (Hex.ofNat addr.toNat ++ "+" ++ toString n.toInt ++ " crosses end of " ++ a.name)

/-- An access that begins in no arena. -/
def notMapped (addr : UInt64) : Failure := .detailed (.cause .unmapped) (Hex.ofNat addr.toNat)

/-- The arena and the offset of `[addr, addr + n)`. -/
def resolve (s : Space) (addr : UInt64) (n : Int64) : Except Stop (Arena × Int64) := do
  let i ← search s.arenas.toArray addr 0 s.arenas.length
  match i with
  | 0 => throw (.failure (notMapped addr))
  | i + 1 =>
    match s.arenas[i]? with
    | none => throw (.failure (notMapped addr))
    | some a =>
      -- The last arena that begins at or below the address is the only one that can hold it.
      if a.covers addr n then return (a, (addr - a.base).toInt64)
      else if addr - a.base < UInt64.ofNat a.size then throw (.failure (crossesEnd a addr n))
      else throw (.failure (notMapped addr))

end Space

end BlockVM
