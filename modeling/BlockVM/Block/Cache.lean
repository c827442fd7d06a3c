import BlockVM.Block.Compile

/-!
# Block caches

A cache holds the compiled blocks of one core by start address, in ascending order. A block is never
replaced: inserting one twice means that it was compiled twice, and aborts.
-/

namespace BlockVM

structure Cache where
  /-- Start addresses and their blocks, ascending. -/
  entries : List (Int64 × Block) := []
deriving DecidableEq, Repr

namespace Cache

def find? (c : Cache) (pc : Int64) : Option Block := c.entries.lookup pc

/-- Puts an entry before the first one with a larger address. -/
def insertInto (pc : Int64) (b : Block) : List (Int64 × Block) → List (Int64 × Block)
  | [] => [(pc, b)]
  | e :: rest => if pc < e.1 then (pc, b) :: e :: rest else e :: insertInto pc b rest

def insert (c : Cache) (pc : Int64) (b : Block) : Except Stop Cache :=
  match c.find? pc with
  | some _ =>
    .error (.abort (some ("dynarec: block " ++ Hex.ofInt pc.toInt ++ " already cached")))
  | none => .ok ⟨insertInto pc b c.entries⟩

def size (c : Cache) : Nat := c.entries.length

/-- The start addresses, ascending. -/
def starts (c : Cache) : List Int64 := c.entries.map (·.1)

/-- Bytes of machine code in the cache. -/
def codeBytes (c : Cache) : Nat := (c.entries.map fun e => e.2.code.size).sum

end Cache

end BlockVM
