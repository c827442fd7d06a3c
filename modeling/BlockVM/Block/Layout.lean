import BlockVM.Block.Lower

/-!
# Layout of a block's machine code

A block's machine code is its items in order and, behind them, the float constants that they use, in
the order of their uses. The size of an item does not depend on what it waits for, so places are
known before the waiting fields are filled: a token names the place behind its exit, and a float
constant is addressed relative to the end of the instruction that uses it.
-/

namespace BlockVM

namespace Item

/-- The float constant that the item uses. -/
def constant? : Item → Option UInt32
  | loadConst _ bits | opConst _ _ bits => some bits
  | inst _ | token _ => none

/-- Bytes between the start of a token's instruction and the place behind its exit. -/
def exitSize : Nat := 15

/-- The instruction, given where it starts and the place of the constant that it uses. -/
def fill (off const : Nat) : Item → X86.Inst
  | inst i => i
  | token pc => .movRegImm64 Lower.acc (Lower.token pc (UInt32.ofNat (off + exitSize)))
  | loadConst x _ => .movssLoad x (.relative (Int32.ofNat const))
  | opConst op x _ => .sseMem op x (.relative (Int32.ofNat const))

def size (i : Item) : Nat := (i.fill 0 0).length

/-- The instruction at `off`, with the constant that it uses at `const`. -/
def resolve (off const : Nat) (i : Item) : X86.Inst :=
  match i.constant? with
  | some _ => i.fill off (const - (off + i.size))
  | none => i.fill off 0

end Item

namespace Layout

def sizeOf (items : List Item) : Nat := (items.map Item.size).sum

/-- The float constants that items use, in order. -/
def constants (items : List Item) : List UInt32 := items.filterMap Item.constant?

/-- The instructions of items that start at `off`; `const` is the place of the next constant. -/
def resolve : Nat → Nat → List Item → List X86.Inst
  | _, _, [] => []
  | off, const, i :: rest =>
    i.resolve off const ::
      resolve (off + i.size) (if i.constant?.isSome then const + 4 else const) rest

/-- The machine code of items, piece by piece: the instructions, then the constants. -/
def pieces (items : List Item) : List (List UInt8) :=
  (resolve 0 (sizeOf items) items).map X86.Inst.encode
    ++ (constants items).map LittleEndian.ofUInt32

end Layout

end BlockVM
