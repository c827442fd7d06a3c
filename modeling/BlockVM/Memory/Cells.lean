import Std.Data.HashMap
import BlockVM.Bytes.LittleEndian

/-!
# Byte memory

A memory holds one byte at every 64-bit address; a byte that was never stored is zero. Words are
little-endian runs of bytes, and addresses wrap at the top of the range.

`load_store` says that a store changes the byte at its own address and no other.
-/

namespace BlockVM

/-- A byte at every address. -/
structure Memory where
  cells : Std.HashMap UInt64 UInt8 := {}

namespace Memory

def load (m : Memory) (a : UInt64) : UInt8 := m.cells.getD a 0

def store (m : Memory) (a : UInt64) (b : UInt8) : Memory := ⟨m.cells.insert a b⟩

theorem load_store (m : Memory) (a a' : UInt64) (b : UInt8) :
    (m.store a b).load a' = if a = a' then b else m.load a' := by
  simp [load, store, Std.HashMap.getD_insert]

def loadBytes (m : Memory) (a : UInt64) : Nat → List UInt8
  | 0 => []
  | n + 1 => m.load a :: m.loadBytes (a + 1) n

def storeBytes (m : Memory) (a : UInt64) : List UInt8 → Memory
  | [] => m
  | b :: bs => (m.store a b).storeBytes (a + 1) bs

@[simp] theorem length_loadBytes (m : Memory) (a : UInt64) (n : Nat) :
    (m.loadBytes a n).length = n := by
  induction n generalizing a with
  | zero => rfl
  | succ n ih => simp [loadBytes, ih]

/-- Makes the bytes of `[a, a + n)` zero. -/
def clear (m : Memory) (a : UInt64) (n : Nat) : Memory :=
  ⟨m.cells.filter fun a' _ => n ≤ (a' - a).toNat⟩

/-- The little-endian word of `n` bytes at an address. -/
def word (m : Memory) (a : UInt64) (n : Nat) : UInt64 := LittleEndian.toUInt64 (m.loadBytes a n)

/-- Stores the low `n` bytes of a word. -/
def setWord (m : Memory) (a : UInt64) (n : Nat) (v : UInt64) : Memory :=
  m.storeBytes a (LittleEndian.bytes n v.toNat)

/-- The length of `[base, base + size)` without the zero bytes at its end. -/
def extent (m : Memory) (base : UInt64) (size : Nat) : Nat :=
  m.cells.fold
    (fun n a b => if b ≠ 0 ∧ (a - base).toNat < size then max n ((a - base).toNat + 1) else n) 0

/-- The bytes of `[base, base + size)` without the zero bytes at its end. -/
def significant (m : Memory) (base : UInt64) (size : Nat) : List UInt8 :=
  m.loadBytes base (m.extent base size)

end Memory

end BlockVM
