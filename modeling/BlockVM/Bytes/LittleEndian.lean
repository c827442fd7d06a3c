import BlockVM.Numeric.Instances

/-!
# Little-endian words

Every fixed-width field of the system (operands, memory cells, ports, machine code, image fields)
is stored with its least significant byte first. `value` reads a byte string as a number and
`bytes` writes a number at a given width.

The two are inverse up to the width: `value_bytes` says that writing keeps the number modulo
`256 ^ n`, `bytes_value` that every byte string is what its own value writes.
-/

namespace BlockVM.LittleEndian

/-- The number a byte string stands for. -/
def value : List UInt8 → Nat
  | [] => 0
  | b :: bs => b.toNat + 256 * value bs

def bytes : Nat → Nat → List UInt8
  | 0, _ => []
  | n + 1, v => UInt8.ofNat v :: bytes n (v / 256)

@[simp] theorem length_bytes (n v : Nat) : (bytes n v).length = n := by
  induction n generalizing v with
  | zero => rfl
  | succ n ih => simp [bytes, ih]

theorem value_lt (bs : List UInt8) : value bs < 256 ^ bs.length := by
  induction bs with
  | nil => simp [value]
  | cons b bs ih =>
    have hb : b.toNat < 256 := b.toNat_lt
    simp only [value, List.length_cons, Nat.pow_succ]
    omega

theorem value_bytes (n v : Nat) : value (bytes n v) = v % 256 ^ n := by
  induction n generalizing v with
  | zero => simp [bytes, value, Nat.mod_one]
  | succ n ih =>
    have low : (UInt8.ofNat v).toNat = v % 256 := by simp
    simp only [bytes, value, ih, low]
    rw [Nat.pow_succ, Nat.mul_comm (256 ^ n) 256, Nat.mod_mul]

theorem bytes_value (bs : List UInt8) : bytes bs.length (value bs) = bs := by
  induction bs with
  | nil => rfl
  | cons b bs ih =>
    have hb : b.toNat < 256 := b.toNat_lt
    have hdiv : (b.toNat + 256 * value bs) / 256 = value bs := by omega
    simp only [List.length_cons, bytes, value, hdiv, ih, List.cons.injEq, and_true]
    apply UInt8.toNat_inj.1
    simp

def ofUInt16 (v : UInt16) : List UInt8 := bytes 2 v.toNat

def ofUInt32 (v : UInt32) : List UInt8 := bytes 4 v.toNat

def ofUInt64 (v : UInt64) : List UInt8 := bytes 8 v.toNat

/-- The low 64 bits of a byte string's value. -/
def toUInt64 (bs : List UInt8) : UInt64 := UInt64.ofNat (value bs)

/-- The low 32 bits of a byte string's value. -/
def toUInt32 (bs : List UInt8) : UInt32 := UInt32.ofNat (value bs)

end BlockVM.LittleEndian
