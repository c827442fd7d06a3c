import BlockVM.Machine.Registers

/-!
# The register file by its registers

Register numbers are places of the file, so a write changes the register that it names and no
other. Two files that agree on every register and on the stack pointer are equal.
-/

namespace BlockVM.Registers

/-- Registers of different numbers have different slots. -/
theorem slot_inj {r s : UInt8} : slot r = slot s ↔ r = s := by
  constructor
  · intro h
    exact UInt8.toNat_inj.mp (congrArg Fin.val h)
  · rintro rfl
    rfl

theorem int_setInt (f : Registers) (r s : UInt8) (v : UInt64) :
    (f.setInt r v).int s = if r = s then v else f.int s := by
  simp only [int, setInt, Fin.getElem_fin, Vector.getElem_set, ← Fin.ext_iff, slot_inj]

theorem float_setFloat (f : Registers) (r s : UInt8) (v : UInt32) :
    (f.setFloat r v).float s = if r = s then v else f.float s := by
  simp only [float, setFloat, Fin.getElem_fin, Vector.getElem_set, ← Fin.ext_iff, slot_inj]

@[simp] theorem int_setFloat (f : Registers) (r s : UInt8) (v : UInt32) :
    (f.setFloat r v).int s = f.int s := rfl

@[simp] theorem float_setInt (f : Registers) (r s : UInt8) (v : UInt64) :
    (f.setInt r v).float s = f.float s := rfl

@[simp] theorem sp_setInt (f : Registers) (r : UInt8) (v : UInt64) : (f.setInt r v).sp = f.sp := rfl

@[simp] theorem sp_setFloat (f : Registers) (r : UInt8) (v : UInt32) :
    (f.setFloat r v).sp = f.sp := rfl

/-- Every place of the file is that of a register. -/
theorem exists_slot (k : Fin 256) : ∃ r, slot r = k := by
  exact ⟨UInt8.ofFin k, rfl⟩

theorem ext_of {f g : Registers} (hint : ∀ r, f.int r = g.int r)
    (hfloat : ∀ r, f.float r = g.float r) (hsp : f.sp = g.sp) : f = g := by
  obtain ⟨ints, floats, sp⟩ := f
  obtain ⟨ints', floats', sp'⟩ := g
  have hi : ints = ints' := by
    apply Vector.ext
    intro k hk
    obtain ⟨r, hr⟩ := exists_slot ⟨k, hk⟩
    have := hint r
    simpa only [int, hr, Fin.getElem_fin] using this
  have hf : floats = floats' := by
    apply Vector.ext
    intro k hk
    obtain ⟨r, hr⟩ := exists_slot ⟨k, hk⟩
    have := hfloat r
    simpa only [float, hr, Fin.getElem_fin] using this
  subst hi hf
  cases hsp
  rfl

end BlockVM.Registers
