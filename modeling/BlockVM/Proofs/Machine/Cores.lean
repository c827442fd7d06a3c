import BlockVM.Machine.State
import BlockVM.Proofs.Memory.Mapping

/-!
# New cores

A core needs three mappings, and each of them may be refused. `mapCore_eq_ok` and `mapCore_eq_error`
say what the host has done when all of them, or not all of them, were granted, and `newCore_cases`
what becomes of the process.
-/

namespace BlockVM

namespace Host

/-- The memory of a core comes from three mappings, made one after the other. -/
theorem mapCore_eq_ok {h h' : Host} {name : String} {stackSize dataSize : Nat} {a : CoreMemory}
    (hm : h.mapCore name stackSize dataSize = (h', .ok a)) :
    ∃ h₁ h₂, h.Grants (name ++ ".state") (Int64.ofNat Layout.fileSize) a.state h₁ ∧
      h₁.Grants (name ++ ".stack") (Int64.ofNat stackSize) a.stack h₂ ∧
      h₂.Grants (name ++ ".data") (Int64.ofNat dataSize) a.data h' := by
  unfold mapCore at hm
  split at hm
  · cases hm
  next hstate =>
    split at hm
    · cases hm
    next hstack =>
      split at hm
      · cases hm
      next hdata =>
        cases hm
        exact ⟨_, _, map_eq_ok hstate, map_eq_ok hstack, map_eq_ok hdata⟩

/-- Taking the latest mapping back leaves the others. -/
theorem Grants.unmap_live {h h' : Host} {name : String} {size : Int64} {a : Arena}
    (g : h.Grants name size a h') : (h'.unmap a).live = h.live := by
  show h'.live.eraseP (Space.same a) = h.live
  rw [g.live, List.eraseP_cons_of_pos (Space.same_self a)]

/-- Memory for a core that is refused leaves no mapping behind. -/
theorem mapCore_eq_error {h h' : Host} {name : String} {stackSize dataSize : Nat}
    {e : String × Failure} (hm : h.mapCore name stackSize dataSize = (h', .error e)) :
    h'.live = h.live ∧ h.history.length ≤ h'.history.length := by
  unfold mapCore at hm
  split at hm
  · cases hm
    exact ⟨rfl, Nat.le_refl _⟩
  next state h₁ hstate =>
    have gstate := map_eq_ok hstate
    have first : h₁.history.length = h.history.length + 1 := by
      rw [gstate.history, List.length_cons]
    split at hm
    · cases hm
      refine ⟨gstate.unmap_live, ?_⟩
      show h.history.length ≤ h₁.history.length
      omega
    -- What was mapped before a refusal is given back, so the live mappings are the old ones.
    next stack h₂ hstack =>
      have gstack := map_eq_ok hstack
      have second : h₂.history.length = h₁.history.length + 1 := by
        rw [gstack.history, List.length_cons]
      split at hm
      · cases hm
        constructor
        · show (h₂.unmap stack).live.eraseP (Space.same state) = h.live
          rw [gstack.unmap_live]
          exact gstate.unmap_live
        · show h.history.length ≤ h₂.history.length
          omega
      · cases hm

end Host

namespace Proc

/-- The core that a process makes of mapped memory. -/
def coreOn (p : Proc) (start : Int64) (a : CoreMemory) : Core where
  id := p.coreCount
  pc := start
  regs := (Registers.zero.setInt dataReg a.data.base).setInt globalReg p.global.base
  toCoreMemory := a
  ports := wiredPorts
  stats := { core := Int64.ofNat p.coreCount }

/-- Making a core fails with the mappings, or registers the stack and the data space. -/
theorem newCore_cases (p : Proc) (start : Int64) (param : UInt64) :
    (∃ host what f, p.host.mapCore ("core" ++ toString p.coreCount)
        p.program.header.stackSize.toNat (dataSize p.program.header param) =
          (host, .error (what, f)) ∧
      p.newCore start param =
        ({ p with host := host, coreCount := p.coreCount + 1 },
          .error (.faultBy .resource start what f))) ∨
    ∃ host a memory, p.host.mapCore ("core" ++ toString p.coreCount)
        p.program.header.stackSize.toNat (dataSize p.program.header param) = (host, .ok a) ∧
      p.newCore start param =
        ((({ p with host := { host with memory := memory }, coreCount := p.coreCount + 1 } :
          Proc).register a.stack).register a.data, .ok (p.coreOn start a)) := by
  unfold newCore
  dsimp only
  generalize p.host.mapCore ("core" ++ toString p.coreCount) p.program.header.stackSize.toNat
    (dataSize p.program.header param) = r
  obtain ⟨host, ⟨what, f⟩ | a⟩ := r
  · exact .inl ⟨host, what, f, rfl, rfl⟩
  · exact .inr ⟨host, a, _, rfl, rfl⟩

/-- The size of a stack comes from a 32-bit field. -/
theorem stackSize_lt (p : Proc) {h h' : Host} {name : String} {a : Arena}
    (hm : h.Grants name (Int64.ofNat p.program.header.stackSize.toNat) a h') :
    a.size < 2 ^ 32 := by
  have hlt := p.program.header.stackSize.toNat_lt
  rw [hm.size_eq]
  show (Int64.ofNat p.program.header.stackSize.toNat).toInt.toNat < 2 ^ 32
  rw [Int64.toInt_ofNat_of_lt (by omega)]
  omega

/-- A new core has an empty stack of less than 4 GiB. -/
theorem newCore_stack {p p' : Proc} {c : Core} {start : Int64} {param : UInt64}
    (made : p.newCore start param = (p', .ok c)) : c.stack.size < 2 ^ 32 ∧ c.regs.sp = 0 := by
  rcases p.newCore_cases start param with ⟨host, what, f, -, h⟩ | ⟨host, a, memory, hmap, h⟩
  · rw [made] at h
    cases h
  · rw [made] at h
    cases h
    obtain ⟨_, _, -, hstack, -⟩ := Host.mapCore_eq_ok hmap
    exact ⟨p.stackSize_lt hstack, rfl⟩

end Proc

end BlockVM
