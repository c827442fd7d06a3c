import BlockVM.Block.Compile
import BlockVM.Proofs.Block.Prepared
import BlockVM.Proofs.Isa.RoundTrip

/-!
# How far a run reaches

A run is the longest row of instructions that can be compiled. `extent_at` says so: the instructions
of the run tile the code from its start to its stop, each of them can be compiled, and at the stop
there is a barrier. The bound on the number of instructions is never what ends a run, because each
of them takes at least two bytes of the code.
-/

namespace BlockVM

open Isa (Inst Tiles)

/-- An instruction of the code that a block may hold: it transfers no control, and it is accepted
together with its operands. -/
structure Compilable (code : Array UInt8) (g : Int64) (i : Inst) : Prop where
  read : Isa.decode code i.pc = .ok i
  straight : i.info.isControl = false
  accepted : ∃ ops, prepare i g = .ok ops

/-- Why no block goes on at an address. -/
inductive Barrier (code : Array UInt8) (g pc : Int64) : Prop
  | codeEnd (atEnd : pc.toInt = code.size)
  | undecodable {e : Stop} (failed : Isa.decode code pc = .error e)
  | control {i : Inst} (read : Isa.decode code pc = .ok i) (transfers : i.info.isControl = true)
  | rejected {i : Inst} {e : Stop} (read : Isa.decode code pc = .ok i)
      (refused : prepare i g = .error e)

/-- The instructions fill the code from an address to the next barrier. -/
structure Extent (code : Array UInt8) (g pc : Int64) (is : List Inst) (stop : Int64) : Prop where
  tiles : Tiles pc.toNatClampNeg is stop.toNatClampNeg
  compilable : ∀ i ∈ is, Compilable code g i
  nonneg : 0 ≤ stop
  barrier : Barrier code g stop

/-! ## Roles of accepted operands -/

namespace Action

/-- Whether a family has an action depends on the number of its operands only. -/
theorem isSome_of? {f : Isa.Family} {w w' : Nat} {ops ops' : List Operand}
    (h : ops.length = ops'.length) : (of? f w ops).isSome = (of? f w' ops').isSome := by
  match ops, ops', h with
  | [], [], _ => rfl
  | [_], [_], _ => cases f <;> rfl
  | [_, _], [_, _], _ => cases f <;> rfl
  | [_, _, _], [_, _, _], _ => cases f <;> rfl
  | _ :: _ :: _ :: _ :: _, _ :: _ :: _ :: _ :: _, _ => rfl

/-- Every family that does not transfer control has an action for the operands of its own
definition. -/
theorem of?_definitions : ∀ d ∈ Isa.definitions, d.family.isControl = false →
    (of? d.family 0 (d.slots.map fun _ => .imm 0)).isSome = true := by
  decide +kernel

theorem length_operandsFrom {i : Inst} {g : Int64} {slot : Nat} {args : List Isa.Operand}
    {ops : List Operand} (h : operandsFrom i g slot args = .ok ops) : ops.length = args.length := by
  induction args generalizing slot ops with
  | nil =>
    cases h
    rfl
  | cons a args ih =>
    obtain ⟨o, rest, -, hrest, rfl⟩ := operandsFrom_cons h
    rw [List.length_cons, List.length_cons, ih hrest]

/-- An instruction that is decoded and accepted has an action. -/
theorem ofInst_of_prepare {code : Array UInt8} {pc g : Int64} {i : Inst} {ops : List Operand}
    (hi : Isa.Decoded code pc i) (hc : i.info.isControl = false) (h : prepare i g = .ok ops) :
    ∃ a, ofInst i g = .ok a := by
  obtain ⟨⟨⟩, -, hops⟩ := bind_eq_ok.mp h
  obtain ⟨op, d, hd, hinfo⟩ := Isa.mem_table_iff.mp hi.known
  have hlength : ops.length = (d.slots.map fun _ => Operand.imm 0).length := by
    have hkinds := congrArg List.length hi.kinds_eq
    rw [length_operandsFrom hops, List.length_map]
    rw [hinfo] at hkinds
    simpa only [Isa.Definition.info, List.length_map] using hkinds
  have hfamily : i.family = d.family := by
    show i.info.family = d.family
    rw [hinfo]
    rfl
  have hsome := of?_definitions d (List.mem_of_getElem? hd) (hfamily ▸ hc)
  rw [← hfamily, ← isSome_of? (w := i.info.width) hlength] at hsome
  obtain ⟨a, ha⟩ := Option.isSome_iff_exists.mp hsome
  refine ⟨a, ?_⟩
  simp only [ofInst, h, ha, bind, Except.bind, pure, Except.pure]

end Action

/-! ## Runs -/

/-- The instruction behind one that was decoded begins inside the code or at its end. -/
theorem next_of_decode {code : Array UInt8} {pc : Int64} {i : Inst} (hcode : code.size < 2 ^ 63)
    (read : Isa.decode code pc = .ok i) :
    i.pc = pc ∧ 0 ≤ pc ∧ i.next.toInt = pc.toInt + i.length ∧
      pc.toInt + i.length ≤ code.size ∧ 2 ≤ i.length := by
  have hi := Isa.decode_eq_ok read
  have hnonneg := toInt_nonneg_iff.mp hi.nonneg
  have hend : pc.toInt.toNat + i.length ≤ code.size := (Isa.encoding_of_decode read).1
  have hlength : (Int64.ofNat i.length).toInt = i.length :=
    Int64.toInt_ofNat_of_lt (by omega)
  have hnext : i.next.toInt = pc.toInt + i.length := by
    show (i.pc + Int64.ofNat i.length).toInt = _
    rw [hi.pc_eq, toInt_add_of_bounds (by omega) (by omega), hlength]
  exact ⟨hi.pc_eq, hi.nonneg, hnext, by omega, Nat.le_add_right _ _⟩

/-- An extent that meets its barrier at once is empty. -/
theorem extent_nil {code : Array UInt8} {g pc : Int64} (nonneg : 0 ≤ pc)
    (barrier : Barrier code g pc) : Extent code g pc [] pc :=
  ⟨.nil, nofun, nonneg, barrier⟩

/-- One more instruction in front. -/
theorem Extent.cons {code : Array UInt8} {g pc stop : Int64} {i : Inst} {is : List Inst}
    (hcode : code.size < 2 ^ 63) (read : Isa.decode code pc = .ok i)
    (straight : i.info.isControl = false) (accepted : ∃ ops, prepare i g = .ok ops)
    (rest : Extent code g i.next is stop) : Extent code g pc (i :: is) stop := by
  obtain ⟨hpc, hnonneg, hnext, -, -⟩ := next_of_decode hcode read
  have hnonneg := toInt_nonneg_iff.mp hnonneg
  refine ⟨.cons ?_ ?_, ?_, rest.nonneg, rest.barrier⟩
  · rw [hpc]
    show pc.toInt = pc.toInt.toNat
    omega
  · have hplace : pc.toNatClampNeg + i.length = i.next.toNatClampNeg := by
      show pc.toInt.toNat + i.length = i.next.toInt.toNat
      omega
    rw [hplace]
    exact rest.tiles
  · refine List.forall_mem_cons.mpr ⟨⟨?_, straight, accepted⟩, rest.compilable⟩
    rw [hpc]
    exact read

/-- A run that may be as long as the code ends at a barrier. -/
theorem extent_take {code : Array UInt8} {g : Int64} {fuel : Nat} {pc : Int64}
    (hcode : code.size < 2 ^ 63) (hpc : 0 ≤ pc) (hin : pc.toInt ≤ code.size)
    (hfuel : code.size < pc.toInt + fuel) :
    Extent code g pc ((Run.take code g fuel pc).steps.map (·.1))
    (Run.take code g fuel pc).stop := by
  have hsize : (Int64.ofNat code.size).toInt = code.size := Int64.toInt_ofNat_of_lt hcode
  -- Every instruction is at least as long as its opcode, so the fuel lasts to the end of the code.
  induction fuel generalizing pc with
  | zero => omega
  | succ fuel ih =>
    unfold Run.take
    split
    next hlt =>
      split
      next e failed => exact extent_nil hpc (.undecodable failed)
      next i read =>
        split
        next hc => exact extent_nil hpc (.control read hc)
        next hc =>
          have hc := Bool.eq_false_iff.mpr hc
          have hi := Isa.decode_eq_ok read
          split
          next e refused =>
            refine extent_nil hpc ?_
            cases hprepare : prepare i g with
            | error e => exact .rejected read hprepare
            | ok ops =>
              obtain ⟨a, ha⟩ := Action.ofInst_of_prepare hi hc hprepare
              rw [ha] at refused
              cases refused
          next a ha =>
            obtain ⟨hv, ops, hops, -⟩ := Action.ofInst_eq_ok ha
            obtain ⟨-, hnonneg, hnext, hend, hlength⟩ := next_of_decode hcode read
            have hnonneg := toInt_nonneg_iff.mp hnonneg
            have hnext' : 0 ≤ i.next := toInt_nonneg_iff.mpr (by omega)
            have rest := ih hnext' (by omega) (by omega)
            exact Extent.cons hcode read hc ⟨ops, bind_eq_ok.mpr ⟨(), hv, hops⟩⟩ rest
    next hlt =>
      rw [Int64.lt_iff_toInt_lt, hsize] at hlt
      exact extent_nil hpc (.codeEnd (by omega))

/-- A run begins with an instruction that is decoded. -/
theorem decode_of_run {code : Array UInt8} {g pc : Int64} (some : (Run.at code g pc).steps ≠ []) :
    ∃ i, Isa.decode code pc = .ok i := by
  cases read : Isa.decode code pc with
  | ok i => exact ⟨i, rfl⟩
  | error e =>
    refine absurd ?_ some
    unfold Run.at Run.take
    rw [read]
    split <;> rfl

/-- A run that is not empty reaches up to the next barrier. -/
theorem extent_at {code : Array UInt8} {g pc : Int64} (hcode : code.size < 2 ^ 63)
    (some : (Run.at code g pc).steps ≠ []) :
    0 ≤ pc ∧ Extent code g pc ((Run.at code g pc).steps.map (·.1)) (Run.at code g pc).stop := by
  obtain ⟨i, read⟩ := decode_of_run some
  obtain ⟨-, hpc, -, hend, -⟩ := next_of_decode hcode read
  have hnonneg := toInt_nonneg_iff.mp hpc
  exact ⟨hpc, extent_take hcode hpc (by omega) (by omega)⟩

end BlockVM
