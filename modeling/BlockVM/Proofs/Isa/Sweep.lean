import BlockVM.Proofs.Isa.Bounds

/-!
# Linear sweeps

`Partition` cuts code into instructions by what stands in its bytes. Two bytes name one instruction,
so there is one way to go on from an address, and the partition that goes as far as it can is the
longest (`Partition.prefix_of_stuck`). `Sweeps` is the loop that decodes one instruction after the
other, with nothing that bounds its steps: a derivation is a run that ends. `sweep_sweeps` says that
it ends for all code, and `Sweeps.swept` that it finds the longest partition.
-/

namespace BlockVM.Isa

variable {code : Array UInt8}

/-! ## Partitions -/

/-- Instructions that stand one after the other from `pc` to `last`. -/
inductive Partition (code : Array UInt8) : Int → List Info → Int → Prop
  | nil {pc : Int} : Partition code pc [] pc
  | cons {pc last : Int} {info : Info} {infos : List Info} (head : Holds code pc info)
      (tail : Partition code (pc + info.length) infos last) : Partition code pc (info :: infos) last

/-- No instruction stands at `pc`. -/
def Stuck (code : Array UInt8) (pc : Int) : Prop := ∀ info, ¬ Holds code pc info

/-- Instructions from address 0 on that end at `last`. Every other partition from there is a part of
it. -/
structure Longest (code : Array UInt8) (infos : List Info) (last : Int) : Prop where
  partition : Partition code 0 infos last
  longest : ∀ infos' last', Partition code 0 infos' last' → infos' <+: infos

/-- The code consists of instructions. -/
def Complete (code : Array UInt8) : Prop := ∃ infos, Partition code 0 infos code.size

namespace Partition

variable {pc last last' : Int} {infos infos' : List Info}

/-- Two partitions from one address go the same way. One that cannot go on is the longer one. -/
theorem prefix_of_stuck (h : Partition code pc infos last) (stuck : Stuck code last)
    (h' : Partition code pc infos' last') : infos' <+: infos := by
  induction h generalizing infos' with
  | nil =>
    cases h' with
    | nil => exact List.prefix_refl _
    | cons head tail => exact absurd head (stuck _)
  | cons head tail ih =>
    cases h' with
    | nil => exact List.nil_prefix
    | cons head' tail' =>
      -- The bytes at an address name one instruction only.
      cases head.1.unique head'.1
      exact List.cons_prefix_cons.mpr ⟨rfl, ih stuck tail'⟩

/-- The same instructions end at the same address. -/
theorem last_unique (h : Partition code pc infos last) (h' : Partition code pc infos last') :
    last = last' := by
  induction h with
  | nil =>
    cases h'
    rfl
  | cons _ _ ih =>
    cases h' with
    | cons _ tail' => exact ih tail'

end Partition

/-- Behind the end of the code there is nothing. -/
theorem stuck_size (code : Array UInt8) : Stuck code code.size := by
  rintro info ⟨hnames, hinside⟩
  have := (length_bounds hnames).1
  simp only [opcodeSize] at this
  omega

/-- Code consists of instructions exactly if the longest partition reaches its end. -/
theorem Longest.complete_iff {infos : List Info} {last : Int} (h : Longest code infos last)
    (stuck : Stuck code last) : Complete code ↔ last = code.size := by
  constructor
  · rintro ⟨infos', h'⟩
    have hprefix := h.longest _ _ h'
    have hprefix' := h'.prefix_of_stuck (stuck_size code) h.partition
    rw [hprefix'.eq_of_length_le hprefix.length_le] at h
    exact h.partition.last_unique h'
  · rintro rfl
    exact ⟨infos, h.partition⟩

/-! ## Sweeps -/

/-- The runs of the loop: it ends at the end of the code or where nothing can be decoded. -/
inductive Sweeps (code : Array UInt8) : Int64 → List Inst → Option Stop → Prop
  | done {pc : Int64} (h : ¬ pc < Int64.ofNat code.size) : Sweeps code pc [] none
  | fails {pc : Int64} {e : Stop} (h : pc < Int64.ofNat code.size)
      (failed : decode code pc = .error e) : Sweeps code pc [] (some e)
  | step {pc : Int64} {i : Inst} {is : List Inst} {stop : Option Stop}
      (h : pc < Int64.ofNat code.size)
      (decoded : decode code pc = .ok i) (rest : Sweeps code i.next is stop) :
      Sweeps code pc (i :: is) stop

/-- What a run of the loop found: a partition that cannot go on at `last`. If that is not the end of
the code, the run stopped at a fault. -/
structure Swept (code : Array UInt8) (pc : Int64) (is : List Inst) (stop : Option Stop)
    (last : Int) : Prop where
  partition : Partition code pc.toInt (is.map Inst.info) last
  stuck : Stuck code last
  next : ∀ i, is.getLast? = some i → i.next.toInt = last
  done : stop = none ↔ last = code.size
  fault : ∀ e, stop = some e → ∃ kind at' text, e = .fault kind at' text ∧ at'.toInt = last

section Sweep

variable (hsize : code.size + 16 < 2 ^ 63) {pc : Int64}

include hsize

/-- What is decoded inside the code stands there, and what follows it comes later and is inside,
too. -/
theorem holds_of_decode {i : Inst} (hpc : 0 ≤ pc.toInt) (hin : pc.toInt ≤ code.size)
    (h : decode code pc = .ok i) :
    Holds code pc.toInt i.info ∧ i.next.toInt = pc.toInt + i.info.length ∧
      pc.toInt < i.next.toInt ∧ i.next.toInt ≤ code.size := by
  have hexact : Exact code pc := exact_of_inRange (by omega) (inRange_of_lt (by omega))
  have hholds := (hexact.decode.ok i.info).mp ⟨i, h, rfl⟩
  obtain ⟨i', h', hpc', -⟩ := decode_of_holds (by omega) hholds
  cases h.symm.trans h'
  obtain ⟨hlow, hhigh⟩ := length_bounds hholds.1
  have hinside := hholds.2
  have hlength : (Int64.ofNat i.info.length).toInt = i.info.length :=
    Int64.toInt_ofNat_of_lt (by omega)
  have hnext : i.next.toInt = pc.toInt + i.info.length := by
    rw [Inst.next, hpc', toInt_add_of_bounds, hlength] <;> rw [hlength] <;> omega
  simp only [opcodeSize] at hlow
  exact ⟨hholds, hnext, by omega, by omega⟩

/-- Where decoding fails there is no instruction. -/
theorem stuck_of_decode {e : Stop} (h : decode code pc = .error e) : Stuck code pc.toInt := by
  intro info hholds
  obtain ⟨i, hi, -⟩ := decode_of_holds (by omega) hholds
  rw [h] at hi
  cases hi

/-- Inside the code, decoding fails by a fault and does not abort. -/
theorem fault_of_decode {e : Stop} (hpc : pc.toInt ≤ code.size) (h : decode code pc = .error e) :
    ∃ kind text, e = .fault kind pc text := by
  have hexact : Exact code pc := exact_of_inRange (by omega) (inRange_of_lt (by omega))
  have hfault : ∃ kind, FaultsAt kind pc (decode code pc) := by
    by_cases hunknown : Unknown code pc.toInt
    · exact ⟨_, hexact.decode.invalid.mpr hunknown⟩
    · have hnone : ¬ ∃ info, Holds code pc.toInt info :=
        fun ⟨info, hinfo⟩ => stuck_of_decode hsize h info hinfo
      exact ⟨_, hexact.decode.outside.mpr (not_or.mpr ⟨hnone, hunknown⟩)⟩
  obtain ⟨kind, text, hfault⟩ := hfault
  exact ⟨kind, text, Except.error.inj (h.symm.trans hfault)⟩

/-- Every instruction moves the sweep on, so it is at the end after as many steps as there are
bytes. -/
theorem sweepFrom_sweeps {fuel : Nat} (hpc : 0 ≤ pc.toInt) (hin : pc.toInt ≤ code.size)
    (hfuel : code.size - pc.toInt < fuel) :
    Sweeps code pc (sweepFrom code fuel pc).1 (sweepFrom code fuel pc).2 := by
  induction fuel generalizing pc with
  | zero => omega
  | succ fuel ih =>
    rw [sweepFrom]
    split
    next hlt =>
      cases hdecode : decode code pc with
      | error e => exact .fails hlt hdecode
      | ok i =>
        -- The distance to the end is what the fuel has to cover, and it shrinks.
        obtain ⟨-, -, hlater, hinside⟩ := holds_of_decode hsize hpc hin hdecode
        exact .step hlt hdecode (ih (by omega) hinside (by omega))
    next hend => exact .done hend

/-- The fuel of a sweep is enough, since every instruction takes at least two bytes. -/
theorem sweep_sweeps : Sweeps code 0 (sweep code 0).1 (sweep code 0).2 := by
  apply sweepFrom_sweeps hsize
  · exact Int.le_refl 0
  · exact Int.natCast_nonneg _
  · show (code.size : Int) - 0 < (code.size + 1 : Nat)
    omega

/-- A sweep that starts in the code ends at a place in the code. -/
theorem Sweeps.swept {is : List Inst} {stop : Option Stop} (h : Sweeps code pc is stop)
    (hpc : 0 ≤ pc.toInt) (hin : pc.toInt ≤ code.size) : ∃ last, Swept code pc is stop last := by
  have htoInt : (Int64.ofNat code.size).toInt = code.size := Int64.toInt_ofNat_of_lt (by omega)
  induction h with
  | @done pc hend =>
    rw [Int64.lt_iff_toInt_lt, htoInt] at hend
    have hlast : pc.toInt = code.size := by omega
    exact ⟨pc.toInt, .nil, hlast ▸ stuck_size code, nofun, ⟨fun _ => hlast, fun _ => rfl⟩, nofun⟩
  | @fails pc e hlt failed =>
    rw [Int64.lt_iff_toInt_lt, htoInt] at hlt
    obtain ⟨kind, text, rfl⟩ := fault_of_decode hsize hin failed
    refine ⟨pc.toInt, .nil, stuck_of_decode hsize failed, nofun, ⟨nofun, fun hlast => by omega⟩, ?_⟩
    rintro e ⟨⟩
    exact ⟨kind, pc, text, rfl, rfl⟩
  | @step pc i is stop hlt decoded rest ih =>
    obtain ⟨hholds, hnext, hlater, hinside⟩ := holds_of_decode hsize hpc hin decoded
    obtain ⟨last, partition, stuck, next, done, fault⟩ := ih (by omega) hinside
    refine ⟨last, .cons hholds (hnext ▸ partition), stuck, ?_, done, fault⟩
    intro i' hi'
    -- The last instruction is this one only if none follows.
    cases is with
    | nil =>
      cases hi'
      cases partition
      rfl
    | cons i₂ is => exact next i' (by rwa [List.getLast?_cons_cons] at hi')

end Sweep

/-- A run from the start of the code finds the longest partition. -/
theorem Swept.longest {is : List Inst} {stop : Option Stop} {last : Int}
    (h : Swept code 0 is stop last) : Longest code (is.map Inst.info) last :=
  ⟨h.partition, fun _ _ h' => h.partition.prefix_of_stuck h.stuck h'⟩

end BlockVM.Isa
