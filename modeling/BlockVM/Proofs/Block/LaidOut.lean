import BlockVM.Proofs.Block.Compiled
import BlockVM.Proofs.Block.Extent
import BlockVM.Proofs.Block.Layout
import BlockVM.Proofs.Machine.Blocks

/-!
# The layout of a compiled block

A block starts with its entry. Behind it stand the shares of its instructions in the order of the
bytecode, the epilogue, and the float constants in the order of their uses (`block_is_laid_out`).
The share of an instruction that is left to the host is one exit and the entry again; its token
names the instruction and the place of that entry. Other shares wait for float constants only, and
lead to them by a displacement. No two fields that are filled in late overlap.
-/

namespace BlockVM

open Isa (Inst window)
open LittleEndian (ofUInt32 ofUInt64)
open X86 (encodeAll)

/-! ## Parts of a block -/

namespace Lower

/-- The machine code of an entry. -/
def entryCode : List UInt8 := encodeAll (Layout.insts enter)

/-- The machine code of an exit that returns a token. -/
def exitCode (token : UInt64) : List UInt8 :=
  (X86.Inst.movRegImm64 acc token).encode ++ encodeAll (Layout.insts leave)

/-- The machine code of the epilogue. -/
def finishCode : List UInt8 := encodeAll (Layout.insts finish)

end Lower

open Lower (entryCode exitCode finishCode)

/-- What an instruction contributes to the machine code of its block. -/
structure Share where
  offset : Nat
  code : List UInt8
  /-- The fields that are filled in late. -/
  patches : List Patch

namespace Share

/-- The shares stand one after the other. -/
inductive Fill : Nat → List Share → Nat → Prop
  | nil {pos : Nat} : Fill pos [] pos
  | cons {pos stop : Nat} {s : Share} {rest : List Share} (start : s.offset = pos)
      (next : Fill (pos + s.code.length) rest stop) : Fill pos (s :: rest) stop

/-- The share hands an instruction to the host: one exit, with a token that names the instruction
and the place behind the exit, where the block is entered again. -/
structure Exits (code : Array UInt8) (i : Inst) (token : UInt64) (s : Share) : Prop where
  code_eq : s.code = exitCode token ++ entryCode
  patches_eq : s.patches = [⟨s.offset + 2, ofUInt64 token⟩]
  returns : (exitCode token).getLast? = some 0xc3
  token_eq : token.toNat = i.pc.toNatClampNeg * 2 ^ 32 + (s.offset + (exitCode token).length)
  entered : window code (s.offset + (exitCode token).length) entryCode.length = entryCode
  nonzero : token ≠ 0
  noFault : ∀ pc, token ≠ Lower.token pc Lower.faultMark

/-- A displacement leads from the end of its field to a float constant. -/
structure Points (code : Array UInt8) (constants : Nat) (bits : UInt32) (p : Patch) : Prop where
  reaches : ∃ (disp : Int32) (place : Nat), p.bytes = ofUInt32 disp.toUInt32 ∧
    (p.pos : Int) + 4 + disp.toInt = place ∧ window code place 4 = ofUInt32 bits ∧
    constants ≤ place ∧ place + 4 ≤ code.size

/-- The share of an instruction in the code of its block, of which the float constants start at
`constants`. -/
structure Fits (code : Array UInt8) (t : Target) (constants : Nat) (i : Inst) (a : Action)
    (s : Share) : Prop where
  lowered : ∃ const, s.code = encodeAll (Layout.resolve s.offset const (a.lower t i.pc))
  exit : a.isHosted = true → ∃ token, s.Exits code i token
  uses : a.isHosted = false → List.Forall₂ (Points code constants) i.immediates s.patches
  inside : ∀ p ∈ s.patches, s.offset ≤ p.pos ∧ p.pos + p.bytes.length ≤ s.offset + s.code.length
  filled : ∀ p ∈ s.patches, window code p.pos p.bytes.length = p.bytes

end Share

/-- The layout of a block with these instructions. -/
structure Block.LaidOut (b : Block) (t : Target) (steps : List (Inst × Action))
    (shares : List Share) : Prop where
  parts : b.code.toList = entryCode ++ shares.flatMap (·.code) ++ finishCode
    ++ ((steps.filter (!·.2.isHosted)).flatMap (·.1.immediates)).flatMap ofUInt32
  returns : finishCode.getLast? = some 0xc3
  fill : Share.Fill entryCode.length shares (entryCode ++ shares.flatMap (·.code)).length
  fits : List.Forall₂ (fun step s => s.Fits b.code t
    (entryCode ++ shares.flatMap (·.code) ++ finishCode).length step.1 step.2) steps shares
  /-- The code comes out if the fields are left empty at first and filled in later. -/
  patched : b.code = Layout.patchAll
    (entryCode ++ steps.flatMap (fun step => Layout.draft (step.2.lower t step.1.pc)) ++ finishCode
      ++ ((steps.filter (!·.2.isHosted)).flatMap (·.1.immediates)).flatMap ofUInt32).toArray
    (shares.flatMap (·.patches))
  apart : (shares.flatMap (·.patches)).Pairwise fun p q => p.pos + p.bytes.length ≤ q.pos

/-! ## Shares -/

namespace Layout

def itemsOf (t : Target) (steps : List (Inst × Action)) : List Item :=
  steps.flatMap fun step => step.2.lower t step.1.pc

/-- The shares of instructions from `off` on, with the next constant at `const`. -/
def shares (t : Target) : Nat → Nat → List (Inst × Action) → List Share
  | _, _, [] => []
  | off, const, (i, a) :: rest =>
    let items := a.lower t i.pc
    ⟨off, encodeAll (resolve off const items), patches off const items⟩
      :: shares t (off + sizeOf items) (const + 4 * (constants items).length) rest

theorem itemsOf_cons (t : Target) (i : Inst) (a : Action) (rest : List (Inst × Action)) :
    itemsOf t ((i, a) :: rest) = a.lower t i.pc ++ itemsOf t rest := List.flatMap_cons

/-- The shares of the instructions are together the code of the block's body. -/
theorem code_shares (t : Target) (off const : Nat) (steps : List (Inst × Action)) :
    (shares t off const steps).flatMap (·.code) =
    encodeAll (resolve off const (itemsOf t steps)) := by
  induction steps generalizing off const with
  | nil => rfl
  | cons step rest ih =>
    rw [itemsOf_cons, resolve_append, X86.encodeAll_append, shares, List.flatMap_cons, ih]

theorem patches_shares (t : Target) (off const : Nat) (steps : List (Inst × Action)) :
    (shares t off const steps).flatMap (·.patches) = patches off const (itemsOf t steps) := by
  induction steps generalizing off const with
  | nil => rfl
  | cons step rest ih => rw [itemsOf_cons, patches_append, shares, List.flatMap_cons, ih]

theorem fill_shares (t : Target) (off const : Nat) (steps : List (Inst × Action)) :
    Share.Fill off (shares t off const steps) (off + sizeOf (itemsOf t steps)) := by
  induction steps generalizing off const with
  | nil => exact .nil
  | cons step rest ih =>
    obtain ⟨i, a⟩ := step
    have next :=
      ih (off + sizeOf (a.lower t i.pc)) (const + 4 * (constants (a.lower t i.pc)).length)
    rw [Nat.add_assoc, ← sizeOf_append, ← itemsOf_cons] at next
    refine .cons rfl ?_
    rw [length_encodeAll_resolve]
    exact next

end Layout

/-! ## Tokens -/

namespace Lower

/-- A token has the address in its upper half and the resume offset in its lower half. -/
theorem toNat_token {pc : Int64} {resume : UInt32} (nonneg : 0 ≤ pc.toInt)
    (low : pc.toInt < 2 ^ 32) :
    (token pc resume).toNat = pc.toNatClampNeg * 2 ^ 32 + resume.toNat := by
  have hpc : pc.toUInt64.toNat = pc.toNatClampNeg := by
    have := toNat_toUInt64_of_nonneg nonneg
    show pc.toUInt64.toNat = pc.toInt.toNat
    omega
  have hbound : pc.toNatClampNeg < 2 ^ 32 := by
    show pc.toInt.toNat < 2 ^ 32
    omega
  have hresume := resume.toNat_lt
  rw [token, UInt64.toNat_or, UInt64.toNat_shiftLeft, UInt32.toNat_toUInt64, hpc]
  show pc.toNatClampNeg <<< 32 % 2 ^ 64 ||| resume.toNat = _
  rw [Nat.mod_eq_of_lt (by rw [Nat.shiftLeft_eq]; omega),
    ← Nat.shiftLeft_add_eq_or_of_lt hresume, Nat.shiftLeft_eq]

/-- The lower half of a token. -/
theorem toUInt32_token (pc : Int64) (resume : UInt32) : (token pc resume).toUInt32 = resume := by
  apply UInt32.toNat_inj.mp
  rw [UInt64.toNat_toUInt32, token, UInt64.toNat_or, UInt64.toNat_shiftLeft, UInt32.toNat_toUInt64]
  show (pc.toUInt64.toNat <<< 32 % 2 ^ 64 ||| resume.toNat) % 2 ^ 32 = resume.toNat
  have hhigh : pc.toUInt64.toNat <<< 32 % 2 ^ 64 % 2 ^ 32 = 0 := by
    rw [Nat.shiftLeft_eq]
    omega
  rw [Nat.or_mod_two_pow, hhigh, Nat.zero_or, Nat.mod_eq_of_lt resume.toNat_lt]

end Lower

/-! ## What shares wait for -/

namespace Layout

/-- Every patched displacement points at its own constant behind the code. -/
theorem points_patches {code : Array UInt8} {start off const : Nat} {items : List Item}
    (own : handed items = []) (sits : Sits code off const items) (after : start ≤ const)
    (short : code.size < 2 ^ 31) :
    List.Forall₂ (Share.Points code start) (constants items) (patches off const items) := by
  induction items generalizing off const with
  | nil => exact .nil
  | cons i rest ih =>
    obtain ⟨here, later⟩ := sits.cons
    have hskip := skip_eq const i
    have others : List.Forall₂ (Share.Points code start) (constants rest)
        (patches (off + i.size) (skip const i) rest) := by
      refine ih ?_ later (by omega)
      cases i <;> first | exact own | cases own
    obtain ⟨head, zeros, -, -, hfield, hsize⟩ := i.encode_resolve off const
    rw [constants_cons, patches]
    cases i with
    | inst => exact others
    | token => cases own
    | loadConst x bits | opConst op x bits =>
      have inside : const + 4 ≤ code.size := here.inside
      have behind := here.behind
      rw [sizeOf_cons] at behind
      refine .cons ⟨_, const, rfl, ?_, here.stored.1, after, inside⟩ others
      -- The field takes the last four bytes, and the constant is behind the instruction.
      have hfour : zeros.length = 4 := hfield
      generalize Item.size _ = n at *
      have hdisp : (Int32.ofNat (const - (off + n))).toInt = (const - (off + n) : Nat) :=
        Int32.toInt_ofNat_of_lt (by omega)
      show ((off + n - 4 : Nat) : Int) + 4 + (Int32.ofNat (const - (off + n))).toInt = const
      rw [hdisp]
      omega

/-- The code holds what was filled in. -/
theorem filled_patches {code : Array UInt8} {off const : Nat} {items : List Item}
    (sits : Sits code off const items) {p : Patch} (hp : p ∈ patches off const items) :
    window code p.pos p.bytes.length = p.bytes := by
  induction items generalizing off const with
  | nil => cases hp
  | cons i rest ih =>
    obtain ⟨⟨⟨pre, post, rfl, hcode⟩, -, -, -⟩, later⟩ := sits.cons
    rw [patches, List.mem_append] at hp
    rcases hp with hp | hp
    -- The field is the last part of the encoding, so it ends where the item does.
    · obtain ⟨head, zeros, -, filled, hfield, hsize⟩ := i.encode_resolve pre.length const
      rw [resolve_cons, resolve, X86.encodeAll_singleton, filled, ← List.append_assoc] at hcode
      have found := window_eq hcode
      rw [List.length_append] at found
      have hpos : pre.length + i.size - (i.field pre.length const).length
          = pre.length + head.length := by omega
      cases i with
      | inst => cases hp
      | token | loadConst | opConst =>
        rw [Item.patches, List.mem_singleton] at hp
        subst hp
        dsimp only
        rw [hpos]
        exact found
    · exact ih later hp

end Layout

namespace Action

open Layout

/-- An instruction that the host serves is compiled to an exit and nothing else. -/
theorem lower_hosted {a : Action} (hosted : a.isHosted = true) (t : Target) (pc : Int64) :
    a.lower t pc = Lower.serviceExit pc := by
  cases a with
  | service => rfl
  | farith op =>
    cases op with
    | mod => rfl
    | _ => cases hosted
  | _ => cases hosted

/-- That exit loads a token of its instruction, and of where the block goes on. -/
theorem exits_lower {code : Array UInt8} {off const : Nat} {i : Inst} {a : Action}
    (hosted : a.isHosted = true) (nonneg : 0 ≤ i.pc.toInt) (low : i.pc.toInt < 2 ^ 32) (t : Target)
    (sits : Sits code off const (a.lower t i.pc)) (short : code.size < 2 ^ 31) :
    ∃ token, Share.Exits code i token ⟨off, encodeAll (resolve off const (a.lower t i.pc)),
      patches off const (a.lower t i.pc)⟩ := by
  obtain ⟨pre, post, rfl, hcode⟩ := sits.placed
  rw [lower_hosted hosted] at hcode ⊢
  let token := Lower.token i.pc (UInt32.ofNat (pre.length + Item.exitSize))
  have split : encodeAll (resolve pre.length const (Lower.serviceExit i.pc))
      = exitCode token ++ entryCode := by
    rfl
  have hlength : (exitCode token).length = 15 := rfl
  have hsize : pre.length + 15 ≤ code.size := by
    have := congrArg List.length hcode
    rw [split] at this
    simp only [Array.length_toList, List.length_append] at this
    omega
  have hresume : (UInt32.ofNat (pre.length + Item.exitSize)).toNat = pre.length + 15 := by
    refine UInt32.toNat_ofNat_of_lt' ?_
    show pre.length + 15 < 2 ^ 32
    omega
  have htoken : token.toNat = i.pc.toNatClampNeg * 2 ^ 32 + (pre.length + 15) := by
    rw [← hresume]
    exact Lower.toNat_token nonneg low
  refine ⟨token, split, ?_, rfl, htoken, ?_, ?_, ?_⟩
  · show [(⟨pre.length + 10 - 8, _⟩ : Patch)] = _
    rw [show pre.length + 10 - 8 = pre.length + 2 by omega]
    rfl
  · have found := @window_eq code (pre ++ exitCode token) entryCode post (by
      rw [hcode, split, List.append_assoc pre (exitCode token)])
    rw [List.length_append] at found
    exact found
  -- The resume offset is the low half of the token: behind the exit, so neither 0 nor the mark.
  · intro hzero
    rw [hzero] at htoken
    have : (0 : UInt64).toNat = 0 := rfl
    omega
  · intro pc hfault
    have hlow := congrArg UInt64.toUInt32 hfault
    rw [Lower.toUInt32_token, Lower.toUInt32_token] at hlow
    rw [hlow] at hresume
    have : Lower.faultMark.toNat = 0xffffffff := rfl
    omega

end Action

namespace Layout

/-- An instruction of a run, with what it asks for. -/
structure Accepted (code : Array UInt8) (g : Int64) (step : Inst × Action) : Prop where
  read : Isa.decode code step.1.pc = .ok step.1
  prepared : Action.ofInst step.1 g = .ok step.2
  low : step.1.pc.toInt < 2 ^ 32

/-- Every share fits, wherever in the code the shares stand. -/
theorem fits_shares {bytecode code : Array UInt8} {g : Int64} {t : Target} {start off const : Nat}
    {steps : List (Inst × Action)} (accepted : ∀ step ∈ steps, Accepted bytecode g step)
    (sits : Sits code off const (itemsOf t steps)) (after : start ≤ const)
    (short : code.size < 2 ^ 31) :
    List.Forall₂ (fun step s => s.Fits code t start step.1 step.2) steps
      (shares t off const steps) := by
  induction steps generalizing off const with
  | nil => exact .nil
  | cons step rest ih =>
    obtain ⟨i, a⟩ := step
    obtain ⟨accepted, others⟩ := List.forall_mem_cons.mp accepted
    rw [itemsOf_cons] at sits
    obtain ⟨here, later⟩ := sits.append
    have hdecoded := Isa.decode_eq_ok accepted.read
    -- Either the host serves the instruction, and the share is its exit, or it
    -- is lowered, and the share may use constants.
    refine .cons
      ⟨⟨const, rfl⟩, fun hosted => ?_, fun lowered => ?_, fun p hp => ?_, fun p hp => ?_⟩ ?_
    · exact Action.exits_lower hosted (toInt_nonneg_iff.mp hdecoded.nonneg) accepted.low
        t here short
    · obtain ⟨hconstants, own⟩ : constants (a.lower t i.pc) = i.immediates ∧
          handed (a.lower t i.pc) = [] := Action.waits_lower hdecoded accepted.prepared t lowered
      rw [← hconstants]
      exact points_patches own here after short
    · show _ ∧ _ ≤ off + (encodeAll _).length
      rw [length_encodeAll_resolve]
      exact patches_within hp
    · exact filled_patches here hp
    · exact ih others later (by omega)

end Layout

/-! ## Whole blocks -/

namespace Layout

/-- What the run collects was decoded, prepared and found to have low addresses. -/
theorem accepted_of_mem {code : Array UInt8} {g start : Int64} (hcode : code.size < 2 ^ 32)
    {step : Inst × Action} (h : step ∈ (Run.at code g start).steps) : Accepted code g step := by
  obtain ⟨-, extent⟩ := extent_at (by omega) (List.ne_nil_of_mem h)
  have read := (extent.compilable step.1 (List.mem_map_of_mem h)).read
  obtain ⟨-, -, -, hend, -⟩ := next_of_decode (by omega) read
  exact ⟨read, Machine.prepared_of_mem_take h, by omega⟩

/-- The float constants of a run are those of the instructions that are not left to the host. -/
theorem constants_itemsOf {code : Array UInt8} {g : Int64} {t : Target}
    {steps : List (Inst × Action)} (accepted : ∀ step ∈ steps, Accepted code g step) :
    constants (itemsOf t steps) = (steps.filter (!·.2.isHosted)).flatMap (·.1.immediates) := by
  induction steps with
  | nil => rfl
  | cons step rest ih =>
    obtain ⟨i, a⟩ := step
    obtain ⟨accepted, others⟩ := List.forall_mem_cons.mp accepted
    rw [itemsOf_cons, constants_append, ih others]
    cases hosted : a.isHosted with
    | true =>
      rw [List.filter_cons_of_neg (by simp [hosted]), Action.lower_hosted hosted]
      rfl
    | false =>
      rw [List.filter_cons_of_pos (by simp [hosted]), List.flatMap_cons]
      have waits := Action.waits_lower (Isa.decode_eq_ok accepted.read) accepted.prepared t hosted
      rw [waits.1]

theorem draft_itemsOf (t : Target) (steps : List (Inst × Action)) :
    draft (itemsOf t steps) = steps.flatMap fun step => draft (step.2.lower t step.1.pc) := by
  simp only [draft, itemsOf, encodeAll, List.map_flatMap, List.flatMap_assoc]

/-- Entry and finish have nothing that is filled in later. -/
theorem ready_ends : (∀ it ∈ Lower.enter, it.Ready) ∧ ∀ it ∈ Lower.finish, it.Ready := by
  have ready :=
    Run.ready_items (r := ⟨[], 0, none⟩) ⟨0, 0, 0⟩ (fun _ hs => absurd hs List.not_mem_nil)
  rw [Run.items, List.forall_mem_append, List.forall_mem_append] at ready
  exact ⟨ready.1.1, ready.2⟩

/-- The constants of a run are those of its instructions. -/
theorem constants_items (t : Target) (r : Run) :
    constants (r.items t) = constants (itemsOf t r.steps) := by
  rw [Run.items, constants_append, constants_append, constants_of_ready ready_ends.1,
    constants_of_ready ready_ends.2, List.nil_append, List.append_nil]
  rfl

theorem encodeAll_insts {items : List Item} (ready : ∀ it ∈ items, it.Ready) :
    (encodeAll (insts items)).length = sizeOf items := by
  rw [← resolve_of_ready ready 0 0, length_encodeAll_resolve]

/-- The code of a run: its entry, its instructions, its epilogue and its constants. -/
theorem flatten_run (t : Target) (r : Run) :
    (pieces (r.items t)).flatten = entryCode
      ++ encodeAll (resolve entryCode.length (sizeOf (r.items t)) (itemsOf t r.steps))
      ++ finishCode ++ (constants (itemsOf t r.steps)).flatMap ofUInt32 := by
  have hentry : sizeOf Lower.enter = entryCode.length := (encodeAll_insts ready_ends.1).symm
  have hitems : r.items t = Lower.enter ++ (itemsOf t r.steps ++ Lower.finish) :=
    List.append_assoc ..
  rw [flatten_pieces_eq, constants_items]
  generalize sizeOf (r.items t) = const
  rw [hitems, resolve_append, resolve_append, resolve_of_ready ready_ends.1,
    resolve_of_ready ready_ends.2, constants_of_ready ready_ends.1, X86.encodeAll_append,
    X86.encodeAll_append, Nat.zero_add, hentry, List.append_assoc entryCode]
  rfl

/-- The size of a block's items: the entry, the shares and the finish. -/
theorem sizeOf_items (t : Target) (r : Run) :
    sizeOf (r.items t) = entryCode.length + sizeOf (itemsOf t r.steps) + finishCode.length := by
  rw [Run.items, sizeOf_append, sizeOf_append, ← encodeAll_insts ready_ends.1,
    ← encodeAll_insts ready_ends.2]
  rfl

end Layout

section
open Layout

variable {code : Array UInt8} {t : Target} {start : Int64} {b : Block}

/-- The code of a block: entry, body, finish and the constants behind them. -/
theorem Block.IsRun.toList_code (run : b.IsRun code t start) :
    b.code.toList = entryCode ++ encodeAll (resolve entryCode.length
        (Layout.sizeOf ((Run.at code t.globalSize start).items t))
        (itemsOf t (Run.at code t.globalSize start).steps))
      ++ finishCode
      ++ (constants (itemsOf t (Run.at code t.globalSize start).steps)).flatMap ofUInt32 := by
  have flat := congrArg Array.toList run.code_eq
  rwa [flatten_run] at flat

/-- The instructions of a block sit behind its entry, and their constants behind its epilogue. -/
theorem Block.IsRun.sits (run : b.IsRun code t start) :
    Sits b.code entryCode.length (Layout.sizeOf ((Run.at code t.globalSize start).items t))
      (itemsOf t (Run.at code t.globalSize start).steps) := by
  have flat := run.toList_code
  have hconst := sizeOf_items t (Run.at code t.globalSize start)
  generalize Layout.sizeOf (Run.items t _) = const at *
  generalize itemsOf t _ = items at *
  have hends : (entryCode ++ encodeAll (resolve entryCode.length const items) ++ finishCode).length
      = const := by
    rw [List.length_append, List.length_append, length_encodeAll_resolve, hconst]
  refine ⟨⟨entryCode, _, rfl, flat.trans (List.append_assoc ..)⟩, ?_, by omega, ?_⟩
  · have stored := stored_of_eq (b := []) (flat.trans (List.append_nil _).symm)
    rwa [hends] at stored
  · have hlength := congrArg List.length flat
    rw [List.length_append, hends, Array.length_toList, List.length_flatMap] at hlength
    rw [hlength]
    simp [ofUInt32, Nat.mul_comm]

/-- The layout of the machine code of a run. -/
theorem Block.IsRun.laidOut (run : b.IsRun code t start) (hcode : code.size < 2 ^ 32)
    (hsize : b.code.size < 2 ^ 31) :
    b.LaidOut t (Run.at code t.globalSize start).steps
      (shares t entryCode.length (Layout.sizeOf ((Run.at code t.globalSize start).items t))
        (Run.at code t.globalSize start).steps) := by
  have accepted : ∀ step ∈ (Run.at code t.globalSize start).steps,
      Accepted code t.globalSize step :=
    fun step h => accepted_of_mem hcode h
  have flat := run.toList_code
  have sits := run.sits
  have hconst := sizeOf_items t (Run.at code t.globalSize start)
  generalize Layout.sizeOf (Run.items t _) = const at *
  -- The rest is about lists of items; where they come from no longer matters.
  generalize (Run.at code t.globalSize start).steps = steps at *
  have hcodes := code_shares t entryCode.length const steps
  refine ⟨?_, rfl, ?_, ?_, ?_, ?_⟩
  · rw [hcodes, ← constants_itemsOf accepted]
    exact flat
  · rw [List.length_append, hcodes, length_encodeAll_resolve]
    exact fill_shares t entryCode.length const steps
  · refine fits_shares accepted sits ?_ hsize
    rw [hcodes, List.length_append, List.length_append, length_encodeAll_resolve]
    exact Nat.le_of_eq hconst.symm
  · rw [patches_shares, ← draft_itemsOf, ← constants_itemsOf accepted, List.append_assoc,
      patched_draft, ← List.append_assoc, ← flat]
  · rw [patches_shares]
    exact pairwise_patches ..

end

/-- A compiled block has a share for each of its instructions, in order and without gaps, between
the entry and the finish; what the host serves is an exit with its token, and each float constant
stands behind the code where the displacement of its use points. -/
theorem block_is_laid_out {x : ExecMemory} {code : Array UInt8} {t : Target}
    {increment start : Int64} {b : Block} (compiled : compile x code t increment start = .ok b)
    (hcode : code.size < 2 ^ 32) (hsize : b.code.size < 2 ^ 31) :
    ∃ steps shares, Extent code t.globalSize start (steps.map (·.1)) b.stop ∧
      steps.length = b.insts ∧
      (∀ step ∈ steps, Action.ofInst step.1 t.globalSize = .ok step.2) ∧
      b.LaidOut t steps shares := by
  have run := isRun_of_compile compiled
  have extent := (extent_at (by omega) run.steps_ne).2
  rw [← run.stop_eq] at extent
  exact ⟨_, _, extent, run.insts_eq.symm, fun step h => Machine.prepared_of_mem_take h,
    run.laidOut hcode hsize⟩

/-- Code that asks for the time and loads a float constant. -/
def timedLoad : Array UInt8 := #[0x7e, 0x01, 0xc6, 0x00, 0x03, 0x00, 0x00, 0x80, 0x3f]

def askTime : Inst := ⟨0, Isa.Definition.info ⟨.time, 0, []⟩ 382, []⟩

def loadOne : Inst where
  pc := 2
  info := Isa.Definition.info ⟨.fmov, 0, [.plain .freg, .plain .fimm]⟩ 198
  args := [⟨.freg, 3⟩, ⟨.fimm, 0x3f800000⟩]

theorem decode_timedLoad :
    Isa.decode timedLoad 0 = .ok askTime ∧ Isa.decode timedLoad 2 = .ok loadOne := by
  have hfirst : Isa.peek timedLoad 0 = .ok askTime.info := @Isa.entry_eq_ok 0 382 _ rfl
  have hsecond : Isa.peek timedLoad 2 = .ok loadOne.info := @Isa.entry_eq_ok 2 198 _ rfl
  unfold Isa.decode
  rw [hfirst, hsecond]
  exact ⟨rfl, rfl⟩

theorem run_timedLoad : Run.at timedLoad 0 0 =
    ⟨[(askTime, .service .time), (loadOne, .fmove (.freg 3) (.fimm 0x3f800000))], 9, none⟩ := by
  have stop : Run.take timedLoad 0 8 9 = ⟨[], 9, none⟩ := by
    rw [Run.take, if_neg (by decide)]
  have next : askTime.next = 2 ∧ loadOne.next = 9 := ⟨rfl, rfl⟩
  have hfirst : Action.ofInst askTime 0 = .ok (.service .time) := rfl
  have hsecond : Action.ofInst loadOne 0 = .ok (.fmove (.freg 3) (.fimm 0x3f800000)) := rfl
  show Run.take timedLoad 0 10 0 = _
  rw [take_of_decode (by decide) decode_timedLoad.1 rfl hfirst, next.1,
    take_of_decode (by decide) decode_timedLoad.2 rfl hsecond, next.2, stop]

theorem compile_timedLoad : ∃ b, compile .unlimited timedLoad ⟨0, 0, 64⟩ 0 0 = .ok b ∧
    b.code.size = 64 := by
  have hok : ((compile .unlimited timedLoad ⟨0, 0, 64⟩ 0 0).toOption.any
      fun b => b.code.size == 64) = true := by
    unfold compile
    rw [show Run.at timedLoad 0 0 = _ from run_timedLoad]
    decide +kernel
  obtain ⟨b, hb, hsize⟩ := exists_of_any hok
  exact ⟨b, hb, beq_iff_eq.mp hsize⟩

/-- The block of `timedLoad` has one exit and one constant. -/
theorem block_is_laid_out_timedLoad : ∃ b steps shares,
    compile .unlimited timedLoad ⟨0, 0, 64⟩ 0 0 = .ok b ∧ b.code.size = 64 ∧
    Extent timedLoad 0 0 (steps.map (·.1)) b.stop ∧ b.LaidOut ⟨0, 0, 64⟩ steps shares := by
  obtain ⟨b, compiled, hsize⟩ := compile_timedLoad
  obtain ⟨steps, shares, extent, -, -, laid⟩ :=
    block_is_laid_out compiled (by decide) (by rw [hsize]; decide)
  exact ⟨b, steps, shares, compiled, hsize, extent, laid⟩

end BlockVM
