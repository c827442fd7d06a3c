import BlockVM.Proofs.Block.Lowered

/-!
# The layout of a block

The length of an item does not depend on the field that it waits for (`length_resolve`), so the code
of a row of items is that of its parts at the places where they start (`resolve_append`). A field
can also be filled in later: `patched_draft` says that the code is a draft with empty fields,
patched.

`waits_lower` says what the code of an instruction waits for: the float constants among the
operands, and nothing else unless the instruction is left to the host.
-/

namespace BlockVM

open Isa (Inst window)
open LittleEndian (ofUInt32 ofUInt64)
open X86 (encodeAll)

/-! ## Items -/

/-- Bytes that are filled in at a place of the code. -/
structure Patch where
  pos : Nat
  bytes : List UInt8
deriving DecidableEq, Repr

namespace Item

def blank : Item → X86.Inst
  | inst i => i
  | token _ => .movRegImm64 Lower.acc 0
  | loadConst x _ => .movssLoad x (.relative 0)
  | opConst op x _ => .sseMem op x (.relative 0)

/-- The waiting field of the item at `off`, with the constant that it uses at `const`. It takes the
last bytes of the instruction. -/
def field (off const : Nat) (i : Item) : List UInt8 :=
  match i with
  | inst _ => []
  | token pc => ofUInt64 (Lower.token pc (UInt32.ofNat (off + exitSize)))
  | loadConst .. | opConst .. => ofUInt32 (Int32.ofNat (const - (off + i.size))).toUInt32

def patches (off const : Nat) (i : Item) : List Patch :=
  match i with
  | inst _ => []
  | token _ | loadConst .. | opConst .. =>
    [⟨off + i.size - (i.field off const).length, i.field off const⟩]

/-- An access relative to the address of the next instruction ends in its displacement. -/
theorem sseIndirect_relative (pre : List UInt8) (wide : Bool) (op reg : UInt8) (d : Int32) :
    X86.sseIndirect pre wide op reg (.relative d) =
      pre ++ (X86.Mem.relative 0).rex wide reg false ++ [0x0f, op]
        ++ [X86.modRM X86.modIndirect reg 5] ++ ofUInt32 d.toUInt32 := by
  simp [X86.sseIndirect, X86.Mem.encode, X86.Mem.rex, X86.Mem.indexNum, X86.Mem.baseNum, X86.imm32]

/-- The instruction ends in its waiting field, and nothing else of it waits. -/
theorem encode_resolve (off const : Nat) (i : Item) : ∃ head zeros : List UInt8,
    i.blank.encode = head ++ zeros ∧ (i.resolve off const).encode = head ++ i.field off const ∧
    zeros.length = (i.field off const).length ∧ i.size = head.length + zeros.length := by
  cases i with
  | inst i => exact ⟨i.encode, [], by simp [blank], by
      simp [resolve, constant?, fill, field], rfl, rfl⟩
  | token pc => exact ⟨[0x48, 0xb8], _, rfl, rfl, rfl, rfl⟩
  | loadConst x bits =>
    have encoded (d : Int32) : (X86.Inst.movssLoad x (.relative d)).encode = _ :=
      sseIndirect_relative [0xf3] false 0x10 x.num d
    refine ⟨_, ofUInt32 0, encoded 0, ?_, by simp [field, ofUInt32], ?_⟩
    · exact encoded (Int32.ofNat (const - (off + (loadConst x bits).size)))
    · exact (congrArg List.length (encoded 0)).trans List.length_append
  | opConst op x bits =>
    have encoded (d : Int32) : (X86.Inst.sseMem op x (.relative d)).encode = _ :=
      sseIndirect_relative [0xf3] false op.code x.num d
    refine ⟨_, ofUInt32 0, encoded 0, ?_, by simp [field, ofUInt32], ?_⟩
    · exact encoded (Int32.ofNat (const - (off + (opConst op x bits).size)))
    · exact (congrArg List.length (encoded 0)).trans List.length_append

theorem length_resolve (off const : Nat) (i : Item) : (i.resolve off const).length = i.size := by
  obtain ⟨head, zeros, -, filled, hfield, hsize⟩ := i.encode_resolve off const
  rw [X86.Inst.length, filled, List.length_append, ← hfield, hsize]

end Item

/-! ## Rows of items -/

namespace Layout

/-- The place of the next constant behind one that may have been used. -/
def skip (const : Nat) (i : Item) : Nat := if i.constant?.isSome then const + 4 else const

/-- What fills the waiting fields of items that start at `off`; `const` is the place of the next
constant. -/
def patches : Nat → Nat → List Item → List Patch
  | _, _, [] => []
  | off, const, i :: rest => i.patches off const ++ patches (off + i.size) (skip const i) rest

/-- The code of items with their waiting fields empty. -/
def draft (items : List Item) : List UInt8 := encodeAll (items.map Item.blank)

theorem resolve_cons (off const : Nat) (i : Item) (rest : List Item) :
    resolve off const (i :: rest) =
      i.resolve off const :: resolve (off + i.size) (skip const i) rest := rfl

theorem sizeOf_cons (i : Item) (rest : List Item) : sizeOf (i :: rest) = i.size + sizeOf rest := by
  simp [sizeOf]

theorem sizeOf_append (xs ys : List Item) : sizeOf (xs ++ ys) = sizeOf xs + sizeOf ys := by
  simp [sizeOf]

theorem constants_append (xs ys : List Item) :
    constants (xs ++ ys) = constants xs ++ constants ys :=
  List.filterMap_append

theorem constants_cons (i : Item) (rest : List Item) :
    constants (i :: rest) = i.constant?.toList ++ constants rest := by
  unfold constants
  cases h : i.constant? <;> simp [h]

/-- An item with a constant moves the next one on by the four bytes of it. -/
theorem skip_eq (const : Nat) (i : Item) :
    skip const i = const + 4 * i.constant?.toList.length := by
  unfold skip
  cases i.constant? <;> simp

/-- The constants that a part uses stand in front of those of the rest. -/
theorem resolve_append (off const : Nat) (xs ys : List Item) :
    resolve off const (xs ++ ys) = resolve off const xs ++
      resolve (off + sizeOf xs) (const + 4 * (constants xs).length) ys := by
  induction xs generalizing off const with
  | nil => simp [resolve, sizeOf, constants]
  | cons i xs ih =>
    rw [List.cons_append, resolve_cons, resolve_cons, ih, List.cons_append, skip_eq, sizeOf_cons,
      constants_cons, List.length_append, Nat.mul_add, Nat.add_assoc, Nat.add_assoc]

/-- Patches of a sequence: those of its second part start behind the code and the constants of its
first. -/
theorem patches_append (off const : Nat) (xs ys : List Item) :
    patches off const (xs ++ ys) = patches off const xs ++
      patches (off + sizeOf xs) (const + 4 * (constants xs).length) ys := by
  induction xs generalizing off const with
  | nil => simp [patches, sizeOf, constants]
  | cons i xs ih =>
    rw [List.cons_append, patches, patches, ih, List.append_assoc, skip_eq, sizeOf_cons,
      constants_cons, List.length_append, Nat.mul_add, Nat.add_assoc, Nat.add_assoc]

theorem length_resolve (off const : Nat) (items : List Item) :
    (resolve off const items).length = items.length := by
  induction items generalizing off const with
  | nil => rfl
  | cons i rest ih => rw [resolve_cons, List.length_cons, List.length_cons, ih]

/-- The size of the code is known before its constants are placed. -/
theorem length_encodeAll_resolve (off const : Nat) (items : List Item) :
    (encodeAll (resolve off const items)).length = sizeOf items := by
  induction items generalizing off const with
  | nil => rfl
  | cons i rest ih =>
    rw [resolve_cons, encodeAll, List.flatMap_cons, List.length_append, sizeOf_cons,
      show (i.resolve off const).encode.length = i.size from i.length_resolve off const]
    exact congrArg (i.size + ·) (ih _ _)

/-- The code is that of the items, then the constants. -/
theorem flatten_pieces_eq (items : List Item) : (pieces items).flatten =
    encodeAll (resolve 0 (sizeOf items) items) ++ (constants items).flatMap ofUInt32 := by
  rw [pieces, List.flatten_append, encodeAll, List.flatMap_def, List.flatMap_def]

/-! ## Patches -/

def patchAll (code : Array UInt8) (ps : List Patch) : Array UInt8 :=
  ps.foldl (fun code p => CodeBuffer.overwrite code p.pos p.bytes) code

/-- Overwriting the middle of a buffer replaces it by bytes of the same length. -/
theorem overwrite_append (a b : List UInt8) {old new : List UInt8} (h : old.length = new.length) :
    CodeBuffer.overwrite (a ++ old ++ b).toArray a.length new = (a ++ new ++ b).toArray := by
  induction new generalizing a old with
  | nil =>
    rw [List.length_nil, List.length_eq_zero_iff] at h
    rw [h]
    rfl
  | cons x new ih =>
    obtain ⟨y, old, rfl⟩ :=
      List.exists_cons_of_length_pos (l := old) (by rw [h]; exact Nat.succ_pos _)
    have first : ((a ++ y :: old ++ b).toArray.setIfInBounds a.length x)
        = ((a ++ [x]) ++ old ++ b).toArray := by
      simp
    rw [CodeBuffer.overwrite, first]
    have rest := ih (a ++ [x]) (Nat.succ.inj h)
    rw [List.length_append] at rest
    simpa using rest

/-- Filling the waiting fields one after the other gives the code. -/
theorem patched_draft (pre tail : List UInt8) (const : Nat) (items : List Item) :
    patchAll (pre ++ draft items ++ tail).toArray (patches pre.length const items) =
      (pre ++ encodeAll (resolve pre.length const items) ++ tail).toArray := by
  induction items generalizing pre const with
  | nil => rfl
  | cons i rest ih =>
    -- The patches of the first item stay inside it.
    have first (tail : List UInt8) :
        patchAll (pre ++ i.blank.encode ++ tail).toArray (i.patches pre.length const)
          = (pre ++ (i.resolve pre.length const).encode ++ tail).toArray := by
      obtain ⟨head, zeros, empty, filled, hfield, hsize⟩ := i.encode_resolve pre.length const
      have fill := overwrite_append (pre ++ head) tail hfield
      rw [List.length_append] at fill
      have hpos : pre.length + i.size - (i.field pre.length const).length
          = pre.length + head.length := by omega
      cases i with
      | inst => rfl
      | token | loadConst | opConst =>
        rw [Item.patches, patchAll, List.foldl_cons, List.foldl_nil, hpos, empty, filled,
          ← List.append_assoc pre, ← List.append_assoc pre]
        exact fill
    have next := ih (pre ++ (i.resolve pre.length const).encode) (skip const i)
    rw [List.length_append, show (i.resolve pre.length const).encode.length = i.size from
      i.length_resolve _ _] at next
    have split := first (draft rest ++ tail)
    simp only [List.append_assoc] at next split ⊢
    rw [patches, patchAll, List.foldl_append, draft, List.map_cons, encodeAll, List.flatMap_cons,
      List.append_assoc]
    refine (congrArg (fun code => patchAll code _) split).trans (next.trans ?_)
    rw [resolve_cons, encodeAll, encodeAll, List.flatMap_cons, List.append_assoc]

/-- Patches stay inside the items that they belong to. -/
theorem patches_within {off const : Nat} {items : List Item} {p : Patch}
    (hp : p ∈ patches off const items) :
    off ≤ p.pos ∧ p.pos + p.bytes.length ≤ off + sizeOf items := by
  induction items generalizing off const with
  | nil => cases hp
  | cons i rest ih =>
    rw [patches, List.mem_append] at hp
    rw [sizeOf_cons]
    rcases hp with hp | hp
    · obtain ⟨head, zeros, -, -, hfield, hsize⟩ := i.encode_resolve off const
      cases i with
      | inst => cases hp
      | token | loadConst | opConst =>
        rw [Item.patches, List.mem_singleton] at hp
        subst hp
        dsimp only
        omega
    · have := ih hp
      omega

/-- Each patch ends before the next one starts. -/
theorem pairwise_patches (off const : Nat) (items : List Item) :
    (patches off const items).Pairwise fun p q => p.pos + p.bytes.length ≤ q.pos := by
  induction items generalizing off const with
  | nil => exact .nil
  | cons i rest ih =>
    rw [patches, List.pairwise_append]
    refine ⟨?_, ih _ _, fun p hp q hq => ?_⟩
    · cases i with
      | inst => exact .nil
      | token | loadConst | opConst => exact List.pairwise_singleton _ _
    · have single : p ∈ patches off const [i] := by
        rw [patches, patches, List.append_nil]
        exact hp
      have hlast := (patches_within single).2
      rw [sizeOf_cons] at hlast
      exact Nat.le_trans hlast (patches_within hq).1

end Layout

/-! ## Windows -/

/-- A window between two parts of the code is what stands there. -/
theorem window_eq {code : Array UInt8} {a bs b : List UInt8} (h : code.toList = a ++ bs ++ b) :
    window code a.length bs.length = bs := by
  rw [window, Array.toList_extract, h, List.extract_eq_take_drop]
  simp

/-- Float constants stand one after the other from a place on. -/
def Stored (code : Array UInt8) : Nat → List UInt32 → Prop
  | _, [] => True
  | pos, bits :: rest => window code pos 4 = ofUInt32 bits ∧ Stored code (pos + 4) rest

/-- Constants that are laid out one after the other are stored. -/
theorem stored_of_eq {code : Array UInt8} {a b : List UInt8} {constants : List UInt32}
    (h : code.toList = a ++ constants.flatMap ofUInt32 ++ b) :
    Stored code a.length constants := by
  induction constants generalizing a with
  | nil => trivial
  | cons bits rest ih =>
    rw [List.flatMap_cons] at h
    constructor
    · exact @window_eq code a (ofUInt32 bits) (rest.flatMap ofUInt32 ++ b) (by rw [h]; simp)
    · have next := ih (a := a ++ ofUInt32 bits) (by rw [h]; simp)
      rw [List.length_append] at next
      exact next

/-- The constants of a sequence, split between its parts. -/
theorem Stored.append {code : Array UInt8} {pos : Nat} {xs ys : List UInt32}
    (h : Stored code pos (xs ++ ys)) :
    Stored code pos xs ∧ Stored code (pos + 4 * xs.length) ys := by
  induction xs generalizing pos with
  | nil => exact ⟨trivial, h⟩
  | cons x xs ih =>
    obtain ⟨first, rest⟩ := h
    obtain ⟨hx, hy⟩ := ih rest
    refine ⟨⟨first, hx⟩, ?_⟩
    rw [List.length_cons, Nat.mul_succ, Nat.add_comm _ 4, ← Nat.add_assoc]
    exact hy

/-- Items in machine code: they are placed from `off` on, and their constants behind them from
`const` on. -/
structure Layout.Sits (code : Array UInt8) (off const : Nat) (items : List Item) : Prop where
  placed : ∃ pre post, pre.length = off ∧
    code.toList = pre ++ encodeAll (resolve off const items) ++ post
  stored : Stored code const (constants items)
  behind : off + sizeOf items ≤ const
  inside : const + 4 * (constants items).length ≤ code.size

namespace Layout.Sits

variable {code : Array UInt8} {off const : Nat} {xs ys rest : List Item} {i : Item}

/-- The code of a sequence sits where the code of its first part ends. -/
theorem append (h : Sits code off const (xs ++ ys)) :
    Sits code off const xs ∧
      Sits code (off + sizeOf xs) (const + 4 * (constants xs).length) ys := by
  obtain ⟨⟨pre, post, rfl, hcode⟩, stored, behind, inside⟩ := h
  rw [resolve_append, X86.encodeAll_append] at hcode
  rw [constants_append] at stored inside
  rw [List.length_append] at inside
  rw [sizeOf_append] at behind
  have first : code.toList = pre ++ encodeAll (resolve pre.length const xs) ++ (encodeAll
      (resolve (pre.length + sizeOf xs) (const + 4 * (constants xs).length) ys) ++ post) := by
    rw [hcode]
    simp
  refine ⟨⟨⟨pre, _, rfl, first⟩, stored.append.1, by omega, by omega⟩, ?_⟩
  refine ⟨⟨pre ++ encodeAll (resolve pre.length const xs), post, ?_, ?_⟩, stored.append.2,
    by omega, by omega⟩
  · rw [List.length_append, length_encodeAll_resolve]
  · rw [first, List.append_assoc _ _ post]

theorem cons (h : Sits code off const (i :: rest)) :
    Sits code off const [i] ∧ Sits code (off + i.size) (skip const i) rest := by
  obtain ⟨first, later⟩ := append (show Sits code off const ([i] ++ rest) from h)
  rw [sizeOf_cons, constants_cons, List.length_append, ← Nat.add_assoc] at later
  exact ⟨first, by rw [skip_eq]; exact later⟩

end Layout.Sits

/-! ## Constants of lowered actions -/

/-- The instruction that an item hands to the host. -/
def Item.handed? : Item → Option Int64
  | token pc => some pc
  | _ => none

/-- The instructions that items hand to the host, in order. -/
def Layout.handed (items : List Item) : List Int64 := items.filterMap Item.handed?

def Operand.constant? : Operand → Option UInt32
  | fimm bits => some bits
  | _ => none

/-- The float constants among the operands of an instruction. -/
def Isa.Inst.immediates (i : Inst) : List UInt32 :=
  i.args.filterMap fun a => if a.kind = .fimm then some a.low else none

/-- Only a float immediate is resolved to a constant, of its own bits. -/
theorem constant?_of_operandOf {i : Inst} {slot : Nat} {a : Isa.Operand} {g : Int64} {o : Operand}
    (h : operandOf i slot a g = .ok o) :
    o.constant? = if a.kind = .fimm then some a.low else none := by
  unfold operandOf at h
  cases hk : a.kind <;> simp only [hk] at h
  case mem | byteMem | quadMem | fmem =>
    split at h
    · cases h
    · cases h
      rfl
  case addr | disp => cases h
  all_goals
    cases h
    rfl

/-- The float immediates of an instruction are the constants of its operands. -/
theorem immediates_eq {i : Inst} {g : Int64} {ops : List Operand} (h : operandsOf i g = .ok ops) :
    i.immediates = ops.filterMap Operand.constant? := by
  have walk (args : List Isa.Operand) : ∀ slot ops, operandsFrom i g slot args = .ok ops →
      (args.filterMap fun a => if a.kind = .fimm then some a.low else none)
        = ops.filterMap Operand.constant? := by
    induction args with
    | nil =>
      intro slot ops h
      cases h
      rfl
    | cons a args ih =>
      intro slot ops h
      obtain ⟨o, rest, ho, hrest, rfl⟩ := operandsFrom_cons h
      rw [List.filterMap_cons, List.filterMap_cons, constant?_of_operandOf ho, ih _ _ hrest]
  exact walk i.args 0 ops h

namespace Isa

def Family.computesFloat : Family → Bool
  | fmov | fcon | fadd | fsub | fmul | fdiv | fmod => true
  | _ => false

/-- What moves and arithmetic of floats write; integers have 32 bits in memory. -/
def floatTargets : List Kind := [.reg, .mem, .ptr, .freg, .fmem, .fptr]

def floatArguments : List Kind := floatTargets ++ [.imm32, .fimm]

/-- The operand kinds of the float families. Only the second operand of moves and arithmetic is a
float constant; besides, only outputs have one. -/
def FloatShaped (f : Family) (kinds : List Kind) : Bool :=
  if f.computesFloat then
    match kinds with
    | [dst, src] => floatTargets.contains dst && floatArguments.contains src
    | _ => false
  else match f with
    | .fcmpe | .fcmpne | .fcmpg | .fcmpl | .fcmpge | .fcmple => kinds == [.reg, .freg, .freg]
    | .foutput => true
    | _ => !kinds.contains .fimm

/-- Every family that computes on floats has a float target and a float argument. -/
theorem floatShaped_definitions :
    ∀ d ∈ definitions, FloatShaped d.family (d.slots.map (·.kind)) = true := by
  decide +kernel

theorem floatShaped_of_mem_table {info : Info} (h : info ∈ table) :
    FloatShaped info.family info.kinds = true := by
  obtain ⟨op, d, hd, rfl⟩ := mem_table_iff.mp h
  exact floatShaped_definitions d (List.mem_of_getElem? hd)

theorem kinds_of_computesFloat {f : Family} {kinds : List Kind} (hf : f.computesFloat = true)
    (shaped : FloatShaped f kinds = true) :
    ∃ dst src, kinds = [dst, src] ∧ dst ∈ floatTargets ∧ src ∈ floatArguments := by
  unfold FloatShaped at shaped
  rw [if_pos hf] at shaped
  split at shaped
  next dst src =>
    rw [Bool.and_eq_true, List.contains_iff_mem, List.contains_iff_mem] at shaped
    exact ⟨dst, src, rfl, shaped⟩
  · cases shaped

end Isa

namespace Lower

open Layout (constants handed)

/-- A load waits for the constant that it loads, if there is one. -/
theorem waits_loadF (x : X86.Xmm) (o : Operand) :
    constants (loadF x o) = o.constant?.toList ∧ handed (loadF x o) = [] := by
  cases o with
  | global off w float | pointer r w float => cases float <;> exact ⟨rfl, rfl⟩
  | _ => exact ⟨rfl, rfl⟩

theorem waits_storeF (o : Operand) (x : X86.Xmm) :
    constants (storeF o x) = [] ∧ handed (storeF o x) = [] := by
  cases o with
  | global off w float | pointer r w float => cases float <;> exact ⟨rfl, rfl⟩
  | _ => exact ⟨rfl, rfl⟩

theorem waits_operateF (op : X86.SseOp) (o : Operand) :
    constants (operateF op o) = o.constant?.toList ∧ handed (operateF op o) = [] := by
  cases o with
  | global off w float | pointer r w float => cases float <;> exact ⟨rfl, rfl⟩
  | _ => exact ⟨rfl, rfl⟩

theorem waits_fmove (dst src : Operand) :
    constants (fmove dst src) = src.constant?.toList ∧ handed (fmove dst src) = [] := by
  have hload := waits_loadF x0 src
  have hstore := waits_storeF dst x0
  unfold constants handed at *
  simp [fmove, hload, hstore]

/-- Arithmetic waits for its destination's constant first, since it loads the destination first. -/
theorem waits_farith (op : X86.SseOp) (dst src : Operand) :
    constants (farith op dst src) = dst.constant?.toList ++ src.constant?.toList ∧
      handed (farith op dst src) = [] := by
  have hload := waits_loadF x0 dst
  have hoperate := waits_operateF op src
  have hstore := waits_storeF dst x0
  unfold constants handed at *
  simp [farith, hload, hoperate, hstore]

/-- A comparison has none: its operands are registers of the float file. -/
theorem waits_fcompare (rel : Relation) (dst a b : Operand) :
    constants (fcompare rel dst a b) = [] ∧ handed (fcompare rel dst a b) = [] := by
  cases dst <;> exact ⟨rfl, rfl⟩

end Lower

theorem Layout.handed_of_ready {items : List Item} (h : ∀ it ∈ items, it.Ready) :
    handed items = [] := by
  rw [handed, List.filterMap_eq_nil_iff]
  intro it hit
  have hready := h it hit
  cases it with
  | token => cases hready
  | _ => rfl

namespace Action

variable {f : Isa.Family} {w : Nat} {ops : List Operand} {a : Action}

/-- Only moves and arithmetic of floats are lowered with a float constant. -/
theorem fimm_not_mem {kinds : List Isa.Kind} (h : of? f w ops = some a)
    (ha : a.isPlain = true ∨ ∃ rel dst x y, a = .fcompare rel dst x y)
    (shaped : Isa.FloatShaped f kinds = true) : .fimm ∉ kinds := by
  have other (hf : Isa.FloatShaped f kinds = !kinds.contains .fimm) : .fimm ∉ kinds := by
    rw [hf] at shaped
    simpa using shaped
  have compared (hf : Isa.FloatShaped f kinds = (kinds == [.reg, .freg, .freg])) :
      .fimm ∉ kinds := by
    rw [hf, beq_iff_eq] at shaped
    rw [shaped]
    decide
  cases asked_of_of? h with
  | move family => rcases family with rfl | rfl | rfl <;> exact other rfl
  | arith family | compare family => cases f <;> cases family <;> exact other rfl
  | fcompare family => cases f <;> cases family <;> exact compared rfl
  | push float | pop float | pushRange float | popRange float => cases float <;> exact other rfl
  | nop => exact other rfl
  | _ => simp [isPlain, isStack] at ha

/-- A float move has two operands and is one of the float computations. -/
theorem fmove_of? {dst src : Operand} (h : of? f w ops = some (.fmove dst src)) :
    ops = [dst, src] ∧ f.computesFloat = true := by
  cases asked_of_of? h with
  | fmove family => rcases family with rfl | rfl <;> exact ⟨rfl, rfl⟩

theorem farith_of? {op : FloatOp} {dst src : Operand}
    (h : of? f w ops = some (.farith op dst src)) : ops = [dst, src] ∧ f.computesFloat = true := by
  cases asked_of_of? h with
  | farith family => cases f <;> cases family <;> exact ⟨rfl, rfl⟩

section Decoded

variable {i : Inst} {code : Array UInt8} {pc g : Int64} (hi : Isa.Decoded code pc i)

include hi

/-- Without a float immediate among its kinds an instruction has no constant. -/
theorem immediates_eq_nil (h : .fimm ∉ i.info.kinds) : i.immediates = [] := by
  rw [Isa.Inst.immediates, List.filterMap_eq_nil_iff]
  intro a ha
  refine if_neg fun hk => h ?_
  rw [← hi.kinds_eq, ← hk]
  exact List.mem_map_of_mem ha

/-- The destination of a float move is no constant. -/
theorem constant?_destination {dst src : Operand} (hops : operandsOf i g = .ok [dst, src])
    (hf : i.family.computesFloat = true) : dst.constant? = none := by
  obtain ⟨a, ha, ho⟩ := operandsFrom_getElem? hops (k := 0) rfl
  obtain ⟨k, k', hkinds, hk, -⟩ :=
    Isa.kinds_of_computesFloat hf (Isa.floatShaped_of_mem_table hi.known)
  have hkind : a.kind = k := by
    have hget : i.info.kinds[0]? = some a.kind := by
      rw [← hi.kinds_eq, List.getElem?_map, ha]
      rfl
    rw [hkinds] at hget
    exact (Option.some.inj hget).symm
  rw [constant?_of_operandOf ho, hkind]
  refine if_neg ?_
  rintro rfl
  revert hk
  decide

/-- What an instruction is lowered to uses the float constants of the instruction and hands nothing
to the host. -/
theorem waits_lower {a : Action} (h : ofInst i g = .ok a) (t : Target)
    (lowered : a.isHosted = false) :
    Layout.constants (a.lower t i.pc) = i.immediates ∧ Layout.handed (a.lower t i.pc) = [] := by
  obtain ⟨-, ops, hops, hof⟩ := ofInst_eq_ok h
  have shaped := Isa.floatShaped_of_mem_table hi.known
  -- Plain actions have no float immediate and use no constant, so both sides are empty.
  have plain (hp : a.isPlain = true) :
      Layout.constants (a.lower t i.pc) = i.immediates ∧ Layout.handed (a.lower t i.pc) = [] := by
    rw [immediates_eq_nil hi (fimm_not_mem hof (.inl hp) shaped)]
    exact ⟨Layout.constants_of_ready (ready_lower hp t i.pc),
      Layout.handed_of_ready (ready_lower hp t i.pc)⟩
  cases a with
  | move | arith | compare | push | pop | pushRange | popRange | nop => exact plain rfl
  | fcompare rel dst x y =>
    rw [immediates_eq_nil hi (fimm_not_mem hof (.inr ⟨rel, dst, x, y, rfl⟩) shaped)]
    exact Lower.waits_fcompare rel dst x y
  | fmove dst src =>
    obtain ⟨rfl, hf⟩ := fmove_of? hof
    rw [immediates_eq hops, List.filterMap_cons_none (constant?_destination hi hops hf)]
    have waits := Lower.waits_fmove dst src
    cases src <;> exact waits
  | farith op dst src =>
    obtain ⟨rfl, -⟩ := farith_of? hof
    rw [immediates_eq hops]
    have waits (op : X86.SseOp) := Lower.waits_farith op dst src
    have both : [dst, src].filterMap Operand.constant? =
        dst.constant?.toList ++ src.constant?.toList := by
      cases dst <;> cases src <;> rfl
    rw [both]
    cases op with
    | mod => cases lowered
    | add | sub | mul | div => exact waits _
  | service s => cases lowered

end Decoded

end Action

end BlockVM
