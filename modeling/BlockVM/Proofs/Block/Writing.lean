import BlockVM.Block.Emission
import BlockVM.Proofs.Block.Layout
import BlockVM.Proofs.Block.Regions

/-!
# What emission writes

Emission writes the items of a lowered action one after the other. `Emission.Wrote` says what
becomes of a block under construction: the buffer went through an append for each item, and where it
has not failed it holds the items at their places, with the displacements of float constants still
empty; the constants used are noted with the places of their displacements. `Writes` says that a
part of the compiler does that in every state and never aborts. It composes along the sequence of
parts (`Writes.bind`), so each lowering follows from its assembler calls, and `writes_emit` from the
lowerings.
-/

namespace BlockVM

open LittleEndian (ofUInt32 ofUInt64)
open X86 (Reg Xmm Address Call encodeAll)

/-! ## Items in construction -/

namespace Layout

/-- Items from `off` on whose constants have no place yet. -/
def written : Nat → List Item → List X86.Inst
  | _, [] => []
  | off, i :: rest => i.fill off 0 :: written (off + i.size) rest

/-- The constants that items from `off` on use, with the places of their displacements. -/
def uses : Nat → List Item → List Deferred
  | _, [] => []
  | off, i :: rest =>
    i.constant?.toList.map (⟨·, off + i.size - 4⟩) ++ uses (off + i.size) rest

def drafts (items : List Item) : List (List UInt8) := items.map (·.blank.encode)

/-- What is written for a sequence: the second part is written where the first one ends. -/
theorem written_append (off : Nat) (xs ys : List Item) :
    written off (xs ++ ys) = written off xs ++ written (off + sizeOf xs) ys := by
  induction xs generalizing off with
  | nil => rfl
  | cons i xs ih =>
    rw [List.cons_append, written, written, ih, List.cons_append, sizeOf_cons, Nat.add_assoc]

/-- The uses of constants in a sequence, at the places where they were written. -/
theorem uses_append (off : Nat) (xs ys : List Item) :
    uses off (xs ++ ys) = uses off xs ++ uses (off + sizeOf xs) ys := by
  induction xs generalizing off with
  | nil => rfl
  | cons i xs ih =>
    rw [List.cons_append, uses, uses, ih, List.append_assoc, sizeOf_cons, Nat.add_assoc]

theorem drafts_append (xs ys : List Item) : drafts (xs ++ ys) = drafts xs ++ drafts ys :=
  List.map_append

end Layout

/-- The size of an item does not depend on its fields. -/
theorem Item.length_fill (off const : Nat) (i : Item) :
    (i.fill off const).encode.length = i.size := by
  have hresolve := i.length_resolve off (const + (off + i.size))
  unfold Item.resolve at hresolve
  rw [Nat.add_sub_cancel] at hresolve
  cases i <;> exact hresolve

theorem Item.length_blank (i : Item) : i.blank.encode.length = i.size := by
  obtain ⟨head, zeros, hblank, -, -, hsize⟩ := i.encode_resolve 0 0
  rw [hblank, List.length_append, hsize]

/-- Written or resolved, items take the same number of bytes. -/
theorem Layout.length_written (off : Nat) (items : List Item) :
    (encodeAll (written off items)).length = sizeOf items := by
  induction items generalizing off with
  | nil => rfl
  | cons i rest ih =>
    rw [written, encodeAll, List.flatMap_cons, List.length_append, i.length_fill, sizeOf_cons]
    exact congrArg (i.size + ·) (ih _)

open Layout (written uses drafts)

/-! ## Blocks under construction -/

namespace Emission

/-- A block that can be worked on. The assembler's count is right as long as the buffer has not
failed. -/
structure Ready (e : Emission) : Prop where
  writable : e.region.buffer.Writable
  roomy : e.region.Roomy
  counted : e.region.buffer.error = none → e.region.buffer.size = e.size

/-- What a block becomes when items are written. -/
structure Wrote (items : List Item) (e e' : Emission) : Prop where
  ready : e'.Ready
  size_eq : e'.size = e.size + Layout.sizeOf items
  floats_eq : e'.floats = e.floats ++ uses e.size items
  region : (e.region.fillAll (drafts items)).Alike e'.region
  bytes : e'.region.buffer.error = none →
    e'.region.buffer.bytes = e.region.buffer.bytes ++ (encodeAll (written e.size items)).toArray

/-- A block after a field of its code was overwritten. -/
def overwritten (e : Emission) (off : Nat) (bs : List UInt8) : Emission :=
  { e with region := e.region.withBytes (CodeBuffer.overwrite e.region.buffer.bytes off bs) }

theorem bytes_overwritten (e : Emission) (off : Nat) (bs : List UInt8) :
    (e.overwritten off bs).region.buffer.bytes =
    CodeBuffer.overwrite e.region.buffer.bytes off bs := rfl

theorem pc_overwritten (e : Emission) (off : Nat) (bs : List UInt8) :
    (e.overwritten off bs).pc = e.pc :=
  rfl

theorem alike_overwritten (e : Emission) (off : Nat) (bs : List UInt8) :
    e.region.Alike (e.overwritten off bs).region :=
  CodeRegion.withBytes_alike (CodeRegion.size_overwrite _ _ _)

theorem Ready.overwritten {e : Emission} (h : e.Ready) (off : Nat) (bs : List UInt8) :
    (e.overwritten off bs).Ready := by
  have halike := e.alike_overwritten off bs
  refine ⟨CodeRegion.writable_alike h.writable halike, h.roomy.alike halike, fun hnone => ?_⟩
  rw [halike.size_eq]
  exact h.counted hnone

namespace Wrote

variable {e e₁ e₂ : Emission} {xs ys : List Item}

theorem nil (h : e.Ready) : Wrote [] e e :=
  ⟨h, rfl, by simp [uses], .refl _, fun _ => by simp [written, encodeAll]⟩

/-- A failure stays. -/
theorem error_before (h : Wrote xs e e₁) (hnone : e₁.region.buffer.error = none) :
    e.region.buffer.error = none := by
  rw [h.region.error_eq] at hnone
  exact (CodeRegion.bytes_fillAll hnone).1

/-- Writing is a sequence: the second part starts from what the first one leaves behind. -/
theorem append (h : Wrote xs e e₁) (h' : Wrote ys e₁ e₂) : Wrote (xs ++ ys) e e₂ := by
  refine ⟨h'.ready, ?_, ?_, ?_, ?_⟩
  · rw [h'.size_eq, h.size_eq, Layout.sizeOf_append, Nat.add_assoc]
  · rw [h'.floats_eq, h.floats_eq, h.size_eq, Layout.uses_append, List.append_assoc]
  · rw [Layout.drafts_append, CodeRegion.fillAll_append]
    have hsame : List.Forall₂ (fun p p' : List UInt8 => p'.length = p.length) (drafts ys)
        (drafts ys) :=
      List.forall₂_same.mpr fun _ _ => rfl
    exact (CodeRegion.fillAll_alike h.region hsame).trans h'.region
  · intro hnone
    rw [h'.bytes hnone, h.bytes (h'.error_before hnone), h.size_eq, Layout.written_append,
      X86.encodeAll_append]
    simp

/-- A field of the items is overwritten, with other items as outcome. -/
theorem overwritten (h : Wrote xs e e₁) {off : Nat} {bs : List UInt8}
    (hsize : Layout.sizeOf ys = Layout.sizeOf xs) (huses : uses e.size ys = uses e.size xs)
    (hdrafts : drafts ys = drafts xs)
    (hcode : CodeBuffer.overwrite
     (e.region.buffer.bytes ++ (encodeAll (written e.size xs)).toArray) off bs =
      e.region.buffer.bytes ++ (encodeAll (written e.size ys)).toArray) :
    Wrote ys e (e₁.overwritten off bs) := by
  have halike := e₁.alike_overwritten off bs
  refine ⟨h.ready.overwritten off bs, ?_, ?_, ?_, fun hnone => ?_⟩
  · rw [hsize]
    exact h.size_eq
  · rw [huses]
    exact h.floats_eq
  · rw [hdrafts]
    exact h.region.trans halike
  · rw [bytes_overwritten, h.bytes (halike.error_eq ▸ hnone), hcode]

end Wrote

end Emission

/-! ## Parts of the compiler -/

section

variable {α β : Type} {m : Emit α} {f : α → Emit β} {a : α} {e e' : Emission}

/-- A part that gives a result, in front of the rest. -/
theorem Emit.bind_eq (h : m e = .ok a e') : (m >>= f) e = f a e' := by
  show EStateM.bind m f e = f a e'
  simp only [EStateM.bind, h]

end

/-- At the instruction `pc` the part writes the items and gives `a`, in every state. -/
def Writes {α : Type} (pc : Int64) (items : List Item) (m : Emit α) (a : α) : Prop :=
  ∀ e : Emission, e.Ready → e.pc = pc →
    ∃ e', m e = .ok a e' ∧ e.Wrote items e' ∧ e'.pc = pc

namespace Writes

variable {α β : Type} {pc : Int64} {xs ys : List Item} {a : α} {b : β}

theorem pure (a : α) : Writes pc [] (pure a) a := by
  intro e hready hpc
  exact ⟨e, rfl, .nil hready, hpc⟩

/-- The rule of sequences for computations that write. -/
theorem bind {m : Emit α} {f : α → Emit β} (hm : Writes pc xs m a) (hf : Writes pc ys (f a) b) :
    Writes pc (xs ++ ys) (m >>= f) b := by
  intro e hready hpc
  obtain ⟨e₁, h₁, hxs, hpc₁⟩ := hm e hready hpc
  obtain ⟨e₂, h₂, hys, hpc₂⟩ := hf e₁ hxs.ready hpc₁
  refine ⟨e₂, ?_, hxs.append hys, hpc₂⟩
  rw [Emit.bind_eq h₁, h₂]

/-- A part that looks at the address of the instruction only. -/
theorem atPc {f : Int64 → Emit β} (h : Writes pc ys (f pc) b) :
    Writes pc ys (get >>= fun e => f e.pc) b := by
  intro e hready hpc
  obtain ⟨e', he', hys, hpc'⟩ := h e hready hpc
  refine ⟨e', ?_, hys, hpc'⟩
  show f e.pc e = .ok b e'
  rw [hpc, he']

end Writes

namespace Emit

variable {pc : Int64}

open Emission (Wrote)

/-! ## Assembler calls -/

/-- Appending to a writable buffer fills its region. -/
theorem append_eq {e : Emission} (h : e.region.buffer.Writable) (bs : List UInt8) :
    append bs e = .ok () { e with region := e.region.fill bs } := by
  simp only [append, onRegion, CodeRegion.append_eq_fill h]

/-- A field inside the code is overwritten. -/
theorem patch_eq {e : Emission} {off : Nat} {bs : List UInt8} (hwritable : e.region.buffer.Writable)
    (hroomy : e.region.Roomy) (hinside : off + bs.length ≤ e.region.buffer.size) :
    patch (Int64.ofNat off) bs e = .ok () (e.overwritten off bs) := by
  simp only [patch, onRegion, CodeRegion.patch_eq_ok hwritable hroomy hinside]
  rfl

/-- A call that has an encoding writes its instruction. -/
theorem writes_call {c : Call} {i : X86.Inst} (h : c.inst = .ok i) :
    Writes pc [.inst i] (call c) () := by
  intro e hready hpc
  refine ⟨{ e with region := e.region.fill i.encode, size := e.size + i.length }, ?_, ?_, hpc⟩
  · unfold call
    rw [h]
    exact bind_eq (append_eq hready.writable i.encode)
  -- What a failed buffer contains does not count: its bytes are
  -- described only as long as it has not failed.
  · have hbytes (hnone : (e.region.fill i.encode).buffer.error = none) :=
      CodeRegion.bytes_fill hnone
    refine ⟨⟨CodeRegion.writable_fill hready.writable _, hready.roomy.fill _, ?_⟩, rfl, ?_,
      .refl _, ?_⟩
    · intro hnone
      obtain ⟨hbefore, hfill⟩ := hbytes hnone
      have hcounted := hready.counted hbefore
      simp only [CodeBuffer.size] at hcounted ⊢
      rw [hfill, Array.size_append, hcounted]
      rfl
    · simp [uses, Item.constant?]
    · intro hnone
      rw [(hbytes hnone).2]
      simp [written, encodeAll, Item.fill]

/-- Calls write their instructions in a row. -/
theorem writes_calls {cs : List Call} {is : List X86.Inst}
    (h : List.Forall₂ (fun c i => c.inst = .ok i) cs is) :
    Writes pc (is.map .inst) (calls cs) () := by
  induction h with
  | nil => exact .pure ()
  | cons hc _ ih => exact (writes_call hc).bind ih

/-- A call that reads a constant writes an item that waits for it. -/
theorem writes_withFloat {bits : UInt32} {use : Address → Call} {i : Item}
    (hinst : (use (.rip 0)).inst = .ok i.blank) (hfill : ∀ off, i.fill off 0 = i.blank)
    (hconst : i.constant? = some bits) : Writes pc [i] (withFloat bits use) () := by
  intro e hready hpc
  obtain ⟨e', he', hwrote, hpc'⟩ := writes_call hinst e hready hpc
  refine ⟨{ e' with floats := e'.floats ++ [⟨bits, e'.size - 4⟩] }, ?_, ?_, hpc'⟩
  · exact bind_eq he'
  · obtain ⟨hready', hsize, hfloats, hregion, hbytes⟩ := hwrote
    have hitem : (Item.inst i.blank).size = i.size := by
      show i.blank.length = i.size
      rw [Item.size, hfill]
    -- The blank instruction is written like any other; what is
    -- new is the use that is noted for it.
    have huses : uses e.size [Item.inst i.blank] = [] := rfl
    refine ⟨⟨hready'.writable, hready'.roomy, hready'.counted⟩, ?_, ?_, hregion, ?_⟩
    · show e'.size = _
      rw [hsize]
      simp [Layout.sizeOf, hitem]
    · show e'.floats ++ [⟨bits, e'.size - 4⟩] = _
      rw [hfloats, hsize, huses, uses, hconst]
      simp [uses, Layout.sizeOf, hitem]
    · intro hnone
      show e'.region.buffer.bytes = _
      rw [hbytes hnone]
      simp only [written, hfill]
      rfl

/-! ## Entries and exits -/

theorem writes_leave : Writes pc Lower.leave (calls leaveCalls) () :=
  writes_calls (.cons rfl (.cons rfl .nil))

theorem writes_enter : Writes pc Lower.enter enter () := writes_calls (.cons rfl (.cons rfl .nil))

/-- The token of an exit takes the last eight bytes of the exit's first instruction. -/
theorem overwrite_token (code : Array UInt8) (token : UInt64) (rest : List X86.Inst) :
    CodeBuffer.overwrite (code ++ (encodeAll (.movRegImm64 Lower.acc 0 :: rest)).toArray)
    (code.size + 2)
      (ofUInt64 token) = code ++ (encodeAll (.movRegImm64 Lower.acc token :: rest)).toArray := by
  have hcode (v : UInt64) : code ++ (encodeAll (.movRegImm64 Lower.acc v :: rest)).toArray =
      (code.toList ++ [0x48, 0xb8] ++ ofUInt64 v ++ encodeAll rest).toArray := by
    have hfirst : (X86.Inst.movRegImm64 Lower.acc v).encode = [0x48, 0xb8] ++ ofUInt64 v := rfl
    rw [encodeAll, List.flatMap_cons, hfirst, ← encodeAll]
    simp
  have hlength : (ofUInt64 0).length = (ofUInt64 token).length := by
    simp only [ofUInt64, LittleEndian.length_bytes]
  have hfill := Layout.overwrite_append (code.toList ++ [0x48, 0xb8]) (encodeAll rest) hlength
  rw [List.length_append, Array.length_toList] at hfill
  rw [hcode, hcode]
  exact hfill

theorem failed_of_error {e : Emission} {f : Failure} (h : e.region.buffer.error = some f) :
    failed e = .ok true e := by
  show EStateM.Result.ok e.region.buffer.error.isSome e = _
  rw [h]
  rfl

theorem failed_of_none {e : Emission} (h : e.region.buffer.error = none) :
    failed e = .ok false e := by
  show EStateM.Result.ok e.region.buffer.error.isSome e = _
  rw [h]
  rfl

theorem fillToken_of_error {e : Emission} {f : Failure} (h : e.region.buffer.error = some f)
    (start resume : Nat) : fillToken start resume e = .ok () e := bind_eq (failed_of_error h)

/-- A token is filled in as long as the buffer has not failed. -/
theorem fillToken_eq {e : Emission} {start resume : Nat} (hwritable : e.region.buffer.Writable)
    (hroomy : e.region.Roomy) (hnone : e.region.buffer.error = none)
    (hinside : start + 10 ≤ e.region.buffer.size) : fillToken start resume e =
      .ok () (e.overwritten (start + 2) (ofUInt64 (Lower.token e.pc (UInt32.ofNat resume)))) := by
  refine (bind_eq (failed_of_none hnone)).trans (patch_eq hwritable hroomy ?_)
  rw [ofUInt64, LittleEndian.length_bytes]
  exact hinside

/-- An exit whose token is filled in is the exit with its token. -/
theorem fillToken_of_wrote {e e₁ : Emission} (hready : e.Ready) (hpc : e₁.pc = pc)
    (hwrote : Wrote (.inst (.movRegImm64 Lower.acc 0) :: Lower.leave) e e₁) :
    ∃ e₂, fillToken e.size e₁.size e₁ = .ok () e₂ ∧ Wrote (.token pc :: Lower.leave) e e₂ ∧
      e₂.pc = pc := by
  have hbefore := hwrote.error_before
  have hready₁ := hwrote.ready
  have hsize : e₁.size = e.size + 15 := hwrote.size_eq
  cases herror : e₁.region.buffer.error with
  | some f =>
    refine ⟨e₁, fillToken_of_error herror _ _,
      ⟨hready₁, hsize, hwrote.floats_eq, hwrote.region, fun hnone => ?_⟩, hpc⟩
    rw [herror] at hnone
    cases hnone
  | none =>
    -- The token stands two bytes behind the place where the exit
    -- began, and it names the end of the exit.
    have hcount : e.region.buffer.bytes.size = e.size := hready.counted (hbefore herror)
    have hinside : e.size + 10 ≤ e₁.region.buffer.size := by
      rw [hready₁.counted herror, hsize]
      omega
    have hfill := @fillToken_eq e₁ e.size e₁.size hready₁.writable hready₁.roomy herror hinside
    rw [hpc] at hfill
    have hresolved := overwrite_token e.region.buffer.bytes (Lower.token pc (UInt32.ofNat e₁.size))
      (written (e.size + 10) Lower.leave)
    rw [hcount] at hresolved
    have hitems : written e.size (.token pc :: Lower.leave) =
        .movRegImm64 Lower.acc (Lower.token pc (UInt32.ofNat (e.size + 15))) ::
          written (e.size + 10) Lower.leave := rfl
    refine ⟨_, hfill, hwrote.overwritten rfl rfl rfl ?_, (e₁.pc_overwritten _ _).trans hpc⟩
    rw [hitems, ← hsize, ← hresolved]
    rfl

/-- An exit and the entry behind it. -/
theorem writes_serviceExit : Writes pc (Lower.serviceExit pc) serviceExit () := by
  intro e hready hpc
  obtain ⟨e₀, h₀, hwrote₀, hpc₀⟩ := writes_call (c := .movRegImm64 Lower.acc 0) rfl e hready hpc
  obtain ⟨e₁, h₁, hwrote₁, hpc₁⟩ := writes_leave e₀ hwrote₀.ready hpc₀
  obtain ⟨e₂, h₂, hwrote₂, hpc₂⟩ := fillToken_of_wrote hready hpc₁ (hwrote₀.append hwrote₁)
  obtain ⟨e₃, h₃, hwrote₃, hpc₃⟩ := writes_enter e₂ hwrote₂.ready hpc₂
  have hstart : length e = .ok e.size e := rfl
  have hresume : length e₁ = .ok e₁.size e₁ := rfl
  refine ⟨e₃, ?_, hwrote₂.append hwrote₃, hpc₃⟩
  unfold serviceExit
  rw [bind_eq hstart, bind_eq h₀, bind_eq h₁, bind_eq hresume, bind_eq h₂, h₃]

/-- The exit of a fault is written blank and then gets its token. -/
theorem writes_faultExit : Writes pc (Lower.faultExit pc) faultExit () := by
  have hcalls : Writes pc (Lower.faultExit pc) (calls (faultCalls pc)) () :=
    writes_calls (.cons rfl (.cons rfl (.cons rfl .nil)))
  exact .atPc (f := fun pc => calls (faultCalls pc)) hcalls

/-- A fault exit is as long as the jump over it takes it to be. -/
theorem measure_faultCalls (pc : Int64) : measure (faultCalls pc) = pure 15 := rfl

/-- A conditional fault measures its exit to know how far to jump. -/
theorem writes_faultUnless (c : X86.Cond) :
    Writes pc (Lower.faultUnless pc c) (faultUnless c) () := by
  have hjump : Writes pc (Lower.faultUnless pc c)
      (do let size ← measure (faultCalls pc); call (.jccShort c (Int8.ofNat size)); faultExit)
      () := by
    rw [measure_faultCalls]
    exact (writes_call rfl).bind writes_faultExit
  exact .atPc (f := fun pc => measure (faultCalls pc) >>= fun size =>
    call (.jccShort c (Int8.ofNat size)) >>= fun _ => faultExit) hjump

end Emit

/-! ## Constants -/

namespace Item

variable {i : Item} {bits : UInt32} {off const : Nat}

theorem resolve_of_none (h : i.constant? = none) : i.resolve off const = i.fill off 0 := by
  unfold resolve
  rw [h]

theorem fill_of_some (h : i.constant? = some bits) : i.fill off 0 = i.blank := by
  cases i with
  | inst | token => cases h
  | loadConst | opConst => rfl

/-- The displacement of an item that uses a constant takes its last four bytes. -/
theorem field_of_some (h : i.constant? = some bits) :
    i.field off const = ofUInt32 (Int32.ofNat (const - (off + i.size))).toUInt32 := by
  cases i with
  | inst | token => cases h
  | loadConst | opConst => rfl

theorem four_le_size (h : i.constant? = some bits) : 4 ≤ i.size := by
  obtain ⟨head, zeros, -, -, hfield, hsize⟩ := i.encode_resolve 0 0
  rw [field_of_some h, ofUInt32, LittleEndian.length_bytes] at hfield
  omega

/-- Filling in the displacement gives the item in its place. -/
theorem overwrite_field (h : i.constant? = some bits) (pre tail : List UInt8) (const : Nat) :
    CodeBuffer.overwrite (pre ++ (i.fill pre.length 0).encode ++ tail).toArray
      (pre.length + i.size - 4) (i.field pre.length const) =
        (pre ++ (i.resolve pre.length const).encode ++ tail).toArray := by
  obtain ⟨head, zeros, hblank, hresolve, hfield, hsize⟩ := i.encode_resolve pre.length const
  have hzeros : zeros.length = 4 := by
    rw [hfield, field_of_some h, ofUInt32, LittleEndian.length_bytes]
  have hplace : (pre ++ head).length = pre.length + i.size - 4 := by
    rw [List.length_append]
    omega
  have hfill := Layout.overwrite_append (pre ++ head) tail hfield
  rw [hplace, List.append_assoc pre, List.append_assoc pre head] at hfill
  rw [fill_of_some h, hblank, hresolve]
  exact hfill

end Item

/-- The displacement from the end of a field to a place behind it. -/
theorem toInt32_displacement {pos place : Nat} (h : pos + 4 ≤ place) :
    (Int64.ofNat place - Int64.ofNat pos - 4).toInt32 = Int32.ofNat (place - (pos + 4)) := by
  obtain ⟨d, rfl⟩ := Nat.exists_eq_add_of_le h
  have hsum : Int64.ofNat (pos + 4 + d) = Int64.ofNat d + 4 + Int64.ofNat pos := by
    rw [Nat.add_comm, Nat.add_comm pos, ← Nat.add_assoc, Int64.ofNat_add, Int64.ofNat_add]
    rfl
  have hrest : Int64.ofNat (pos + 4 + d) - Int64.ofNat pos - 4 = Int64.ofNat d := by
    rw [hsum, Int64.add_sub_cancel, Int64.add_sub_cancel]
  rw [hrest, Nat.add_sub_cancel_left, Int64.toInt32_ofNat']

namespace Emit

/-- A constant that does not fit ends the row. -/
theorem emitFloats_of_error {e : Emission} {f : Deferred} {fs : List Deferred} {failure : Failure}
    (hwritable : e.region.buffer.Writable)
    (herror : (e.region.fill (ofUInt32 f.bits)).buffer.error = some failure) :
    emitFloats (f :: fs) e = .ok () { e with region := e.region.fill (ofUInt32 f.bits) } := by
  have hget : (get : Emit Emission) e = .ok e e := rfl
  unfold emitFloats
  rw [bind_eq hget, bind_eq (append_eq hwritable _), bind_eq (failed_of_error herror)]
  rfl

/-- A constant that fits is appended, and its place filled in. -/
theorem emitFloats_cons {e : Emission} {f : Deferred} {fs : List Deferred}
    (hwritable : e.region.buffer.Writable) (hroomy : e.region.Roomy)
    (hnone : (e.region.fill (ofUInt32 f.bits)).buffer.error = none)
    (hpos : f.pos + 4 ≤ e.region.buffer.size) :
    emitFloats (f :: fs) e = emitFloats fs
      (Emission.overwritten { e with region := e.region.fill (ofUInt32 f.bits) } f.pos
        (ofUInt32 (Int32.ofNat (e.region.buffer.size - (f.pos + 4))).toUInt32)) := by
  have hget : (get : Emit Emission) e = .ok e e := rfl
  have hfits (v : UInt32) :
      f.pos + (ofUInt32 v).length ≤ (e.region.fill (ofUInt32 f.bits)).buffer.size := by
    have hbytes := (CodeRegion.bytes_fill hnone).2
    simp only [CodeBuffer.size] at hpos ⊢
    rw [hbytes, Array.size_append, ofUInt32, LittleEndian.length_bytes]
    omega
  have hpatch (v : UInt32) := @patch_eq { e with region := e.region.fill (ofUInt32 f.bits) } f.pos
    (ofUInt32 v) (CodeRegion.writable_fill hwritable _) (hroomy.fill _) (hfits v)
  rw [← toInt32_displacement hpos, emitFloats, bind_eq hget, bind_eq (append_eq hwritable _),
    bind_eq (failed_of_none hnone)]
  simp only [Bool.false_eq_true, if_false]
  rw [bind_eq (hpatch _)]

/-- One step: the constant of the first item is appended behind the code, and the item filled in. -/
theorem run_constant {i : Item} {rest : List Item} {bits : UInt32} {e : Emission}
    {pre tail : List UInt8} {const : Nat} (hconst : i.constant? = some bits)
    (hwritable : e.region.buffer.Writable) (hroomy : e.region.Roomy)
    (herror : (e.region.fill (ofUInt32 bits)).buffer.error = none)
    (hplace : const = pre.length + Layout.sizeOf (i :: rest) + tail.length)
    (hbytes : e.region.buffer.bytes =
      (pre ++ encodeAll (written pre.length (i :: rest)) ++ tail).toArray) :
    ∃ e', emitFloats (uses pre.length (i :: rest)) e =
    emitFloats (uses (pre.length + i.size) rest) e' ∧ e'.region.buffer.Writable ∧ e'.region.Roomy ∧
      (e.region.fill (ofUInt32 bits)).Alike e'.region ∧ e'.region.buffer.bytes =
        (pre ++ (i.resolve pre.length const).encode ++
          encodeAll (written (pre.length + i.size) rest) ++ (tail ++ ofUInt32 bits)).toArray := by
  have hfirst : uses pre.length (i :: rest) =
      ⟨bits, pre.length + i.size - 4⟩ :: uses (pre.length + i.size) rest := by
    simp [uses, hconst]
  have hsize : e.region.buffer.size = const := by
    rw [hplace, CodeBuffer.size, hbytes]
    simp [Layout.length_written, Nat.add_assoc]
  -- The field is the end of the item, and the constant goes behind everything written so far.
  have hfour := Item.four_le_size hconst
  have hpos : pre.length + i.size - 4 + 4 = pre.length + i.size := by omega
  have hinside : pre.length + i.size - 4 + 4 ≤ e.region.buffer.size := by
    rw [hsize, hplace, Layout.sizeOf_cons]
    omega
  have hstep := @emitFloats_cons e ⟨bits, pre.length + i.size - 4⟩
    (uses (pre.length + i.size) rest) hwritable hroomy herror hinside
  dsimp only at hstep
  rw [← hfirst, hsize, hpos, ← Item.field_of_some hconst] at hstep
  have halike := Emission.alike_overwritten { e with region := e.region.fill (ofUInt32 bits) }
    (pre.length + i.size - 4) (i.field pre.length const)
  refine ⟨_, hstep, CodeRegion.writable_alike (CodeRegion.writable_fill hwritable _) halike,
    (hroomy.fill _).alike halike, halike, ?_⟩
  have hcode : (e.region.fill (ofUInt32 bits)).buffer.bytes =
      (pre ++ (i.fill pre.length 0).encode ++
      (encodeAll (written (pre.length + i.size) rest) ++ (tail ++ ofUInt32 bits))).toArray := by
    rw [(CodeRegion.bytes_fill herror).2, hbytes, written]
    simp [encodeAll]
  rw [Emission.bytes_overwritten, hcode, Item.overwrite_field hconst]
  simp

/-- The constants of items are appended behind the code and their places filled in. -/
theorem run_emitFloats {rest : List Item} {e : Emission} {pre tail : List UInt8}
    (hwritable : e.region.buffer.Writable) (hroomy : e.region.Roomy)
    (hbytes : e.region.buffer.error = none →
      e.region.buffer.bytes = (pre ++ encodeAll (written pre.length rest) ++ tail).toArray) :
    ∃ e', emitFloats (uses pre.length rest) e = .ok () e' ∧ e'.region.buffer.Writable ∧
      (e.region.fillAll ((Layout.constants rest).map ofUInt32)).Alike e'.region ∧
      (e'.region.buffer.error = none → e'.region.buffer.bytes =
        (pre ++
         encodeAll (Layout.resolve pre.length (pre.length + Layout.sizeOf rest + tail.length) rest)
          ++ tail ++ (Layout.constants rest).flatMap ofUInt32).toArray) := by
  -- What is resolved moves to the code in front, the constants to the code behind.
  induction rest generalizing e pre tail with
  | nil =>
    refine ⟨e, rfl, hwritable, .refl _, fun hnone => ?_⟩
    rw [hbytes hnone]
    simp [written, Layout.resolve, Layout.constants, encodeAll]
  | cons i rest ih =>
    cases hconst : i.constant? with
    | none =>
      have hlength : (pre ++ (i.fill pre.length 0).encode).length = pre.length + i.size := by
        rw [List.length_append, i.length_fill]
      have hsame : uses pre.length (i :: rest) = uses (pre.length + i.size) rest := by
        simp [uses, hconst]
      have hrest := @ih e (pre ++ (i.fill pre.length 0).encode) tail hwritable hroomy (by
        intro hnone
        rw [hbytes hnone, hlength, written]
        simp [encodeAll])
      rw [hlength, ← hsame] at hrest
      obtain ⟨e', hrun, hwritable', halike, hbytes'⟩ := hrest
      refine ⟨e', hrun, hwritable', ?_, fun hnone => ?_⟩
      · rw [Layout.constants_cons, hconst]
        exact halike
      · rw [hbytes' hnone, Layout.resolve_cons, Layout.skip_eq, Layout.constants_cons, hconst,
          Item.resolve_of_none hconst, Layout.sizeOf_cons]
        simp [encodeAll, Nat.add_assoc]
    | some bits =>
      have hbits : (Layout.constants (i :: rest)).map ofUInt32 =
          ofUInt32 bits :: (Layout.constants rest).map ofUInt32 := by
        rw [Layout.constants_cons, hconst]
        rfl
      cases herror : (e.region.fill (ofUInt32 bits)).buffer.error with
      | some f =>
        have hrun := @emitFloats_of_error e ⟨bits, pre.length + i.size - 4⟩
          (uses (pre.length + i.size) rest) f hwritable herror
        have hfirst : uses pre.length (i :: rest) =
            ⟨bits, pre.length + i.size - 4⟩ :: uses (pre.length + i.size) rest := by
          simp [uses, hconst]
        rw [← hfirst] at hrun
        refine ⟨_, hrun, CodeRegion.writable_fill hwritable _, ?_, fun hnone => ?_⟩
        · rw [hbits, CodeRegion.fillAll_cons, CodeRegion.fillAll_of_error herror]
          exact .refl _
        · exact absurd (herror.symm.trans hnone) (Option.some_ne_none f)
      | none =>
        have hcode := hbytes (CodeRegion.bytes_fill herror).1
        obtain ⟨const, hplace⟩ : ∃ const,
            const = pre.length + Layout.sizeOf (i :: rest) + tail.length :=
          ⟨_, rfl⟩
        obtain ⟨e₁, hstep, hwritable₁, hroomy₁, halike₁, hbytes₁⟩ :=
          run_constant hconst hwritable hroomy herror hplace hcode
        have hlength : (pre ++ (i.resolve pre.length const).encode).length =
            pre.length + i.size := by
          rw [List.length_append]
          exact congrArg (pre.length + ·) (i.length_resolve _ _)
        have hrest := @ih e₁ (pre ++ (i.resolve pre.length const).encode) (tail ++ ofUInt32 bits)
          hwritable₁ hroomy₁ (fun _ => by rw [hbytes₁, hlength])
        rw [hlength, @List.length_append _ tail] at hrest
        obtain ⟨e', hrun, hwritable', halike', hbytes'⟩ := hrest
        refine ⟨e', hstep.trans hrun, hwritable', ?_, fun hnone => ?_⟩
        · rw [hbits, CodeRegion.fillAll_cons]
          exact (CodeRegion.fillAll_alike halike₁ (List.forall₂_same.mpr fun _ _ => rfl)).trans
            halike'
        · have hnext : pre.length + i.size + Layout.sizeOf rest +
              (tail.length + (ofUInt32 bits).length) = Layout.skip const i := by
            rw [Layout.skip_eq, hconst, hplace, Layout.sizeOf_cons, ofUInt32,
              LittleEndian.length_bytes]
            simp only [Option.toList_some, List.length_singleton]
            omega
          rw [hbytes' hnone, hnext, ← hplace, Layout.resolve_cons, Layout.constants_cons, hconst]
          simp [encodeAll]

end Emit

end BlockVM
