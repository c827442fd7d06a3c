import BlockVM.Proofs.Block.Writing

/-!
# What lowerings write

One lemma for each lowering: it writes the items of the lowering and does not abort, provided that
the operands suit it. A destination has a place (`Operand.IsPlace`), an integer source is no float
constant, and arithmetic is not that of single bytes.
-/

namespace BlockVM

open X86 (Reg Xmm Address Call)

/-! ## Operands -/

/-- The operand has a place that can be read and written. -/
def Operand.IsPlace : Operand → Prop
  | reg _ | freg _ | global .. | pointer .. => True
  | imm _ | fimm _ => False

namespace Emit

variable {pc : Int64} {o dst src : Operand} {tmp : Reg}

/-- How the assembler is told the place of an operand. -/
def addressOf (o : Operand) (tmp : Reg) : Address :=
  match o with
  | .reg r => regSlot r
  | .freg r => fregSlot r
  | .global off _ _ => .ptr Lower.globalBase off
  | .pointer .. | .imm _ | .fimm _ => .ptr tmp 0

/-- Where an operand is reached, in the assembler's terms and in those of the lowering. -/
theorem mem_addressOf (o : Operand) (tmp : Reg) :
    (addressOf o tmp).mem = .ok (Lower.place o tmp).2 := by
  cases o <;> rfl

/-- What has a place can be reached. -/
theorem writes_ref (h : o.IsPlace) :
    Writes pc (Lower.place o tmp).1 (ref o tmp) (addressOf o tmp) := by
  cases o with
  | reg | freg | global => exact .pure _
  | pointer r w float => exact (writes_call rfl).bind (.pure _)
  | imm | fimm => cases h

/-- A call on the place of an operand: it takes the place, and makes an instruction of it. -/
theorem writes_at {f : Address → Call} {k : X86.Mem → Except X86.EncodeError X86.Inst}
    {g : X86.Mem → X86.Inst} (h : o.IsPlace) (hcall : ∀ a, (f a).inst = a.mem >>= k)
    (hinst : ∀ m, k m = .ok (g m)) :
    Writes pc ((Lower.place o tmp).1 ++ [.inst (g (Lower.place o tmp).2)])
      (ref o tmp >>= fun a => call (f a)) () := by
  refine (writes_ref h).bind (writes_call ?_)
  rw [hcall, mem_addressOf]
  exact hinst _

theorem loadBits_widthOf (o : Operand) (r : Reg) (m : X86.Mem) :
    X86.Inst.loadBits (widthOf o) r m = .ok (.load (Lower.moveWidth o.width) r m) := by
  unfold widthOf
  cases o.width <;> rfl

theorem storeBits_widthOf (o : Operand) (m : X86.Mem) (r : Reg) :
    X86.Inst.storeBits (widthOf o) m r = .ok (.store (Lower.moveWidth o.width) m r) := by
  unfold widthOf
  cases o.width <;> rfl

theorem storeImmBits_widthOf (o : Operand) (m : X86.Mem) (v : Int32) :
    X86.Inst.storeImmBits (widthOf o) m v = .ok (.storeImm (Lower.moveWidth o.width) m v) := by
  unfold widthOf
  cases o.width <;> rfl

/-- Arithmetic is encoded at every width but that of single bytes. -/
theorem sized_widthOf (what : String) (h : o.width ≠ .byte) (f : X86.Size → X86.Inst) :
    (return f (← X86.Inst.size what (widthOf o)) : Except X86.EncodeError X86.Inst) =
      .ok (f (Lower.aluSize o.width)) := by
  unfold widthOf
  cases hw : o.width with
  | byte => exact absurd hw h
  | dword | qword => rfl

/-! ## Integers -/

/-- Loading an operand is one access in memory, or a constant that is moved into the register. -/
theorem writes_load (r : Reg) (h : o.constant? = none) :
    Writes pc (Lower.load r o) (load r o) () := by
  have hplace (hp : o.IsPlace) : Writes pc ((Lower.place o Lower.srcAddr).1 ++
      [.inst (.load (Lower.moveWidth o.width) r (Lower.place o Lower.srcAddr).2)])
      (ref o Lower.srcAddr >>= fun a => call (.movRegMem (widthOf o) r a)) () :=
    writes_at hp (fun _ => rfl) (loadBits_widthOf o r)
  cases o with
  | imm v =>
    have hcall : (Call.movRegImm r v).inst = .ok (.movRegImm r v) := rfl
    exact writes_call hcall
  | reg s =>
    have hcall : (Call.movRegMem 64 r (regSlot s)).inst = .ok (.load .qword r (Lower.regSlot s)) :=
      rfl
    exact writes_call hcall
  | freg | global | pointer => exact hplace trivial
  | fimm => cases h

theorem writes_store (r : Reg) (h : o.IsPlace) : Writes pc (Lower.store o r) (store o r) () :=
  writes_at h (fun _ => rfl) fun m => storeBits_widthOf o m r

theorem writes_copy (hdst : dst.IsPlace) (hsrc : src.constant? = none) :
    Writes pc (Lower.load Lower.acc src ++ Lower.store dst Lower.acc) (copy dst src) () :=
  (writes_load _ hsrc).bind (writes_store _ hdst)

theorem writes_move (hdst : dst.IsPlace) (hsrc : src.constant? = none) :
    Writes pc (Lower.move dst src) (move dst src) () := by
  have hcopy : Writes pc _ _ () := writes_copy hdst hsrc
  cases src with
  | imm v =>
    unfold Lower.move move
    dsimp only
    split
    · exact writes_at hdst (fun _ => rfl) fun m => storeImmBits_widthOf dst m _
    · exact hcopy
  | reg | freg | global | pointer | fimm => exact hcopy

/-- An operation on whole registers works on the destination in memory, with the source in a
register. -/
theorem writes_alu (op : X86.AluOp) (hdst : dst.IsPlace) (hwide : dst.width ≠ .byte)
    (hsrc : src.constant? = none) : Writes pc (Lower.alu op dst src) (alu op dst src) () := by
  show Writes pc (Lower.load Lower.source src ++ _ ++ _) _ ()
  rw [List.append_assoc]
  refine (writes_load _ hsrc).bind ?_
  exact writes_at hdst (fun _ => rfl) fun m => sized_widthOf _ hwide fun s =>
    .aluMemReg op s m Lower.source

theorem constant?_of_isPlace (h : o.IsPlace) : o.constant? = none := by
  cases o with
  | reg | freg | global | pointer | imm => rfl
  | fimm => cases h

theorem writes_multiply (hdst : dst.IsPlace) (hwide : dst.width ≠ .byte)
    (hsrc : src.constant? = none) : Writes pc (Lower.multiply dst src) (multiply dst src) () := by
  unfold Lower.multiply
  rw [List.append_assoc, List.append_assoc]
  refine (writes_load _ (constant?_of_isPlace hdst)).bind ((writes_load _ hsrc).bind ?_)
  have himul : (Call.imulRegReg (widthOf dst) Lower.acc Lower.source).inst =
      .ok (.imul (Lower.aluSize dst.width) Lower.acc Lower.source) := sized_widthOf _ hwide _
  exact (writes_call himul).bind (writes_store _ hdst)

/-- A division widens the dividend first; which instruction does that, and which register has the
result, are parameters. -/
theorem writes_divide (result : Reg) (hdst : dst.IsPlace) (hwide : dst.width ≠ .byte)
    (hsrc : src.constant? = none) :
    Writes pc (Lower.divide result dst src) (divide result dst src) () := by
  have hidiv : (Call.idiv (widthOf dst) Lower.source).inst =
      .ok (.idiv (Lower.aluSize dst.width) Lower.source) := sized_widthOf _ hwide _
  have hrest {c : Call} {i : X86.Inst} (hwiden : c.inst = .ok i) :
      Writes pc
      ([.inst i, .inst (.idiv (Lower.aluSize dst.width) Lower.source)] ++ Lower.store dst result)
        (do call c; call (.idiv (widthOf dst) Lower.source); store dst result) () :=
    (writes_call hwiden).bind ((writes_call hidiv).bind (writes_store _ hdst))
  -- The list of the lowering, bracketed as the emission writes it.
  have hparts : Lower.divide result dst src =
      Lower.load Lower.acc dst ++ (Lower.load Lower.source src ++
      ([.inst (if dst.width = .qword then .cqo else .cdq),
        .inst (.idiv (Lower.aluSize dst.width) Lower.source)] ++ Lower.store dst result)) := by
    unfold Lower.divide
    cases dst.width <;> simp [Lower.aluSize]
  rw [hparts]
  refine (writes_load _ (constant?_of_isPlace hdst)).bind ((writes_load _ hsrc).bind ?_)
  dsimp only
  by_cases hq : dst.width = .qword
  · rw [if_pos hq, if_pos hq]
    exact hrest rfl
  · rw [if_neg hq, if_neg hq]
    exact hrest rfl

/-- A shift takes its count from an immediate, which is masked here, or from the low byte of the
count register. -/
theorem writes_shift (op : X86.ShiftOp) (hdst : dst.IsPlace) (hwide : dst.width ≠ .byte)
    (hsrc : src.constant? = none) : Writes pc (Lower.shift op dst src) (shift op dst src) () := by
  -- The emission masks with a constant, the lowering with the mask of the size.
  have hmask : (if dst.width = .qword then 63 else 31 : UInt8) =
      (Lower.aluSize dst.width).countMask := by
    cases hw : dst.width with
    | byte => exact absurd hw hwide
    | dword | qword => rfl
  have himm (count : UInt8) : (Call.shiftRegImm op (widthOf dst) Lower.acc count).inst =
      .ok (.shiftImm op (Lower.aluSize dst.width) Lower.acc count) := sized_widthOf _ hwide _
  have hcl : (Call.shiftRegCl op (widthOf dst) Lower.acc).inst =
      .ok (.shiftCl op (Lower.aluSize dst.width) Lower.acc) := sized_widthOf _ hwide _
  have hregister : Writes pc (Lower.load Lower.acc dst ++ ((Lower.load Lower.source src ++
      [.inst (.shiftCl op (Lower.aluSize dst.width) Lower.acc)]) ++ Lower.store dst Lower.acc))
      (do load Lower.acc dst; load Lower.source src; call (.shiftRegCl op (widthOf dst) Lower.acc)
          store dst Lower.acc) () := by
    rw [List.append_assoc (Lower.load Lower.source src)]
    refine (writes_load _ (constant?_of_isPlace hdst)).bind ?_
    exact (writes_load _ hsrc).bind ((writes_call hcl).bind (writes_store _ hdst))
  unfold Lower.shift
  rw [List.append_assoc]
  cases src with
  | imm v =>
    unfold shift
    rw [← hmask]
    refine (writes_load _ (constant?_of_isPlace hdst)).bind ?_
    exact (writes_call (himm _)).bind (writes_store _ hdst)
  | reg | freg | global | pointer => exact hregister
  | fimm => cases hsrc

/-- Every integer operation is one of the three shapes above. -/
theorem writes_arith (op : ArithOp) (hdst : dst.IsPlace) (hwide : dst.width ≠ .byte)
    (hsrc : src.constant? = none) : Writes pc (Lower.arith op dst src) (arith op dst src) () := by
  cases op with
  | add | sub | and | or | xor => exact writes_alu _ hdst hwide hsrc
  | mul => exact writes_multiply hdst hwide hsrc
  | div | mod => exact writes_divide _ hdst hwide hsrc
  | shl | shr => exact writes_shift _ hdst hwide hsrc

theorem writes_storeCondition (c : X86.Cond) (hdst : dst.IsPlace) :
    Writes pc (Lower.storeCondition c dst) (storeCondition c dst) () :=
  (writes_call rfl).bind ((writes_call rfl).bind (writes_store _ hdst))

/-- A comparison takes 32 bits of both operands; a register source is compared where it lies. -/
theorem writes_compare (rel : Relation) (hdst : dst.IsPlace) (hsrc : src.constant? = none) :
    Writes pc (Lower.compare rel dst src) (compare rel dst src) () := by
  have hstore : Writes pc _ _ () := writes_storeCondition (Lower.signedCond rel) hdst
  have hregister : Writes pc (Lower.load Lower.acc dst ++ ((Lower.load Lower.source src ++
      [.inst (.aluRegReg .cmp .dword Lower.acc Lower.source)])
        ++ Lower.storeCondition (Lower.signedCond rel) dst))
      (do load Lower.acc dst; load Lower.source src
          call (.aluRegReg .cmp 32 Lower.acc Lower.source)
          storeCondition (Lower.signedCond rel) dst) () := by
    rw [List.append_assoc (Lower.load Lower.source src)]
    refine (writes_load _ (constant?_of_isPlace hdst)).bind ?_
    exact (writes_load _ hsrc).bind ((writes_call rfl).bind hstore)
  unfold Lower.compare
  rw [List.append_assoc]
  cases src with
  | reg r => exact (writes_load _ (constant?_of_isPlace hdst)).bind ((writes_call rfl).bind hstore)
  | imm | freg | global | pointer => exact hregister
  | fimm => cases hsrc

/-! ## Floats -/

/-- A float constant is loaded from behind the code: its address is a use that is filled in
later. -/
theorem writes_loadF (x : Xmm) (o : Operand) : Writes pc (Lower.loadF x o) (loadF x o) () := by
  have hplace (hp : o.IsPlace) : Writes pc ((Lower.place o Lower.srcAddr).1 ++
      [if o.holdsFloat then .inst (.movssLoad x (Lower.place o Lower.srcAddr).2)
        else .inst (.cvtsi2ssMem .dword x (Lower.place o Lower.srcAddr).2)])
      (if o.holdsFloat then ref o Lower.srcAddr >>= fun a => call (.movssXmmMem x a)
        else ref o Lower.srcAddr >>= fun a => call (.cvtsi2ssMem 32 x a)) () := by
    split
    · exact writes_at hp (fun _ => rfl) fun _ => rfl
    · exact writes_at hp (fun _ => rfl) fun _ => rfl
  cases o with
  | fimm bits => exact writes_withFloat (i := .loadConst x bits) rfl (fun _ => rfl) rfl
  | imm v => exact (writes_call rfl).bind (writes_call rfl)
  | reg | freg | global | pointer => exact hplace trivial

theorem writes_storeF (x : Xmm) (h : o.IsPlace) : Writes pc (Lower.storeF o x) (storeF o x) () := by
  unfold Lower.storeF storeF
  split
  · exact writes_at (g := fun m => .movssStore m x) h (fun _ => rfl) fun _ => rfl
  · exact (writes_call rfl).bind (writes_store _ h)

theorem writes_fmove (src : Operand) (hdst : dst.IsPlace) :
    Writes pc (Lower.fmove dst src) (fmove dst src) () :=
  (writes_loadF _ src).bind (writes_storeF _ hdst)

/-- An operation with a constant operand refers to the constants behind the code. -/
theorem writes_operateF (op : X86.SseOp) (src : Operand) :
    Writes pc (Lower.operateF op src) (operateF op src) () := by
  have hplace (hp : src.IsPlace) : Writes pc
      (if src.holdsFloat then (Lower.place src Lower.srcAddr).1 ++
          [.inst (.sseMem op Lower.x0 (Lower.place src Lower.srcAddr).2)]
        else Lower.loadF Lower.x1 src ++ [.inst (.sseReg op Lower.x0 Lower.x1)])
      (if src.holdsFloat then ref src Lower.srcAddr >>= fun a => call (.sseXmmMem op Lower.x0 a)
        else loadF Lower.x1 src >>= fun _ => call (.sseXmmXmm op Lower.x0 Lower.x1)) () := by
    split
    · exact writes_at hp (fun _ => rfl) fun _ => rfl
    · exact (writes_loadF _ src).bind (writes_call rfl)
  cases src with
  | fimm bits => exact writes_withFloat (i := .opConst op Lower.x0 bits) rfl (fun _ => rfl) rfl
  | imm v => exact (writes_loadF _ (.imm v)).bind (writes_call rfl)
  | reg | freg | global | pointer => exact hplace trivial

theorem writes_farith (op : X86.SseOp) (src : Operand) (hdst : dst.IsPlace) :
    Writes pc (Lower.farith op dst src) (farith op dst src) () := by
  unfold Lower.farith
  rw [List.append_assoc]
  exact (writes_loadF _ dst).bind ((writes_operateF op src).bind (writes_storeF _ hdst))

theorem writes_fcompare (rel : Relation) (a b : Operand) (hdst : dst.IsPlace) :
    Writes pc (Lower.fcompare rel dst a b) (fcompare rel dst a b) () :=
  (writes_call rfl).bind ((writes_call rfl).bind (writes_storeCondition _ hdst))

/-! ## The stack -/

/-- The guard measures the exit that it jumps over before it writes the jump. -/
theorem writes_stackGuard (limit : Int64) :
    Writes pc (Lower.stackGuard pc limit) (stackGuard limit) () := by
  unfold Lower.stackGuard stackGuard
  split
  · exact writes_faultExit
  · exact (writes_call rfl).bind ((writes_call rfl).bind (writes_faultUnless _))

theorem writes_pushOne (t : Target) (r : RegRange) :
    Writes pc (Lower.pushOne t pc r) (pushOne t r) () := by
  refine (writes_call rfl).bind ((writes_stackGuard _).bind ?_)
  obtain ⟨float, first, count⟩ := r
  cases float <;> exact writes_calls (.cons rfl (.cons rfl (.cons rfl (.cons rfl .nil))))

theorem writes_popOne (t : Target) (r : RegRange) :
    Writes pc (Lower.popOne t pc r) (popOne t r) () := by
  refine (writes_call rfl).bind ((writes_call rfl).bind ((writes_stackGuard _).bind ?_))
  obtain ⟨float, first, count⟩ := r
  cases float <;> exact writes_calls (.cons rfl (.cons rfl (.cons rfl (.cons rfl .nil))))

theorem writes_pushRange (t : Target) (r : RegRange) :
    Writes pc (Lower.pushRange t pc r) (pushRange t r) () := by
  refine (writes_call rfl).bind ((writes_stackGuard _).bind ?_)
  obtain ⟨float, first, count⟩ := r
  cases float <;>
    exact writes_calls (.cons rfl (.cons rfl (.cons rfl (.cons rfl (.cons rfl (.cons rfl
    (.cons rfl (.cons rfl .nil))))))))

theorem writes_popRange (t : Target) (r : RegRange) :
    Writes pc (Lower.popRange t pc r) (popRange t r) () := by
  refine (writes_call rfl).bind ((writes_call rfl).bind ((writes_stackGuard _).bind ?_))
  obtain ⟨float, first, count⟩ := r
  cases float <;>
    exact writes_calls (.cons rfl (.cons rfl (.cons rfl (.cons rfl (.cons rfl (.cons rfl
    (.cons rfl (.cons rfl .nil))))))))

end Emit

/-! ## Actions -/

namespace Isa

/-- Kinds of operands that have a place. -/
def Kind.isPlace (k : Kind) : Bool := k == .reg || k == .freg || k.isMemory

theorem Kind.isImmediate_eq_false {k : Kind} (h : k.isPlace = true) : k.isImmediate = false := by
  revert h
  cases k <;> decide

/-- What is written has a place. -/
theorem placed_definitions : ∀ d ∈ definitions, writesFirst d.family = true →
    ∀ k ∈ (d.slots.map (·.kind))[0]?, k.isPlace = true := by
  decide +kernel

/-- In every entry of the table, an operand that is written first is a place. -/
theorem isPlace_of_mem_table {info : Info} {k : Kind} (h : info ∈ table)
    (hw : writesFirst info.family = true) (hk : info.kinds[0]? = some k) : k.isPlace = true := by
  obtain ⟨op, d, hd, rfl⟩ := mem_table_iff.mp h
  exact placed_definitions d (List.mem_of_getElem? hd) hw k hk

end Isa

theorem Addressed.isPlace {g : Int64} {x : Isa.Operand} {o : Operand} (h : Addressed g x o)
    (hk : x.kind.isPlace = true) : o.IsPlace := by
  cases h with
  | reg | freg | pointer | global => trivial
  | imm kind =>
    rw [Isa.Kind.isImmediate_eq_false hk] at kind
    cases kind
  | fimm kind =>
    rw [kind] at hk
    cases hk

namespace Action

/-- The integer operand that the action reads besides its destination. -/
def source : Action → Option Operand
  | move _ src | arith _ _ src | compare _ _ src => some src
  | _ => none

/-- The operands suit the lowering of the action. -/
structure Suited (a : Action) : Prop where
  place : ∀ dst, a.destination = some dst → dst.IsPlace
  source : ∀ src, a.source = some src → src.constant? = none
  wide : ∀ op dst src, a = arith op dst src → dst.width ≠ .byte

variable {a : Action}

/-- The source of an action is one of the operands of its instruction. -/
theorem mem_of_source {f : Isa.Family} {w : Nat} {ops : List Operand} {src : Operand}
    (h : of? f w ops = some a) (hs : a.source = some src) : src ∈ ops ∧ a.isPlain = true := by
  cases asked_of_of? h with
  | move | arith | compare =>
    cases hs
    exact ⟨List.mem_cons_of_mem _ (List.mem_cons_self ..), rfl⟩
  | _ => cases hs

/-- No operand of an accepted instruction makes its lowering abort. -/
theorem suited_of_ofInst {code : Array UInt8} {pc g : Int64} {i : Isa.Inst}
    (hi : Isa.Decoded code pc i) (h : ofInst i g = .ok a) : a.Suited := by
  obtain ⟨-, ops, hops, hof⟩ := ofInst_eq_ok h
  refine ⟨?_, ?_, (lawful_of_ofInst hi h).wide⟩
  · intro dst hdst
    obtain ⟨hhead, hw, -⟩ := head?_of_destination hof hdst
    rw [List.head?_eq_getElem?] at hhead
    obtain ⟨haddressed, hkind⟩ := addressed_of_operandsOf hi hops hhead
    exact haddressed.isPlace (Isa.isPlace_of_mem_table hi.known hw hkind)
  · intro src hsrc
    obtain ⟨hmem, hplain⟩ := mem_of_source hof hsrc
    have hkinds := fimm_not_mem hof (.inl hplain) (Isa.floatShaped_of_mem_table hi.known)
    obtain ⟨k, hk⟩ := List.mem_iff_getElem?.mp hmem
    obtain ⟨x, hx, ho⟩ := operandsFrom_getElem? hops hk
    rw [constant?_of_operandOf ho, if_neg]
    intro hfimm
    apply hkinds
    rw [← hi.kinds_eq, ← hfimm]
    exact List.mem_map_of_mem (List.mem_of_getElem? hx)

/-- Emission writes what the action is lowered to. -/
theorem writes_emit (h : a.Suited) (t : Target) (pc : Int64) :
    Writes pc (a.lower t pc) (a.emit t) () := by
  obtain ⟨hplace, hsource, hwide⟩ := h
  cases a with
  | move dst src => exact Emit.writes_move (hplace dst rfl) (hsource src rfl)
  | arith op dst src =>
    exact Emit.writes_arith op (hplace dst rfl) (hwide op dst src rfl) (hsource src rfl)
  | compare rel dst src => exact Emit.writes_compare rel (hplace dst rfl) (hsource src rfl)
  | fcompare rel dst x y => exact Emit.writes_fcompare rel x y (hplace dst rfl)
  | fmove dst src => exact Emit.writes_fmove src (hplace dst rfl)
  | farith op dst src =>
    cases op with
    | mod => exact Emit.writes_serviceExit
    | add | sub | mul | div => exact Emit.writes_farith _ src (hplace dst rfl)
  | push r => exact Emit.writes_pushOne t r
  | pop r => exact Emit.writes_popOne t r
  | pushRange r => exact Emit.writes_pushRange t r
  | popRange r => exact Emit.writes_popRange t r
  | nop => exact .pure ()
  | service s => exact Emit.writes_serviceExit

end Action

end BlockVM
