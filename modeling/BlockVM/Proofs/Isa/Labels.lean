import BlockVM.Proofs.Block.Layout
import BlockVM.Proofs.Isa.Drafts

/-!
# Label resolution

Labels are resolved in a copy of the code, after all statements have been written. `settle` is a
second pass over the statements instead, which writes them again now that every label has its
address. Filling in the fields gives the same bytes (`resolve_eq_settle`), and of the second pass it
is plain what stands where and which branch it fails at.

`assembly_resolves_labels` says what assembly makes of any list of statements.
-/

namespace BlockVM.Isa

open LittleEndian Draft

/-! ## The second pass -/

/-- What the field of a branch at `pos` is filled with when its label stands at `target`. -/
def Statement.filling (pos target : Nat) (s : Statement) : UInt64 :=
  ((s.fixups pos).head?.elim 0 fun f => Fixup.value f target).toUInt64

/-- The bytes of a statement at `pos`, all labels being known. -/
def Statement.settled (labels : List (String × Nat)) (pos : Nat) (s : Statement) :
    Except AssemblyError (List UInt8) :=
  match s with
  | .branch _ t _ =>
    match labels.lookup t with
    | none => .error (.undefinedLabel t (Int64.ofNat pos))
    | some target => .ok (s.encoding (s.filling pos target))
  | s => .ok (s.encoding 0)

/-- The second pass over statements from `pos` on. -/
def settle (labels : List (String × Nat)) : Nat → List Statement → Except AssemblyError (List UInt8)
  | _, [] => .ok []
  | pos, s :: ss => do
    let bs ← s.settled labels pos
    let rest ← settle labels (pos + (s.encoding 0).length) ss
    return bs ++ rest

/-- The fields of a row that ends in one more slot. -/
theorem fields_concat {rs : List Kind} {args : List UInt64} (h : List.Forall₂ Kind.Fits rs args)
    (k : Kind) (v : UInt64) :
    fields (rs ++ [k]) (args ++ [v]) = fields rs args ++ bytes k.size v.toNat := by
  rw [fields, List.zipWith_append h.length_eq, List.flatten_append]
  simp [fields]

/-- A branch is its instruction without the field, then the field. -/
theorem encoding_branch {m t : String} {args : List UInt64} {info : Info}
    {rs : List Kind} {k : Kind} (hname : byName m = some info) (hbr : info.Branches rs k)
    (hfits : List.Forall₂ Kind.Fits rs args) (v : UInt64) :
    (Statement.branch m t args).encoding v =
      (bytes opcodeSize info.op ++ fields rs args) ++ bytes 4 v.toNat := by
  rw [Statement.encoding, Line.encoding, hname, Option.elim_some, Info.encoding, hbr.kinds,
    fields_concat hfits, hbr.size_eq, List.append_assoc]

/-- A branch leaves one fixup, at the slot of its label. -/
theorem fixups_branch {m t : String} {args : List UInt64} {info : Info} {rs : List Kind} {k : Kind}
    (hname : byName m = some info) (hbr : info.Branches rs k) (pos : Nat) :
    (Statement.branch m t args).fixups pos =
      [⟨pos + (opcodeSize + (rs.map Kind.size).sum), pos, pos + info.length, k, t⟩] := by
  simp [Statement.fixups, hname, labelSlot_of_branches hbr]

theorem overwrite_eq (code : Array UInt8) (pos : Nat) (bs : List UInt8) :
    Draft.overwrite code pos bs = CodeBuffer.overwrite code pos bs := by
  induction bs generalizing code pos with
  | nil => rfl
  | cons b bs ih => exact ih _ _

/-- Filling that slot gives the branch with the value in place of the zero. -/
theorem overwrite_branch {m t : String} {args : List UInt64} {info : Info}
    {rs : List Kind} {k : Kind} (hname : byName m = some info) (hbr : info.Branches rs k)
    (hfits : List.Forall₂ Kind.Fits rs args) (pre tail : List UInt8) (v : UInt32) :
    Draft.overwrite (pre ++ ((Statement.branch m t args).encoding 0 ++ tail)).toArray
        (pre.length + (opcodeSize + (rs.map Kind.size).sum)) (ofUInt32 v) =
      (pre ++ ((Statement.branch m t args).encoding v.toUInt64 ++ tail)).toArray := by
  have henc := encoding_branch (t := t) hname hbr hfits
  -- The field is the end of the instruction.
  have hpos : pre.length + (opcodeSize + (rs.map Kind.size).sum) =
      (pre ++ (bytes opcodeSize info.op ++ fields rs args)).length := by
    simp only [List.length_append, length_bytes, length_fields hfits]
  have hwidth : (bytes 4 (0 : UInt64).toNat).length = (ofUInt32 v).length := by
    simp [ofUInt32]
  have hwrite := Layout.overwrite_append (pre ++ (bytes opcodeSize info.op ++ fields rs args)) tail
    hwidth
  rw [overwrite_eq, hpos, henc, henc]
  simpa only [List.append_assoc, ofUInt32, UInt32.toNat_toUInt64] using hwrite

/-- The value of a label does not change the length of a statement. -/
theorem Statement.Sound.length_encoding {s : Statement} (h : s.Sound) (v : UInt64) :
    (s.encoding v).length = (s.encoding 0).length := by
  cases s with
  | branch m t args =>
    obtain ⟨info, rs, k, hname, hbr, hfits⟩ := h
    rw [encoding_branch hname hbr hfits, encoding_branch hname hbr hfits]
    simp
  | emit | label | raw => rfl

/-- Filling in the fields of a draft gives what a second pass writes. -/
theorem resolve_eq_settle (labels : List (String × Nat)) {ss : List Statement}
    (h : ∀ s ∈ ss, s.Sound) (pre : List UInt8) :
    resolve labels (pre ++ ss.flatMap (·.encoding 0)).toArray (fixupsFrom pre.length ss) =
      (settle labels pre.length ss).map fun bs => (pre ++ bs).toArray := by
  -- What has been settled moves to `pre`, whose length is the address of the next statement.
  induction ss generalizing pre with
  | nil => simp [fixupsFrom, resolve, settle, Except.map]
  | cons s ss ih =>
    obtain ⟨hs, hss⟩ := List.forall_mem_cons.mp h
    have next (bs : List UInt8) (hlen : bs.length = (s.encoding 0).length) :
        resolve labels (pre ++ (bs ++ ss.flatMap (·.encoding 0))).toArray
            (fixupsFrom (pre.length + (s.encoding 0).length) ss) =
          (do
            let bs ← Except.ok bs
            let rest ← settle labels (pre.length + (s.encoding 0).length) ss
            return bs ++ rest).map fun bs => (pre ++ bs).toArray := by
      have hrest := ih hss (pre ++ bs)
      rw [List.length_append, hlen, List.append_assoc] at hrest
      rw [hrest]
      cases settle labels (pre.length + (s.encoding 0).length) ss with
      | error e => rfl
      | ok rest => simp [Except.map, bind, Except.bind, pure, Except.pure]
    rw [List.flatMap_cons, fixupsFrom, settle]
    cases s with
    | branch m t args =>
      have hlength := hs.length_encoding
      obtain ⟨info, rs, k, hname, hbr, hfits⟩ := hs
      have hfixups := @fixups_branch m t args info rs k hname hbr pre.length
      simp only [Statement.settled, Statement.filling, hfixups, List.head?_cons, Option.elim_some,
        List.singleton_append, resolve]
      cases labels.lookup t with
      | none => rfl
      | some target =>
        simp only [overwrite_branch hname hbr hfits]
        exact next _ (hlength _)
    | emit | label | raw => exact next _ rfl

section Settle

variable {labels : List (String × Nat)} {pos : Nat} {ss : List Statement} {bs : List UInt8}

/-- One statement fails in the second pass if it is a branch whose label has no address. -/
theorem settled_error_iff {s : Statement} {e : AssemblyError} :
    s.settled labels pos = .error e ↔ ∃ m t args, s = .branch m t args ∧ labels.lookup t = none ∧
      e = .undefinedLabel t (Int64.ofNat pos) := by
  constructor
  · intro h
    cases s with
    | branch m t args =>
      rw [Statement.settled] at h
      split at h
      next hnone =>
        cases h
        exact ⟨m, t, args, rfl, hnone, rfl⟩
      · cases h
    | emit | label | raw => cases h
  · rintro ⟨m, t, args, rfl, hnone, rfl⟩
    rw [Statement.settled, hnone]

/-- One statement passes if its label has an address or it has none. -/
theorem settled_isOk_iff {s : Statement} :
    (∃ b, s.settled labels pos = .ok b) ↔
      ∀ m t args, s = .branch m t args → (labels.lookup t).isSome := by
  constructor
  · rintro ⟨b, hb⟩ m t args rfl
    rw [Option.isSome_iff_ne_none]
    intro hnone
    rw [Statement.settled, hnone] at hb
    cases hb
  · intro h
    cases s with
    | branch m t args =>
      obtain ⟨target, htarget⟩ := Option.isSome_iff_exists.mp (h m t args rfl)
      rw [Statement.settled, htarget]
      exact ⟨_, rfl⟩
    | emit | label | raw => exact ⟨_, rfl⟩

/-- The second pass fails at the first branch whose label has no address. -/
theorem settle_error_iff {e : AssemblyError} :
    settle labels pos ss = .error e ↔ ∃ before m t args after,
      ss = before ++ .branch m t args :: after ∧
      (∀ m' t' args', .branch m' t' args' ∈ before → (labels.lookup t').isSome) ∧
      labels.lookup t = none ∧
      e = .undefinedLabel t (Int64.ofNat (pos + (before.flatMap (·.encoding 0)).length)) := by
  induction ss generalizing pos with
  | nil => simp [settle]
  | cons s ss ih =>
    have rest_error {x : Except AssemblyError (List UInt8)} {b : List UInt8} :
        (do let rest ← x; return b ++ rest) = .error e ↔ x = .error e := by
      cases x <;> simp [bind, Except.bind, pure, Except.pure]
    rw [settle, bind_eq_error]
    simp only [rest_error, ih]
    -- Either `s` is the branch, or it passes and the branch comes behind it.
    constructor
    · rintro (hs | ⟨b, hs, before, m, t, args, after, rfl, hbefore, hnone, rfl⟩)
      · obtain ⟨m, t, args, rfl, hnone, rfl⟩ := settled_error_iff.mp hs
        exact ⟨[], m, t, args, ss, rfl, by simp, hnone, by simp⟩
      · refine ⟨s :: before, m, t, args, after, rfl, ?_, hnone, by simp [Nat.add_assoc]⟩
        intro m' t' args' hmem
        rcases List.mem_cons.mp hmem with rfl | hmem
        · exact settled_isOk_iff.mp ⟨b, hs⟩ m' t' args' rfl
        · exact hbefore m' t' args' hmem
    · rintro ⟨before, m, t, args, after, hsplit, hbefore, hnone, rfl⟩
      cases before with
      | nil =>
        cases hsplit
        left
        exact settled_error_iff.mpr ⟨m, t, args, rfl, hnone, by simp⟩
      | cons s' before =>
        cases hsplit
        right
        obtain ⟨b, hb⟩ := settled_isOk_iff.mpr fun m' t' args' (hs : s = .branch m' t' args') =>
          hbefore m' t' args' (hs ▸ List.mem_cons_self)
        refine ⟨b, hb, before, m, t, args, after, rfl, ?_, hnone, by simp [Nat.add_assoc]⟩
        intro m' t' args' hmem
        exact hbefore m' t' args' (List.mem_cons_of_mem _ hmem)

theorem settled_length {s : Statement} (hs : s.Sound) (h : s.settled labels pos = .ok bs) :
    bs.length = (s.encoding 0).length := by
  cases s with
  | branch m t args =>
    rw [Statement.settled] at h
    split at h
    · cases h
    · obtain rfl := Except.ok.inj h
      exact hs.length_encoding _
  | emit | label | raw =>
    obtain rfl := Except.ok.inj h
    rfl

/-- A second pass over a program that starts with `s`. -/
theorem settle_cons {s : Statement} (h : settle labels pos (s :: ss) = .ok bs) :
    ∃ b rest, s.settled labels pos = .ok b ∧
      settle labels (pos + (s.encoding 0).length) ss = .ok rest ∧ bs = b ++ rest := by
  obtain ⟨b, hb, h⟩ := bind_eq_ok.mp h
  obtain ⟨rest, hrest, h⟩ := bind_eq_ok.mp h
  cases h
  exact ⟨b, rest, hb, hrest, rfl⟩

/-- The bytes of one statement inside a program. -/
theorem settle_split {before after : List Statement} {s : Statement}
    (hbefore : ∀ s ∈ before, s.Sound) (h : settle labels pos (before ++ s :: after) = .ok bs) :
    ∃ b₁ b b₂, bs = b₁ ++ b ++ b₂ ∧ b₁.length = (before.flatMap (·.encoding 0)).length ∧
      s.settled labels (pos + b₁.length) = .ok b := by
  induction before generalizing pos bs with
  | nil =>
    obtain ⟨b, rest, hb, -, rfl⟩ := settle_cons h
    exact ⟨[], b, rest, rfl, rfl, hb⟩
  | cons s' before ih =>
    obtain ⟨hs', hbefore⟩ := List.forall_mem_cons.mp hbefore
    obtain ⟨b', rest, hb', hrest, rfl⟩ := settle_cons h
    obtain ⟨b₁, b, b₂, rfl, hlen, hb⟩ := ih hbefore hrest
    have hlen' := settled_length hs' hb'
    refine ⟨b' ++ b₁, b, b₂, by simp, by simp [hlen, hlen'], ?_⟩
    rw [← hb, List.length_append, hlen', Nat.add_assoc]

/-- The two passes write the same bytes for one statement, but for the last four of a branch. -/
theorem settled_agrees {s : Statement} (hs : s.Sound) (h : s.settled labels pos = .ok bs) {p : Nat}
    (hp : bs[p]? ≠ (s.encoding 0)[p]?) (hlt : p < bs.length) :
    (∃ m t args, s = .branch m t args) ∧ bs.length ≤ p + 4 := by
  cases s with
  | branch m t args =>
    refine ⟨⟨m, t, args, rfl⟩, ?_⟩
    obtain ⟨info, rs, k, hname, hbr, hfits⟩ := hs
    rw [Statement.settled] at h
    split at h
    · cases h
    · obtain rfl := Except.ok.inj h
      have henc := encoding_branch (t := t) hname hbr hfits
      rw [henc, henc] at hp
      -- The two encodings share the opcode and the register operands, so they differ behind these.
      have hbehind : (bytes opcodeSize info.op ++ fields rs args).length ≤ p := by
        rw [← Nat.not_lt]
        intro hinside
        rw [List.getElem?_append_left hinside, List.getElem?_append_left hinside] at hp
        exact hp rfl
      rw [henc, List.length_append, length_bytes]
      omega
  | emit | label | raw =>
    obtain rfl := Except.ok.inj h
    exact absurd rfl hp

/-- The two passes write the same bytes, but for the last four of every branch. -/
theorem settle_agrees (hsound : ∀ s ∈ ss, s.Sound) (h : settle labels pos ss = .ok bs) :
    bs.length = (ss.flatMap (·.encoding 0)).length ∧
    ∀ p, bs[p]? ≠ (ss.flatMap (·.encoding 0))[p]? → ∃ before m t args after,
      ss = before ++ .branch m t args :: after ∧
      let next := ((before ++ [.branch m t args]).flatMap (·.encoding 0)).length
      p < next ∧ next ≤ p + 4 := by
  induction ss generalizing pos bs with
  | nil =>
    cases h
    simp
  | cons s ss ih =>
    obtain ⟨hs, hss⟩ := List.forall_mem_cons.mp hsound
    obtain ⟨b, rest, hb, hrest, rfl⟩ := settle_cons h
    obtain ⟨hlen, hdiff⟩ := ih hss hrest
    have hlen' := settled_length hs hb
    refine ⟨by simp [hlen, hlen'], ?_⟩
    intro p hp
    rw [List.flatMap_cons] at hp
    -- The place is in the first statement or in one of the others.
    rcases Nat.lt_or_ge p b.length with hlt | hge
    · rw [List.getElem?_append_left hlt, List.getElem?_append_left (hlen' ▸ hlt)] at hp
      obtain ⟨⟨m, t, args, rfl⟩, hfield⟩ := settled_agrees hs hb hp hlt
      refine ⟨[], m, t, args, ss, rfl, ?_⟩
      simp only [List.nil_append, List.flatMap_singleton, ← hlen']
      exact ⟨hlt, hfield⟩
    · rw [List.getElem?_append_right hge, List.getElem?_append_right (hlen' ▸ hge), ← hlen'] at hp
      obtain ⟨before, m, t, args, after, rfl, hfield⟩ := hdiff _ hp
      refine ⟨s :: before, m, t, args, after, rfl, ?_⟩
      simp only [List.cons_append, List.flatMap_cons, List.length_append] at hfield ⊢
      omega

end Settle

/-! ## Branches -/

/-- The instruction has the mnemonic `m` and goes to the address `target`; its other operands are
`args`. -/
structure GoesTo (i : Inst) (m : String) (args : List UInt64) (target : Nat) : Prop where
  name : i.name = m
  operands : ∃ given last, i.args = given ++ [last] ∧ given.map (·.value) = args ∧
    (last.kind = .addr ∧ last.low.toNat = target ∨
      last.kind = .disp ∧ i.next + last.signed = Int64.ofNat target)

/-- In front of the label there are registers, whose numbers are read back as they were given. -/
theorem values_of_registers {rs : List Kind} {args : List UInt64} (hrs : ∀ r ∈ rs, r = .reg)
    (hfits : List.Forall₂ Kind.Fits rs args) : (operands rs args).map (·.value) = args := by
  induction hfits with
  | nil => rfl
  | @cons r v rs args hfit _ ih =>
    obtain ⟨rfl, hrest⟩ := List.forall_mem_cons.mp hrs
    have hv : v.toNat ≤ 0xff := hfit rfl
    have hreduced : Kind.reg.reduced v = v := by
      show UInt64.ofNat (v.toNat % 256 ^ 1) = v
      rw [Nat.mod_eq_of_lt (by omega), UInt64.ofNat_toNat]
    simp only [operands, List.zipWith_cons_cons, List.map_cons, hreduced] at ih ⊢
    rw [ih hrest]

/-- A displacement between two addresses inside the code reaches its target. -/
theorem add_displacement {next target : Nat} (hnext : next < 2 ^ 31) (htarget : target < 2 ^ 31) :
    Int64.ofNat next + (Int64.ofNat target - Int64.ofNat next).toInt32.toInt64 =
      Int64.ofNat target := by
  have hn : (Int64.ofNat next).toInt = next := Int64.toInt_ofNat_of_lt (by omega)
  have ht : (Int64.ofNat target).toInt = target := Int64.toInt_ofNat_of_lt (by omega)
  have hsub := toInt_sub_of_bounds (x := Int64.ofNat target) (y := Int64.ofNat next)
    (by omega) (by omega)
  have hword : (Int64.ofNat target - Int64.ofNat next).toInt32.toInt64.toInt =
      (target : Int) - next := by
    rw [Int32.toInt_toInt64, Int64.toInt_toInt32, hsub, ht, hn]
    exact Int.bmod_eq_of_le (by omega) (by omega)
  apply Int64.toInt_inj.mp
  rw [toInt_add_of_bounds (by omega) (by omega), hword, hn, ht]
  omega

/-- The field of an absolute branch keeps the address of the label. -/
theorem low_of_absolute {target : Nat} (h : target < 2 ^ 31) :
    (Kind.addr.reduced (UInt32.ofNat target).toUInt64).toUInt32.toNat = target := by
  have hreduced :
      Kind.addr.reduced (UInt32.ofNat target).toUInt64 = (UInt32.ofNat target).toUInt64 := by
    have hlt := (UInt32.ofNat target).toNat_lt
    show UInt64.ofNat ((UInt32.ofNat target).toUInt64.toNat % 256 ^ 4) = _
    rw [Nat.mod_eq_of_lt (by rw [UInt32.toNat_toUInt64]; omega), UInt64.ofNat_toNat]
  rw [hreduced, UInt32.toUInt32_toUInt64, UInt32.toNat_ofNat_of_lt' (by
    rw [UInt32.size]
    omega)]

/-- The field of a relative branch keeps the displacement. -/
theorem signed_of_relative (d : Int32) :
    (Kind.disp.reduced d.toUInt32.toUInt64).toInt64 = d.toInt64 := by
  show d.toUInt32.toUInt64.toUInt32.toInt32.toInt64.toUInt64.toInt64 = _
  rw [UInt32.toUInt32_toUInt64]
  simp

/-- The instruction of a branch goes to the label. -/
theorem goesTo_of_fixup {m t : String} {args : List UInt64} {info : Info}
    {rs : List Kind} {k : Kind} (hname : byName m = some info) (hbr : info.Branches rs k)
    (hfits : List.Forall₂ Kind.Fits rs args) {pos target : Nat} (hnext : pos + info.length < 2 ^ 31)
    (htarget : target < 2 ^ 31) :
    GoesTo ⟨Int64.ofNat pos, info,
        operands info.kinds (args ++ [(Statement.branch m t args).filling pos target])⟩
      m args target := by
  have hargs (v : UInt64) :
      operands info.kinds (args ++ [v]) = operands rs args ++ [⟨k, k.reduced v⟩] := by
    rw [hbr.kinds, operands, List.zipWith_append hfits.length_eq]
    rfl
  refine ⟨(byName_eq_some hname).2, _, _, hargs _, values_of_registers hbr.registers hfits, ?_⟩
  have htakes := hbr.takes
  rw [Statement.filling, fixups_branch hname hbr, List.head?_cons, Option.elim_some]
  -- Only these two kinds of slots take labels.
  rcases (by cases k <;> simp_all [takesLabel] : k = .addr ∨ k = .disp) with rfl | rfl
  · exact .inl ⟨rfl, low_of_absolute htarget⟩
  · refine .inr ⟨rfl, ?_⟩
    have hdisp := add_displacement hnext htarget
    rw [Int64.ofNat_add] at hdisp
    set d := (Int64.ofNat target - (Int64.ofNat pos + Int64.ofNat info.length)).toInt32 with hd
    have hfield : Fixup.value ⟨pos + (opcodeSize + (rs.map Kind.size).sum), pos, pos + info.length,
        .disp, t⟩ target = d.toUInt32 := by
      rw [hd, ← Int64.ofNat_add]
      rfl
    show Int64.ofNat pos + Int64.ofNat info.length + (Kind.disp.reduced _).toInt64 = _
    rw [hfield, signed_of_relative]
    exact hdisp

/-- What assembly makes of the branches: they go to their labels, and but for the last four bytes of
each the code is that of the statements with zeros in place of the labels. -/
structure Resolved (ss : List Statement) (code : Array UInt8) : Prop where
  branches : ∀ before m t args after, ss = before ++ .branch m t args :: after →
    ∃ above below i, ss = above ++ .label t :: below ∧
      decode code (Int64.ofNat (ofStatements before).pc) = .ok i ∧
      GoesTo i m args (ofStatements above).pc
  others : ∃ plain, assemble (ss.map (·.zeroed)) = .ok plain ∧ plain.size = code.size ∧
    ∀ p, code[p]? ≠ plain[p]? → ∃ before m t args after, ss = before ++ .branch m t args :: after ∧
      let next := (ofStatements (before ++ [.branch m t args])).pc
      p < next ∧ next ≤ p + 4

/-- The first branch to a label that nothing binds. -/
def FirstUnbound (ss : List Statement) (e : AssemblyError) : Prop :=
  ∃ before m t args after, ss = before ++ .branch m t args :: after ∧
    (∀ m' t' args', .branch m' t' args' ∈ before → t' ∈ boundNames ss) ∧ t ∉ boundNames ss ∧
    e = .undefinedLabel t (Int64.ofNat (ofStatements before).pc)

theorem assemble_of_clean {ss : List Statement} (h : Clean ss) :
    assemble ss = (settle (ofStatements ss).labels 0 ss).map List.toArray := by
  obtain ⟨hdraft, -⟩ := ofStatements_of_clean h
  have hresolve := resolve_eq_settle (ofStatements ss).labels h.sound []
  rw [assemble, hdraft]
  exact hresolve

theorem pc_of_clean {ss : List Statement} (h : Clean ss) :
    (ofStatements ss).pc = (ss.flatMap (·.encoding 0)).length := by
  obtain ⟨hdraft, -⟩ := ofStatements_of_clean h
  rw [hdraft]
  simp [Draft.pc]

/-- Assembling fails with the first fault or, where there is none, with the first label that nothing
binds. -/
theorem assemble_error_iff {ss : List Statement} {e : AssemblyError} :
    assemble ss = .error e ↔ FirstFault ss e ∨ Clean ss ∧ FirstUnbound ss e := by
  obtain ⟨hclean, hfirst⟩ := error_ofStatements ss
  cases herror : (ofStatements ss).error with
  | some e' =>
    have hnot : ¬ Clean ss := by
      intro h
      rw [hclean.mpr h] at herror
      cases herror
    rw [assemble, finish, herror, ← hfirst, herror]
    simp [hnot]
  | none =>
    have hss := hclean.mp herror
    have hno : ¬ FirstFault ss e := by
      intro h
      rw [(hfirst e).mpr h] at herror
      cases herror
    -- A clean list is assembled except for its targets, and these are settled from left to right.
    have hmap : assemble ss = .error e ↔ settle (ofStatements ss).labels 0 ss = .error e := by
      rw [assemble_of_clean hss]
      cases settle (ofStatements ss).labels 0 ss <;> simp [Except.map]
    rw [hmap, settle_error_iff]
    simp only [hno, hss, false_or, true_and, FirstUnbound, lookup_isSome]
    constructor
    · rintro ⟨before, m, t, args, after, rfl, hbefore, hnone, rfl⟩
      refine ⟨before, m, t, args, after, rfl, hbefore, ?_, ?_⟩
      · rw [← lookup_isSome, hnone]
        exact Bool.false_ne_true
      · rw [pc_of_clean hss.left, Nat.zero_add]
    · rintro ⟨before, m, t, args, after, rfl, hbefore, hunbound, rfl⟩
      refine ⟨before, m, t, args, after, rfl, hbefore, ?_, ?_⟩
      · exact Option.not_isSome_iff_eq_none.mp (mt (lookup_isSome _ t).mp hunbound)
      · rw [pc_of_clean hss.left, Nat.zero_add]

theorem clean_of_assemble {ss : List Statement} {code : Array UInt8} (h : assemble ss = .ok code) :
    Clean ss := by
  apply (error_ofStatements ss).1.mp
  cases herror : (ofStatements ss).error with
  | none => rfl
  | some e =>
    rw [assemble, finish, herror] at h
    cases h

theorem settle_of_assemble {ss : List Statement} {code : Array UInt8} (h : assemble ss = .ok code) :
    ∃ bs, settle (ofStatements ss).labels 0 ss = .ok bs ∧ bs.toArray = code := by
  rw [assemble_of_clean (clean_of_assemble h)] at h
  cases hsettle : settle (ofStatements ss).labels 0 ss with
  | error e =>
    rw [hsettle] at h
    cases h
  | ok bs =>
    rw [hsettle] at h
    exact ⟨bs, rfl, Except.ok.inj h⟩

/-- A branch of a program that was assembled goes to its label. -/
theorem branch_resolved {before after : List Statement} {m t : String} {args : List UInt64}
    {code : Array UInt8} (small : (ofStatements (before ++ .branch m t args :: after)).pc < 2 ^ 31)
    (h : assemble (before ++ .branch m t args :: after) = .ok code) :
    ∃ above below i, before ++ .branch m t args :: after = above ++ .label t :: below ∧
      decode code (Int64.ofNat (ofStatements before).pc) = .ok i ∧
      GoesTo i m args (ofStatements above).pc := by
  have hss := clean_of_assemble h
  have hbefore : Clean before := hss.left
  have hsize := pc_of_clean hss
  obtain ⟨bs, hbs, rfl⟩ := settle_of_assemble h
  have hlen := (settle_agrees hss.sound hbs).1
  obtain ⟨b₁, b, b₂, rfl, hlen₁, hb⟩ := settle_split hbefore.sound hbs
  obtain ⟨info, rs, k, hname, hbr, hfits⟩ := hss.sound (.branch m t args) (by simp)
  have hpc : (ofStatements before).pc = b₁.length := by
    rw [pc_of_clean hbefore, hlen₁]
  rw [Nat.zero_add, Statement.settled] at hb
  split at hb
  · cases hb
  next target htarget =>
    obtain rfl := Except.ok.inj hb
    obtain ⟨above, below, habove, rfl⟩ := label_of_lookup htarget
    -- The end of the branch and its label are both addresses of the program, which is small.
    have hlabel := pc_ofStatements_le above (.label t :: below)
    rw [← habove] at hlabel
    have hfull := fits_full hbr hfits ((Statement.branch m t args).filling b₁.length
      (ofStatements above).pc)
    have henc (v : UInt64) :
        (Statement.branch m t args).encoding v = info.encoding (args ++ [v]) := by
      rw [Statement.encoding, Line.encoding, hname, Option.elim_some]
    have hend :
        b₁.length + info.length ≤ (ofStatements (before ++ .branch m t args :: after)).pc := by
      rw [hsize, ← hlen, henc]
      simp only [List.length_append, length_encoding hfull]
      omega
    have hcode (v : UInt64) : (b₁ ++ (Statement.branch m t args).encoding v ++ b₂).toArray.toList =
        b₁ ++ info.encoding (args ++ [v]) ++ b₂ := by
      rw [henc]
    have hshort : (b₁ ++ (Statement.branch m t args).encoding ((Statement.branch m t args).filling
        b₁.length (ofStatements above).pc) ++ b₂).toArray.size < 2 ^ 63 := by
      rw [List.size_toArray, hlen, ← hsize]
      exact Nat.lt_trans small (by decide)
    have hdecode := decode_encoding (hcode _) hshort (byName_eq_some hname).1 hfull
    have hgoes := goesTo_of_fixup (t := t) hname hbr hfits (Nat.lt_of_le_of_lt hend small)
      (Nat.lt_of_le_of_lt hlabel small)
    rw [hpc]
    exact ⟨above, below, _, habove, hdecode, hgoes⟩

/-- In assembled code every label is resolved, as long as the addresses are below 2³¹. -/
theorem resolved_of_assemble {ss : List Statement} {code : Array UInt8}
    (small : (ofStatements ss).pc < 2 ^ 31) (h : assemble ss = .ok code) : Resolved ss code := by
  constructor
  · rintro before m t args after rfl
    exact branch_resolved small h
  · have hss := clean_of_assemble h
    obtain ⟨-, hzeroed⟩ := ofStatements_of_clean hss
    obtain ⟨bs, hbs, rfl⟩ := settle_of_assemble h
    obtain ⟨hlen, hdiff⟩ := settle_agrees hss.sound hbs
    refine ⟨(ss.flatMap (·.encoding 0)).toArray, ?_, by simp [hlen], ?_⟩
    · rw [assemble, hzeroed]
      rfl
    · intro p hp
      simp only [List.getElem?_toArray] at hp
      obtain ⟨before, m, t, args, after, rfl, hfield⟩ := hdiff p hp
      refine ⟨before, m, t, args, after, rfl, ?_⟩
      have hprefix : Clean (before ++ [.branch m t args]) := by
        rw [← List.singleton_append, ← List.append_assoc] at hss
        exact hss.left
      rw [pc_of_clean hprefix]
      exact hfield

/-! ## Sessions -/

/-- What can be asked of a draft. -/
inductive Request where
  | add (s : Statement)
  | pc
  | bytes
deriving DecidableEq

inductive Answer where
  | done
  | address (pc : Nat)
  | program (result : Except AssemblyError (Array UInt8))

/-- Answers one request. The program is assembled from a copy of the code. -/
def Draft.serve (d : Draft) : Request → Draft × Answer
  | .add s => (d.add s, .done)
  | .pc => (d, .address d.pc)
  | .bytes => (d, .program d.finish)

def session (rs : List Request) : Draft := rs.foldl (fun d r => (d.serve r).1) {}

/-- The program of a session can be taken at any time without a trace. -/
theorem session_filter (rs : List Request) : session rs = session (rs.filter (· ≠ .bytes)) := by
  unfold session
  generalize ({} : Draft) = d
  induction rs generalizing d with
  | nil => rfl
  | cons r rs ih =>
    cases r with
    | bytes => exact ih d
    | add s => exact ih (d.add s)
    | pc => exact ih d

/-- Assembly reports the first thing that is wrong with a statement, then the first branch to a
label that is never bound, and fails for no other reason. Otherwise every branch goes to its label,
the rest of the code is that of the statements with zeros for labels, and taking the program early
changes no later answer. -/
theorem assembly_resolves_labels (ss : List Statement) (small : (ofStatements ss).pc < 2 ^ 31) :
    (∀ e, assemble ss = .error e ↔ FirstFault ss e ∨ Clean ss ∧ FirstUnbound ss e) ∧
    ((∃ e, assemble ss = .error e) ↔
      (∃ before s after e, ss = before ++ s :: after ∧ Faulty (boundNames before) s e) ∨
      ∃ m t args, .branch m t args ∈ ss ∧ t ∉ boundNames ss) ∧
    (∀ code, assemble ss = .ok code → Resolved ss code) ∧
    ∀ rs r, ((session rs).serve r).2 = ((session (rs.filter (· ≠ .bytes))).serve r).2 := by
  refine ⟨fun e => assemble_error_iff, ⟨?_, ?_⟩, fun code => resolved_of_assemble small, ?_⟩
  · rintro ⟨e, he⟩
    rcases assemble_error_iff.mp he with ⟨before, s, after, hsplit, -, hfault⟩ |
      ⟨-, before, m, t, args, after, rfl, -, hunbound, -⟩
    · exact .inl ⟨before, s, after, e, hsplit, hfault⟩
    · exact .inr ⟨m, t, args, by simp, hunbound⟩
  · intro hwrong
    cases hss : assemble ss with
    | error e => exact ⟨e, rfl⟩
    | ok code =>
      have hresolved := resolved_of_assemble small hss
      rcases hwrong with ⟨before, s, after, e, hsplit, hfault⟩ | ⟨m, t, args, hmem, hunbound⟩
      · exact absurd hfault (clean_of_assemble hss before s after hsplit e)
      · obtain ⟨before, after, hsplit⟩ := List.append_of_mem hmem
        obtain ⟨above, below, -, rfl, -⟩ := hresolved.branches before m t args after hsplit
        simp [boundNames] at hunbound
  · intro rs r
    rw [← session_filter]

/-! ### A loop and a jump behind it -/

/-- A jump back and a jump forward over a byte of data. -/
def loopAndLeave : List Statement :=
  [.label "top", .emit loadImm.name [3, 7], .branch jumpRel.name "top" [],
    .branch jumpRel.name "end" [], .raw [1], .label "end"]

def loopAndLeaveCode : Array UInt8 :=
  #[9, 0, 3, 7, 0, 0, 0, 130, 1, 0xf3, 0xff, 0xff, 0xff, 130, 1, 1, 0, 0, 0, 1]

section Lines

variable (code : Array UInt8) (labels : List (String × Nat)) (fs : List Fixup)

theorem add_loadImm : (⟨code, labels, fs, none⟩ : Draft).add (.emit loadImm.name [3, 7]) =
    ⟨code ++ #[9, 0, 3, 7, 0, 0, 0], labels, fs, none⟩ := by
  have hadd := add_of_sound (d := ⟨code, labels, fs, none⟩) (s := .emit loadImm.name [3, 7]) rfl
    ⟨loadImm, byName_name loadImm_mem_table, .cons (by decide) (.cons (by decide) .nil)⟩ nofun
  rw [hadd, Statement.encoding, Line.encoding, byName_name loadImm_mem_table]
  simp only [Statement.labels, Statement.fixups, List.append_nil, List.nil_append]
  rfl

theorem add_jumpRel (t : String) :
    (⟨code, labels, fs, none⟩ : Draft).add (.branch jumpRel.name t []) =
      ⟨code ++ #[130, 1, 0, 0, 0, 0], labels,
        fs ++ [⟨code.size + 2, code.size, code.size + 6, .disp, t⟩], none⟩ := by
  have hname := byName_name jumpRel_mem_table
  have hbr : jumpRel.Branches [] .disp := ⟨rfl, rfl, nofun⟩
  have hadd := add_of_sound (d := ⟨code, labels, fs, none⟩) (s := .branch jumpRel.name t []) rfl
    ⟨jumpRel, [], .disp, hname, hbr, .nil⟩ nofun
  rw [hadd, fixups_branch hname hbr, Statement.encoding, Line.encoding, hname]
  rfl

end Lines

theorem ofStatements_loopAndLeave : ofStatements loopAndLeave =
    ⟨#[9, 0, 3, 7, 0, 0, 0, 130, 1, 0, 0, 0, 0, 130, 1, 0, 0, 0, 0, 1], [("end", 20), ("top", 0)],
      [⟨9, 7, 13, .disp, "top"⟩, ⟨15, 13, 19, .disp, "end"⟩], none⟩ := by
  have start : ({} : Draft).add (.label "top") = ⟨#[], [("top", 0)], [], none⟩ := by
    simp [add, label, Draft.pc]
  simp only [loopAndLeave, ofStatements, List.foldl_cons, List.foldl_nil, start, add_loadImm,
    add_jumpRel]
  simp [add, raw, label, Draft.pc, List.lookup_cons]

/-- A jump back and a jump to the end, each with the distance that it should have. -/
theorem assembly_resolves_labels_loopAndLeave :
    (ofStatements loopAndLeave).pc < 2 ^ 31 ∧ Resolved loopAndLeave loopAndLeaveCode := by
  have small : (ofStatements loopAndLeave).pc < 2 ^ 31 := by
    rw [ofStatements_loopAndLeave]
    decide
  refine ⟨small, (assembly_resolves_labels loopAndLeave small).2.2.1 _ ?_⟩
  rw [assemble, ofStatements_loopAndLeave]
  rfl

end BlockVM.Isa
