import BlockVM.Proofs.Isa.RoundTrip
import Mathlib.Data.List.Induction

/-!
# Drafts

`Faulty` says what can be wrong with a statement that stands behind others: an inductive statement
of every error, next to the functions that look for them. A statement that nothing is wrong with is
`Sound`, and adds its encoding to a draft, with zeros where a label is missing (`add_of_sound`); of
any other the error is kept (`add_of_faulty`). By induction over a program its draft has the error
of its first faulty statement (`error_ofStatements`), and without one it is the encodings of the
statements in a row (`ofStatements_of_clean`).
-/

namespace BlockVM.Isa

open LittleEndian Draft

/-! ## Instructions that take labels -/

/-- The slots of an instruction that no label fills. -/
def Info.given (info : Info) : List Kind := info.kinds.filter (!takesLabel ·)

/-- The instruction has one slot that a label fills, behind registers. -/
structure Info.Branches (info : Info) (rs : List Kind) (k : Kind) : Prop where
  kinds : info.kinds = rs ++ [k]
  takes : takesLabel k = true
  registers : ∀ r ∈ rs, r = .reg

/-- In every definition at most the last operand takes a label; in front of it there is at most one
register. -/
theorem label_slots : ∀ d ∈ definitions, (∀ k ∈ d.slots.map (·.kind), takesLabel k = false) ∨
    ∃ rs ∈ [[], [Kind.reg]], ∃ k ∈ [Kind.addr, Kind.disp], d.slots.map (·.kind) = rs ++ [k] := by
  decide +kernel

/-- An entry of the table branches, or none of its operands takes a label. -/
theorem branches_or_plain {info : Info} (h : info ∈ table) :
    (∃ rs k, info.Branches rs k) ∨ ∀ k ∈ info.kinds, takesLabel k = false := by
  obtain ⟨op, d, hd, rfl⟩ := mem_table_iff.mp h
  rcases label_slots d (List.mem_of_getElem? hd) with hplain | ⟨rs, hrs, k, hk, hkinds⟩
  · exact .inr hplain
  · refine .inl ⟨rs, k, hkinds, ?_, ?_⟩
    · rcases List.mem_pair.mp hk with rfl | rfl <;> rfl
    · intro r hr
      rcases List.mem_pair.mp hrs with rfl | rfl <;> simp_all

namespace Info.Branches

variable {info : Info} {rs : List Kind} {k : Kind}

theorem plain (h : info.Branches rs k) : ∀ r ∈ rs, takesLabel r = false := by
  intro r hr
  rw [h.registers r hr]
  rfl

/-- The operands that are given with a label are those in front of it. -/
theorem given_eq (h : info.Branches rs k) : info.given = rs := by
  have hrs : rs.filter (!takesLabel ·) = rs := List.filter_eq_self.mpr (by simpa using h.plain)
  rw [Info.given, h.kinds, List.filter_append, hrs]
  simp [h.takes]

theorem size_eq (h : info.Branches rs k) : k.size = 4 := by
  have htakes := h.takes
  cases k <;> first | rfl | cases htakes

end Info.Branches

theorem given_of_plain {info : Info} (h : ∀ k ∈ info.kinds, takesLabel k = false) :
    info.given = info.kinds :=
  List.filter_eq_self.mpr (by simpa using h)

/-- Operands are given to the slots in front of a label in order, until none is left. -/
theorem spread_append {ks : List Kind} (h : ∀ k ∈ ks, takesLabel k = false) (tail : List Kind)
    (i : Nat) (args : List UInt64) :
    spread (ks ++ tail) i args =
      if args.length < ks.length then .error (i + args.length)
      else (spread tail (i + ks.length) (args.drop ks.length)).map
        fun r => (args.take ks.length ++ r.1, r.2) := by
  induction ks generalizing i args with
  | nil =>
    simp only [List.nil_append, List.length_nil, Nat.not_lt_zero, if_false, Nat.add_zero,
      List.drop_zero, List.take_zero]
    cases spread tail i args <;> rfl
  | cons k ks ih =>
    obtain ⟨hk, hks⟩ := List.forall_mem_cons.mp h
    cases args with
    | nil => simp [spread, hk]
    | cons v args =>
      have hindex : i + 1 + args.length = i + (args.length + 1) ∧
          i + 1 + ks.length = i + (ks.length + 1) := by omega
      simp only [List.cons_append, spread, hk, Bool.false_eq_true, if_false, ih hks,
        List.length_cons, Nat.add_lt_add_iff_right, List.drop_succ_cons, List.take_succ_cons,
        hindex.1, hindex.2]
      split
      · rfl
      · cases spread tail (i + (ks.length + 1)) (args.drop ks.length) <;> rfl

/-- The given operands come first, then a zero where the label will go. -/
theorem spread_of_branches {info : Info} {rs : List Kind} {k : Kind} (h : info.Branches rs k)
    {args : List UInt64} (henough : rs.length ≤ args.length) :
    spread info.kinds 0 args = .ok (args.take rs.length ++ [0], args.drop rs.length) := by
  rw [h.kinds, spread_append h.plain, if_neg (by omega)]
  simp [spread, h.takes, Except.map, bind, Except.bind, pure, Except.pure]

/-- The search for the slot of the label passes every operand that takes none. -/
theorem labelSlot_go_plain {ks : List Kind} (h : ∀ k ∈ ks, takesLabel k = false) (tail : List Kind)
    (off : Nat) (found : Option (Kind × Nat)) :
    labelSlot.go (ks ++ tail) off found =
      labelSlot.go tail (off + (ks.map Kind.size).sum) found := by
  induction ks generalizing off with
  | nil => rfl
  | cons k ks ih =>
    obtain ⟨hk, hks⟩ := List.forall_mem_cons.mp h
    simp [labelSlot.go, hk, ih hks, Nat.add_assoc]

theorem labelSlot_of_plain {info : Info} (h : ∀ k ∈ info.kinds, takesLabel k = false) :
    labelSlot info.kinds = none := by
  have hgo := labelSlot_go_plain h [] opcodeSize none
  rw [List.append_nil] at hgo
  exact hgo

theorem labelSlot_of_branches {info : Info} {rs : List Kind} {k : Kind} (h : info.Branches rs k) :
    labelSlot info.kinds = some (k, opcodeSize + (rs.map Kind.size).sum) := by
  rw [labelSlot, h.kinds, labelSlot_go_plain h.plain]
  simp [labelSlot.go, h.takes]

/-! ## Faults -/

/-- A register operand `v` that does not fit, the first one. -/
def Oversized (ks : List Kind) (vs : List UInt64) (v : UInt64) : Prop :=
  ∃ ks₁ vs₁ k ks₂ vs₂, ks = ks₁ ++ k :: ks₂ ∧ vs = vs₁ ++ v :: vs₂ ∧
    List.Forall₂ Kind.Fits ks₁ vs₁ ∧ ¬ k.Fits v

/-- What is wrong with a statement behind others that bind the labels `bound`. -/
inductive Faulty (bound : List String) : Statement → AssemblyError → Prop where
  | labelTwice {name : String} : name ∈ bound → Faulty bound (.label name) (.labelTwice name)
  | unknown {m : String} {args : List UInt64} : byName m = none →
      Faulty bound (.emit m args) (.unknownMnemonic m)
  | operandCount {m : String} {args : List UInt64} {info : Info} : byName m = some info →
      args.length ≠ info.kinds.length →
      Faulty bound (.emit m args) (.operandCount m info.kinds.length args.length)
  | register {m : String} {args : List UInt64} {info : Info} {v : UInt64} : byName m = some info →
      args.length = info.kinds.length → Oversized info.kinds args v →
      Faulty bound (.emit m args) (.registerRange m v)
  | unknownBranch {m t : String} {args : List UInt64} : byName m = none →
      Faulty bound (.branch m t args) (.unknownMnemonic m)
  | missingOperand {m t : String} {args : List UInt64} {info : Info} : byName m = some info →
      args.length < info.given.length →
      Faulty bound (.branch m t args) (.missingOperand m args.length)
  | notABranch {m t : String} {args : List UInt64} {info : Info} : byName m = some info →
      info.given.length ≤ args.length →
      info.given.length < args.length ∨ (∀ k ∈ info.kinds, takesLabel k = false) →
      Faulty bound (.branch m t args) (.notABranch m)
  | branchRegister {m t : String} {args : List UInt64} {info : Info} {v : UInt64} :
      byName m = some info → (∃ k ∈ info.kinds, takesLabel k = true) →
      args.length = info.given.length → Oversized info.given args v →
      Faulty bound (.branch m t args) (.registerRange m v)

def boundNames (ss : List Statement) : List String :=
  ss.filterMap fun s => match s with
    | .label name => some name
    | _ => none

def Clean (ss : List Statement) : Prop :=
  ∀ before s after, ss = before ++ s :: after → ∀ e, ¬ Faulty (boundNames before) s e

/-- `e` is wrong with the first statement that something is wrong with. -/
def FirstFault (ss : List Statement) (e : AssemblyError) : Prop :=
  ∃ before s after, ss = before ++ s :: after ∧ Clean before ∧ Faulty (boundNames before) s e

/-- A place in a list with one more element is the last one or lies in the list. -/
theorem split_concat {α : Type} {xs before after : List α} {x y : α}
    (h : xs ++ [x] = before ++ y :: after) :
    before = xs ∧ y = x ∧ after = [] ∨
      ∃ after', xs = before ++ y :: after' ∧ after = after' ++ [x] := by
  rcases List.eq_nil_or_concat after with rfl | ⟨after', z, rfl⟩
  · obtain ⟨rfl, hy⟩ := List.append_inj' h rfl
    cases hy
    exact .inl ⟨rfl, rfl, rfl⟩
  · rw [List.concat_eq_append, ← List.cons_append, ← List.append_assoc] at h
    obtain ⟨rfl, hz⟩ := List.append_inj' h rfl
    cases hz
    exact .inr ⟨after', rfl, List.concat_eq_append⟩

theorem clean_nil : Clean [] := by
  intro before s after h
  simp at h

/-- Statements are clean if those before the last are and the last is not at fault. -/
theorem clean_concat {ss : List Statement} {s : Statement} :
    Clean (ss ++ [s]) ↔ Clean ss ∧ ∀ e, ¬ Faulty (boundNames ss) s e := by
  constructor
  · intro h
    refine ⟨?_, h ss s [] rfl⟩
    rintro before x after rfl
    exact h before x (after ++ [s]) (by simp)
  · rintro ⟨h, hs⟩ before x after hsplit
    rcases split_concat hsplit with ⟨rfl, rfl, -⟩ | ⟨after', hsplit, -⟩
    · exact hs
    · exact h before x after' hsplit

theorem Clean.left {ss tt : List Statement} (h : Clean (ss ++ tt)) : Clean ss := by
  rintro before s after rfl
  exact h before s (after ++ tt) (by simp)

/-- The first fault is that of the statements before the last, or else of the last. -/
theorem firstFault_concat {ss : List Statement} {s : Statement} {e : AssemblyError} :
    FirstFault (ss ++ [s]) e ↔ FirstFault ss e ∨ Clean ss ∧ Faulty (boundNames ss) s e := by
  constructor
  · rintro ⟨before, x, after, hsplit, hclean, hfault⟩
    rcases split_concat hsplit with ⟨rfl, rfl, -⟩ | ⟨after', hsplit, -⟩
    · exact .inr ⟨hclean, hfault⟩
    · exact .inl ⟨before, x, after', hsplit, hclean, hfault⟩
  · rintro (⟨before, x, after, rfl, hclean, hfault⟩ | ⟨hclean, hfault⟩)
    · exact ⟨before, x, after ++ [s], by simp, hclean, hfault⟩
    · exact ⟨ss, s, [], rfl, hclean, hfault⟩

/-! ## One statement -/

def Statement.Sound : Statement → Prop
  | .emit m args => Line.Accepted (m, args)
  | .branch m _ args =>
    ∃ info rs k, byName m = some info ∧ info.Branches rs k ∧ List.Forall₂ Kind.Fits rs args
  | .label _ | .raw _ => True

/-- The bytes of a statement, with `v` where a label is missing. -/
def Statement.encoding (v : UInt64) : Statement → List UInt8
  | .emit m args => Line.encoding (m, args)
  | .branch m _ args => Line.encoding (m, args ++ [v])
  | .label _ => []
  | .raw bytes => bytes

/-- The field that a statement at `pos` leaves to a label. -/
def Statement.fixups (pos : Nat) : Statement → List Fixup
  | .branch m t _ => (byName m).elim [] fun info =>
    ((labelSlot info.kinds).map fun slot =>
      (⟨pos + slot.2, pos, pos + info.length, slot.1, t⟩ : Fixup)).toList
  | _ => []

def Statement.labels (pos : Nat) : Statement → List (String × Nat)
  | .label name => [(name, pos)]
  | _ => []

/-- Operands fit their kinds, or one of them is too large. -/
theorem fits_or_oversized {ks : List Kind} {vs : List UInt64} (h : vs.length = ks.length) :
    List.Forall₂ Kind.Fits ks vs ∨ ∃ v, Oversized ks vs v := by
  induction ks generalizing vs with
  | nil =>
    rw [List.length_nil, List.length_eq_zero_iff] at h
    exact .inl (h ▸ .nil)
  | cons k ks ih =>
    obtain ⟨v, vs, rfl⟩ :=
      List.exists_cons_of_length_pos (l := vs) (by rw [h]; exact Nat.succ_pos _)
    by_cases hfit : k.Fits v
    · rcases ih (Nat.succ.inj h) with hfits | ⟨w, ks₁, vs₁, k', ks₂, vs₂, rfl, rfl, hfits, hbad⟩
      · exact .inl (.cons hfit hfits)
      · exact .inr ⟨w, k :: ks₁, v :: vs₁, k', ks₂, vs₂, rfl, rfl, .cons hfit hfits, hbad⟩
    · exact .inr ⟨v, [], [], k, ks, vs, rfl, rfl, .nil, hfit⟩

/-- The first register number that does not fit is reported, whatever operands follow. -/
theorem operandBytes_of_oversized (m : String) {ks : List Kind} {vs : List UInt64} {v : UInt64}
    (h : Oversized ks vs v) (ks' : List Kind) (vs' : List UInt64) :
    (operandBytes m (ks ++ ks') (vs ++ vs')).2 = some (.registerRange m v) := by
  obtain ⟨ks₁, vs₁, k, ks₂, vs₂, rfl, rfl, hfits, hbad⟩ := h
  have hstop : (k.namesRegister && decide (0xff < v)) = true := by
    simpa [Kind.Fits] using hbad
  induction hfits with
  | nil => simp [operandBytes, hstop]
  | @cons k' v' ks₁ vs₁ hfit _ ih =>
    have hpass : (k'.namesRegister && decide (0xff < v')) = false := by
      simpa [Kind.Fits] using hfit
    simpa [operandBytes, hpass] using ih

/-- A statement is sound and binds no bound name, or something is wrong with it. -/
theorem sound_or_faulty (bound : List String) (s : Statement) :
    s.Sound ∧ (∀ name, s = .label name → name ∉ bound) ∨ ∃ e, Faulty bound s e := by
  cases s with
  | emit m args =>
    cases hname : byName m with
    | none => exact .inr ⟨_, .unknown hname⟩
    | some info =>
      by_cases hcount : args.length = info.kinds.length
      · rcases fits_or_oversized hcount with hfits | ⟨v, hbad⟩
        · exact .inl ⟨⟨info, hname, hfits⟩, nofun⟩
        · exact .inr ⟨_, .register hname hcount hbad⟩
      · exact .inr ⟨_, .operandCount hname hcount⟩
  | label name =>
    by_cases hbound : name ∈ bound
    · exact .inr ⟨_, .labelTwice hbound⟩
    · refine .inl ⟨trivial, ?_⟩
      rintro name ⟨⟩
      exact hbound
  | branch m t args =>
    cases hname : byName m with
    | none => exact .inr ⟨_, .unknownBranch hname⟩
    | some info =>
      -- A branch may lack operands, have as many as it takes beside the target, or have too many.
      rcases Nat.lt_trichotomy args.length info.given.length with hfew | hcount | hmany
      · exact .inr ⟨_, .missingOperand hname hfew⟩
      · rcases branches_or_plain (byName_eq_some hname).1 with ⟨rs, k, hbr⟩ | hplain
        · rcases fits_or_oversized hcount with hfits | ⟨v, hbad⟩
          · exact .inl ⟨⟨info, rs, k, hname, hbr, hbr.given_eq ▸ hfits⟩, nofun⟩
          · have htakes : ∃ k ∈ info.kinds, takesLabel k = true :=
              ⟨k, by simp [hbr.kinds], hbr.takes⟩
            exact .inr ⟨_, .branchRegister hname htakes hcount hbad⟩
        · exact .inr ⟨_, .notABranch hname (Nat.le_of_eq hcount.symm) (.inr hplain)⟩
      · exact .inr ⟨_, .notABranch hname (Nat.le_of_lt hmany) (.inl hmany)⟩
  | raw bytes => exact .inl ⟨trivial, nofun⟩

/-! ## One step of a draft -/

section Step

variable {d : Draft} {s : Statement}

theorem encode_eq (d : Draft) (info : Info) (args : List UInt64) :
    d.encode info args =
      { d with
        code := d.code ++ (bytes opcodeSize info.op ++
          (operandBytes info.name info.kinds args).1).toArray
        error := d.error.or (operandBytes info.name info.kinds args).2 } := by
  unfold encode
  rcases operandBytes info.name info.kinds args with ⟨fields, _ | e⟩
  · simp
  · simp only [fail]
    cases h : d.error <;> rfl

section Known

variable {m : String} {info : Info}

/-- A draft with a fault takes no further statements. -/
theorem emit_of_error {e : AssemblyError} (hd : d.error = some e) (m : String)
    (args : List UInt64) : d.emit m args = d := by
  unfold emit
  rw [hd]

theorem branch_of_error {e : AssemblyError} (hd : d.error = some e) (m t : String)
    (args : List UInt64) : d.branch m t args = d := by
  unfold branch
  rw [hd]

/-- An emitted instruction is encoded if the number of its operands is right. -/
theorem emit_of_known (hd : d.error = none) (hname : byName m = some info) (args : List UInt64) :
    d.emit m args = if args.length = info.kinds.length then d.encode info args
      else d.fail (.operandCount m info.kinds.length args.length) := by
  unfold emit
  rw [hd]
  generalize byName m = known at hname
  subst hname
  rfl

theorem emit_of_unknown (hd : d.error = none) (hname : byName m = none) (args : List UInt64) :
    d.emit m args = d.fail (.unknownMnemonic m) := by
  unfold emit
  rw [hd]
  generalize byName m = known at hname
  subst hname
  rfl

/-- A branch spreads its operands around the slot of the label and records a fixup. -/
theorem branch_of_known (hd : d.error = none) (hname : byName m = some info) (t : String)
    (args : List UInt64) :
    d.branch m t args = match spread info.kinds 0 args with
      | .error slot => d.fail (.missingOperand m slot)
      | .ok (full, left) =>
        match labelSlot info.kinds, left with
        | some (kind, off), [] =>
          { d.encode info full with
            fixups := (d.encode info full).fixups ++
              [⟨d.pc + off, d.pc, d.pc + info.length, kind, t⟩] }
        | _, _ => d.fail (.notABranch m) := by
  unfold branch
  rw [hd]
  generalize byName m = known at hname
  subst hname
  rfl

theorem branch_of_unknown (hd : d.error = none) (hname : byName m = none) (t : String)
    (args : List UInt64) : d.branch m t args = d.fail (.unknownMnemonic m) := by
  unfold branch
  rw [hd]
  generalize byName m = known at hname
  subst hname
  rfl

end Known

/-- Instructions change no labels. -/
theorem emit_shape (d : Draft) (m : String) (args : List UInt64) :
    ∃ tail e, d.emit m args = ⟨d.code ++ tail, d.labels, d.fixups, e⟩ := by
  have hfail (e : AssemblyError) : ∃ tail e',
      d.fail e = ⟨d.code ++ tail, d.labels, d.fixups, e'⟩ := by
    unfold fail
    split
    · exact ⟨#[], some e, by simp⟩
    · exact ⟨#[], d.error, by simp⟩
  cases hd : d.error with
  | some e => exact ⟨#[], d.error, by simp [emit_of_error hd]⟩
  | none =>
    cases hname : byName m with
    | none =>
      rw [emit_of_unknown hd hname]
      exact hfail _
    | some info =>
      rw [emit_of_known hd hname]
      split
      · exact ⟨_, _, encode_eq _ _ _⟩
      · exact hfail _

/-- A branch adds to the code and to the fixups and touches nothing else. -/
theorem branch_shape (d : Draft) (m t : String) (args : List UInt64) :
    ∃ tail fs e, d.branch m t args = ⟨d.code ++ tail, d.labels, d.fixups ++ fs, e⟩ := by
  -- A draft keeps its first error and its code when another step fails.
  have hfail (e : AssemblyError) :
      ∃ tail fs e', d.fail e = ⟨d.code ++ tail, d.labels, d.fixups ++ fs, e'⟩ := by
    unfold fail
    split
    · exact ⟨#[], [], some e, by simp⟩
    · exact ⟨#[], [], d.error, by simp⟩
  cases hd : d.error with
  | some e => exact ⟨#[], [], d.error, by simp [branch_of_error hd]⟩
  | none =>
    cases hname : byName m with
    | none =>
      rw [branch_of_unknown hd hname]
      exact hfail _
    | some info =>
      rw [branch_of_known hd hname]
      split
      · exact hfail _
      · split
        · rw [encode_eq]
          exact ⟨_, _, _, rfl⟩
        · exact hfail _

/-- The code only grows. -/
theorem pc_add_le (d : Draft) (s : Statement) : d.pc ≤ (d.add s).pc := by
  have grown {d' : Draft} {tail : Array UInt8} (h : d'.code = d.code ++ tail) : d.pc ≤ d'.pc := by
    rw [Draft.pc, Draft.pc, h, Array.size_append]
    exact Nat.le_add_right _ _
  cases s with
  | emit m args =>
    obtain ⟨tail, e, h⟩ := emit_shape d m args
    exact grown (congrArg Draft.code h)
  | label name =>
    have same : (d.label name).code = d.code := by
      unfold label fail
      repeat' split
      all_goals rfl
    exact Nat.le_of_eq (congrArg Array.size same).symm
  | branch m t args =>
    obtain ⟨tail, fs, e, h⟩ := branch_shape d m t args
    exact grown (congrArg Draft.code h)
  | raw bytes => exact @grown _ bytes.toArray rfl

/-- A name that is bound stays bound to the same address. -/
theorem lookup_add (d : Draft) (s : Statement) (name : String) :
    (d.add s).labels.lookup name = (d.labels.lookup name).or ((s.labels d.pc).lookup name) := by
  cases s with
  | emit m args =>
    obtain ⟨tail, e, h⟩ := emit_shape d m args
    simp [add, h, Statement.labels]
  | label n =>
    by_cases hn : name = n
    · subst hn
      cases hfound : d.labels.lookup name with
      | none => simp [add, label, hfound, Statement.labels]
      | some a =>
        have hlabels : (d.fail (.labelTwice name)).labels = d.labels := by
          unfold fail
          split <;> rfl
        simp [add, label, hfound, hlabels]
    -- Another label is found or not as before, whether binding this one fails or not.
    · have hne : (name == n) = false := by simpa using hn
      have hlabels (e : AssemblyError) : (d.fail e).labels = d.labels := by
        unfold fail
        split <;> rfl
      simp only [add, label]
      split <;> simp [hlabels, Statement.labels, List.lookup_cons, hne]
  | branch m t args =>
    obtain ⟨tail, fs, e, h⟩ := branch_shape d m t args
    simp [add, h, Statement.labels]
  | raw bytes => simp [add, raw, Statement.labels]

/-- The first error stays. -/
theorem error_add {e : AssemblyError} (h : d.error = some e) (s : Statement) :
    (d.add s).error = some e := by
  have hfail (e' : AssemblyError) : d.fail e' = d := by
    unfold fail
    rw [h]
  cases s with
  | emit m args => simp [add, emit, h]
  | label name =>
    simp only [add, label]
    split
    · rw [hfail, h]
    · exact h
  | branch m t args => simp [add, branch, h]
  | raw bytes => exact h

/-- With any value in the slot of the label the operands of a branch fit. -/
theorem fits_full {info : Info} {rs : List Kind} {k : Kind} {args : List UInt64}
    (hbr : info.Branches rs k) (hfits : List.Forall₂ Kind.Fits rs args) (v : UInt64) :
    List.Forall₂ Kind.Fits info.kinds (args ++ [v]) := by
  rw [hbr.kinds]
  refine List.rel_append hfits (.cons ?_ .nil)
  have htakes := hbr.takes
  intro hreg
  cases k <;> first | exact absurd htakes (by decide) | exact absurd hreg (by decide)

/-- What a statement adds when nothing is wrong with it. -/
theorem add_of_sound (hd : d.error = none) (hs : s.Sound)
    (fresh : ∀ name, s = .label name → d.labels.lookup name = none) :
    d.add s = ⟨d.code ++ (s.encoding 0).toArray, s.labels d.pc ++ d.labels,
      d.fixups ++ s.fixups d.pc, none⟩ := by
  cases s with
  | emit m args =>
    have hemit := emit_of_accepted (l := (m, args)) hs hd
    simp [add, hemit, Statement.labels, Statement.fixups, Statement.encoding, hd]
  | label name => simp [add, label, fresh name rfl, Statement.labels, Statement.fixups,
      Statement.encoding, hd]
  | branch m t args =>
    obtain ⟨info, rs, k, hname, hbr, hfits⟩ := hs
    have hlen := hfits.length_eq
    have hspread := spread_of_branches hbr (Nat.le_of_eq hlen)
    rw [hlen, List.take_length, List.drop_length] at hspread
    have hfull := fits_full hbr hfits 0
    simp only [add, branch_of_known hd hname, hspread, labelSlot_of_branches hbr,
      encode_of_fits d hfull]
    simp [Statement.labels, Statement.fixups, Statement.encoding, Line.encoding, hname,
      labelSlot_of_branches hbr, hd]
  | raw bytes => simp [add, raw, Statement.labels, Statement.fixups, Statement.encoding, hd]

/-- A faulty statement is noted with the fault that it has: one case for each way to be at fault. -/
theorem add_of_faulty {bound : List String} {e : AssemblyError} (hd : d.error = none)
    (hbound : ∀ name, (d.labels.lookup name).isSome ↔ name ∈ bound) (h : Faulty bound s e) :
    (d.add s).error = some e := by
  have hfail (e : AssemblyError) : (d.fail e).error = some e := by
    unfold fail
    rw [hd]
  cases h with
  | labelTwice hmem => simp [add, label, (hbound _).mpr hmem, hfail]
  | unknown hname => simp [add, emit_of_unknown hd hname, hfail]
  | operandCount hname hcount => simp [add, emit_of_known hd hname, hcount, hfail]
  | @register m args info v hname hcount hbad =>
    have hstop := operandBytes_of_oversized info.name hbad [] []
    rw [List.append_nil, List.append_nil, (byName_eq_some hname).2] at hstop
    simp [add, emit_of_known hd hname, hcount, encode_eq, hd, hstop, (byName_eq_some hname).2]
  | unknownBranch hname => simp [add, branch_of_unknown hd hname, hfail]
  | @missingOperand m t args info hname hfew =>
    -- The slots that are given stand in front of the slot of the label, if there is one.
    have hspread : spread info.kinds 0 args = .error args.length := by
      rcases branches_or_plain (byName_eq_some hname).1 with ⟨rs, k, hbr⟩ | hplain
      · rw [hbr.given_eq] at hfew
        rw [hbr.kinds, spread_append hbr.plain, if_pos hfew, Nat.zero_add]
      · rw [given_of_plain hplain] at hfew
        have hnone := spread_append hplain [] 0 args
        rwa [List.append_nil, if_pos hfew, Nat.zero_add] at hnone
    simp [add, branch_of_known hd hname, hspread, hfail]
  | @notABranch m t args info hname henough hwrong =>
    rcases branches_or_plain (byName_eq_some hname).1 with ⟨rs, k, hbr⟩ | hplain
    · rw [hbr.given_eq] at henough hwrong
      have hmany : rs.length < args.length := by
        rcases hwrong with hmany | hplain
        · exact hmany
        · have := hplain k (by simp [hbr.kinds])
          simp [hbr.takes] at this
      have hspread := spread_of_branches hbr henough
      obtain ⟨v, vs, hleft⟩ := List.exists_cons_of_length_pos (l := args.drop rs.length)
        (by rw [List.length_drop]; omega)
      rw [hleft] at hspread
      simp [add, branch_of_known hd hname, hspread, labelSlot_of_branches hbr, hfail]
    · have hslot := labelSlot_of_plain hplain
      rw [given_of_plain hplain] at henough
      have hspread := spread_append hplain [] 0 args
      rw [List.append_nil, if_neg (by omega)] at hspread
      simp only [spread, Except.map] at hspread
      simp [add, branch_of_known hd hname, hspread, hslot, hfail]
  | @branchRegister m t args info v hname htakes hcount hbad =>
    rcases branches_or_plain (byName_eq_some hname).1 with ⟨rs, k, hbr⟩ | hplain
    · rw [hbr.given_eq] at hcount hbad
      have hspread := spread_of_branches hbr (Nat.le_of_eq hcount.symm)
      rw [← hcount, List.take_length, List.drop_length] at hspread
      have hstop := operandBytes_of_oversized info.name hbad [k] [0]
      rw [← hbr.kinds, (byName_eq_some hname).2] at hstop
      simp [add, branch_of_known hd hname, hspread, labelSlot_of_branches hbr, encode_eq,
        hd, (byName_eq_some hname).2, hstop]
    · obtain ⟨k, hk, htakes⟩ := htakes
      rw [hplain k hk] at htakes
      cases htakes

end Step

/-! ## The draft of a program -/

theorem ofStatements_concat (ss : List Statement) (s : Statement) :
    ofStatements (ss ++ [s]) = (ofStatements ss).add s := by
  simp [ofStatements]

theorem pc_ofStatements_le (ss tt : List Statement) :
    (ofStatements ss).pc ≤ (ofStatements (ss ++ tt)).pc := by
  induction tt using List.reverseRecOn with
  | nil => simp
  | append_singleton tt t ih =>
    rw [← List.append_assoc, ofStatements_concat]
    exact Nat.le_trans ih (pc_add_le _ t)

theorem boundNames_concat (ss : List Statement) (s : Statement) :
    boundNames (ss ++ [s]) = boundNames ss ++ boundNames [s] := by
  simp [boundNames]

/-- A name has an address as soon as a label binds it. -/
theorem lookup_isSome (ss : List Statement) (name : String) :
    ((ofStatements ss).labels.lookup name).isSome ↔ name ∈ boundNames ss := by
  induction ss using List.reverseRecOn with
  | nil => simp [ofStatements, boundNames]
  | append_singleton ss s ih =>
    rw [ofStatements_concat, lookup_add, Option.isSome_or, Bool.or_eq_true, ih, boundNames_concat,
      List.mem_append]
    refine or_congr_right ?_
    cases s with
    | label n =>
      by_cases hn : name = n
      · subst hn
        simp [Statement.labels, boundNames]
      · have hne : (name == n) = false := by simpa using hn
        simp [Statement.labels, boundNames, List.lookup_cons, hne, hn]
    | emit | branch | raw => simp [Statement.labels, boundNames]

/-- The address is that of the label. -/
theorem label_of_lookup {ss : List Statement} {name : String} {a : Nat}
    (h : (ofStatements ss).labels.lookup name = some a) :
    ∃ before after, ss = before ++ .label name :: after ∧ a = (ofStatements before).pc := by
  induction ss using List.reverseRecOn with
  | nil => simp [ofStatements] at h
  | append_singleton ss s ih =>
    rw [ofStatements_concat, lookup_add, Option.or_eq_some_iff] at h
    rcases h with hold | ⟨-, hnew⟩
    · obtain ⟨before, after, rfl, ha⟩ := ih hold
      exact ⟨before, after ++ [s], by simp, ha⟩
    · cases s with
      | label n =>
        rw [Statement.labels, List.lookup_cons, List.lookup_nil] at hnew
        split at hnew
        next heq =>
          cases hnew
          exact ⟨ss, [], by rw [eq_of_beq heq], rfl⟩
        · cases hnew
      | emit | branch | raw => simp [Statement.labels] at hnew

/-- The fault that a statement leaves in a draft without one is exactly what is wrong with it. -/
theorem error_add_iff {d : Draft} {bound : List String} (hd : d.error = none)
    (hbound : ∀ name, (d.labels.lookup name).isSome ↔ name ∈ bound) (s : Statement) :
    ((d.add s).error = none ↔ ∀ e, ¬ Faulty bound s e) ∧
    ∀ e, (d.add s).error = some e ↔ Faulty bound s e := by
  -- A sound statement leaves the draft without an error, a faulty one sets the error it names.
  rcases sound_or_faulty bound s with ⟨hs, fresh⟩ | ⟨e, hfault⟩
  · have hadd := add_of_sound hd hs fun name hname =>
      Option.not_isSome_iff_eq_none.mp (mt (hbound name).mp (fresh name hname))
    have hnone (e : AssemblyError) : ¬ Faulty bound s e := by
      intro hfault
      have herror := add_of_faulty hd hbound hfault
      rw [hadd] at herror
      cases herror
    simp [hadd, hnone]
  · have herror := add_of_faulty hd hbound hfault
    refine ⟨?_, ?_⟩
    · simp only [herror, reduceCtorEq, false_iff, not_forall, not_not]
      exact ⟨e, hfault⟩
    · intro e'
      constructor
      · intro h
        rw [herror] at h
        cases h
        exact hfault
      · exact add_of_faulty hd hbound

/-- The draft of a program has the first error of its statements. -/
theorem error_ofStatements (ss : List Statement) :
    ((ofStatements ss).error = none ↔ Clean ss) ∧
    ∀ e, (ofStatements ss).error = some e ↔ FirstFault ss e := by
  -- The draft is extended at its end, and so is the list of statements.
  induction ss using List.reverseRecOn with
  | nil =>
    refine ⟨by simp [ofStatements, clean_nil], ?_⟩
    intro e
    simp [ofStatements, FirstFault]
  | append_singleton ss s ih =>
    obtain ⟨hclean, hfirst⟩ := ih
    rw [ofStatements_concat, clean_concat]
    simp only [firstFault_concat]
    cases herror : (ofStatements ss).error with
    | none =>
      obtain ⟨hnone, hsome⟩ := error_add_iff herror (lookup_isSome ss) s
      have hss := hclean.mp herror
      have hno (e : AssemblyError) : ¬ FirstFault ss e := by
        intro h
        rw [(hfirst e).mpr h] at herror
        cases herror
      simp [hnone, hsome, hss, hno]
    | some e =>
      have hss : ¬ Clean ss := by
        intro h
        rw [hclean.mpr h] at herror
        cases herror
      simp only [error_add herror s, reduceCtorEq, hss, false_and, or_false, ← hfirst, herror,
        implies_true, and_self]

/-- The fields that statements from `pos` on leave to labels. -/
def fixupsFrom : Nat → List Statement → List Fixup
  | _, [] => []
  | pos, s :: ss => s.fixups pos ++ fixupsFrom (pos + (s.encoding 0).length) ss

/-- The fixups of a sequence: those of its second part come behind the code of the first. -/
theorem fixupsFrom_append (pos : Nat) (ss tt : List Statement) :
    fixupsFrom pos (ss ++ tt) =
      fixupsFrom pos ss ++ fixupsFrom (pos + (ss.flatMap (·.encoding 0)).length) tt := by
  induction ss generalizing pos with
  | nil => simp [fixupsFrom]
  | cons s ss ih => simp [fixupsFrom, ih, Nat.add_assoc]

def Statement.zeroed : Statement → Statement
  | .branch m _ args => .emit m (args ++ [0])
  | s => s

theorem Statement.zeroed_encoding (s : Statement) : s.zeroed.encoding 0 = s.encoding 0 := by
  cases s <;> rfl

theorem Statement.Sound.zeroed {s : Statement} (h : s.Sound) : s.zeroed.Sound := by
  cases s with
  | branch m t args =>
    obtain ⟨info, rs, k, hname, hbr, hfits⟩ := h
    exact ⟨info, hname, fits_full hbr hfits 0⟩
  | emit | label | raw => exact h

theorem Clean.sound {ss : List Statement} (h : Clean ss) : ∀ s ∈ ss, s.Sound := by
  intro s hs
  obtain ⟨before, after, rfl⟩ := List.append_of_mem hs
  rcases sound_or_faulty (boundNames before) s with ⟨hsound, -⟩ | ⟨e, hfault⟩
  · exact hsound
  · exact absurd hfault (h before s after rfl e)

/-- The draft of statements that nothing is wrong with, and of the same statements with zeros in
place of the labels. -/
theorem ofStatements_of_clean {ss : List Statement} (h : Clean ss) :
    let labels := (ofStatements ss).labels
    ofStatements ss = ⟨(ss.flatMap (·.encoding 0)).toArray, labels, fixupsFrom 0 ss, none⟩ ∧
    ofStatements (ss.map (·.zeroed)) = ⟨(ss.flatMap (·.encoding 0)).toArray, labels, [], none⟩ := by
  intro labels
  -- From the end, because a draft grows by its last statement and knows only the labels before it.
  induction ss using List.reverseRecOn with
  | nil => exact ⟨rfl, rfl⟩
  | append_singleton ss s ih =>
    obtain ⟨hclean, hs⟩ := clean_concat.mp h
    obtain ⟨hdraft, hzeroed⟩ := ih hclean
    rcases sound_or_faulty (boundNames ss) s with ⟨hsound, fresh⟩ | ⟨e, hfault⟩
    · have hfree : ∀ name, s = .label name → (ofStatements ss).labels.lookup name = none := by
        intro name hname
        exact Option.not_isSome_iff_eq_none.mp (mt (lookup_isSome ss name).mp (fresh name hname))
      have hadd := add_of_sound (by rw [hdraft]) hsound hfree
      have hadd' := add_of_sound (d := ofStatements (ss.map (·.zeroed))) (by rw [hzeroed])
        hsound.zeroed (by
          intro name hname
          rw [hzeroed]
          cases s <;> first | exact hfree name hname | cases hname)
      have hpc : (ofStatements ss).pc = (ss.flatMap (·.encoding 0)).length := by
        rw [hdraft]
        simp [Draft.pc]
      have hpc' : (ofStatements (ss.map (·.zeroed))).pc = (ss.flatMap (·.encoding 0)).length := by
        rw [hzeroed]
        simp [Draft.pc]
      have hlabels (pos : Nat) : s.zeroed.labels pos = s.labels pos := by cases s <;> rfl
      have hfixups (pos : Nat) : s.zeroed.fixups pos = [] := by cases s <;> rfl
      subst labels
      rw [List.map_append, List.map_singleton, ofStatements_concat, ofStatements_concat,
        hadd, hadd', hpc, hpc', hlabels, hfixups, s.zeroed_encoding, fixupsFrom_append, hzeroed]
      constructor
      · rw [hdraft]
        simp [fixupsFrom]
      · simp
    · exact absurd hfault (hs e)

end BlockVM.Isa
