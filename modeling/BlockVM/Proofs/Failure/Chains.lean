import BlockVM.Fault

/-!
# Chains of failures

A failure is a chain of links, and `inner?` leads from one to the next. `links` lists them, so that
a question about a chain becomes one about its links: the kinds of a chain are those of the links
that are faults, in order (`kinds_eq`).

`search` is the loop that looks for a failure along a chain. It ends at the target itself or at a
fault that answers to it. Equal failures may be stored at different places, so the loop is given the
place of each link and that of the target. `search_iff` says what it finds, and
`search_eq_matchesKind` that `matchesKind` is the search for a target that is stored elsewhere.
-/

namespace BlockVM.Failure

/-! ## Links -/

def ownKind? : Failure → Option FaultKind
  | cause _ | within _ _ | detailed _ _ => none
  | fault kind _ _ | faultBy kind _ _ _ => some kind

def links : Failure → List Failure
  | cause c => [cause c]
  | within context inner => within context inner :: inner.links
  | detailed inner detail => detailed inner detail :: inner.links
  | fault kind pc message => [fault kind pc message]
  | faultBy kind pc message inner => faultBy kind pc message inner :: inner.links

/-- Induction along a chain, from its end. -/
theorem chain_induction {motive : Failure → Prop}
    (step : ∀ f, (∀ g, f.inner? = some g → motive g) → motive f) (f : Failure) : motive f := by
  induction f with
  | cause | fault => exact step _ nofun
  | within _ inner ih | detailed inner _ ih | faultBy _ _ _ inner ih =>
    refine step _ fun g hg => ?_
    cases hg
    exact ih

variable {f g target : Failure}

theorem links_of_none (h : f.inner? = none) : f.links = [f] := by
  cases f with
  | cause | fault => rfl
  | within | detailed | faultBy => cases h

/-- The links of a chain: its head, and those of what it wraps. -/
theorem links_of_some (h : f.inner? = some g) : f.links = f :: g.links := by
  cases f with
  | cause | fault => cases h
  | within | detailed | faultBy =>
    cases h
    rfl

/-- The kinds of a chain are those of its links. -/
theorem kinds_eq (f : Failure) : f.kinds = f.links.filterMap ownKind? := by
  induction f with
  | cause | fault => rfl
  | within _ _ ih | detailed _ _ ih => exact ih
  | faultBy kind _ _ _ ih => exact congrArg (kind :: ·) ih

/-- The kinds of a chain are the own kinds of its links. -/
theorem mem_kinds_iff {kind : FaultKind} :
    kind ∈ f.kinds ↔ ∃ g ∈ f.links, g.ownKind? = some kind := by
  rw [kinds_eq, List.mem_filterMap]

/-- The kind of a chain is that of the first link that has one. -/
theorem kind?_eq (f : Failure) : f.kind? = f.links.findSome? ownKind? := by
  rw [kind?, kinds_eq, List.head?_filterMap]

/-! ## Searches -/

/-- Whether a link is a fault of the kind that the target stands for. The target must be a fault
without address, message and cause. -/
def answersTo (link target : Failure) : Bool :=
  match link.ownKind?, target with
  | some kind, fault kind' pc message => kind' == kind && pc == -1 && message == ""
  | _, _ => false

/-- Looks for the target, which is stored at `here`, along a chain whose link `n` is stored at
`place n`. -/
def search (target : Failure) (here : Nat) (place : Nat → Nat) (f : Failure) : Bool :=
  place 0 == here || f.answersTo target ||
    match f with
    | cause _ | fault _ _ _ => false
    | within _ inner | detailed inner _ | faultBy _ _ _ inner =>
      search target here (fun n => place (n + 1)) inner

def Member (here : Nat) (place : Nat → Nat) (f : Failure) : Prop :=
  ∃ n < f.links.length, place n = here

variable {here : Nat} {place : Nat → Nat}

theorem search_of_none (h : f.inner? = none) :
    search target here place f = (place 0 == here || f.answersTo target) := by
  cases f with
  | cause | fault => exact Bool.or_false _
  | within | detailed | faultBy => cases h

/-- One step of the search: here, by the answer of this link, or further inside. -/
theorem search_of_some (h : f.inner? = some g) :
    search target here place f =
      (place 0 == here || f.answersTo target || search target here (fun n => place (n + 1)) g) := by
  cases f with
  | cause | fault => cases h
  | within | detailed | faultBy =>
    cases h
    rfl

/-- A link answers to the sentinel of its own kind and to no other. -/
theorem answersTo_iff :
    f.answersTo target = true ↔ ∃ kind, target = sentinel kind ∧ f.ownKind? = some kind := by
  constructor
  · intro h
    unfold answersTo at h
    split at h
    next kind kind' pc message hkind =>
      simp only [Bool.and_eq_true, beq_iff_eq] at h
      obtain ⟨⟨rfl, rfl⟩, rfl⟩ := h
      exact ⟨_, rfl, hkind⟩
    next => cases h
  · rintro ⟨kind, rfl, hkind⟩
    simp [answersTo, sentinel, hkind]

/-- Where a wrapped failure stands: at the head, or one place further than inside. -/
theorem member_of_some (h : f.inner? = some g) :
    f.Member here place ↔ place 0 = here ∨ g.Member here fun n => place (n + 1) := by
  rw [Member, links_of_some h, List.length_cons, Nat.exists_lt_succ_left]
  exact Iff.rfl

/-- A search finds the target itself or a link that answers to it, at any depth. -/
theorem search_iff (f : Failure) :
    search target here place f = true ↔
      f.Member here place ∨ ∃ g ∈ f.links, g.answersTo target = true := by
  induction f using chain_induction generalizing place with
  | step f ih =>
    cases hf : f.inner? with
    | none =>
      rw [search_of_none hf, Member, links_of_none hf, Bool.or_eq_true, beq_iff_eq]
      simp
    | some g =>
      have hlinks : (∃ x ∈ f.links, x.answersTo target = true) ↔
          f.answersTo target = true ∨ ∃ x ∈ g.links, x.answersTo target = true := by
        rw [links_of_some hf]
        simp only [List.mem_cons, exists_eq_or_imp]
      rw [search_of_some hf, Bool.or_eq_true, Bool.or_eq_true, beq_iff_eq, ih g hf,
        member_of_some hf, hlinks]
      exact or_or_or_comm

/-- A chain matches a sentinel exactly if one of its links has that kind. -/
theorem matchesKind_iff :
    f.matchesKind target = true ↔
      ∃ kind, target = sentinel kind ∧ ∃ g ∈ f.links, g.ownKind? = some kind := by
  constructor
  · intro h
    unfold matchesKind at h
    split at h
    next kind pc message =>
      simp only [Bool.and_eq_true, beq_iff_eq, List.contains_iff_mem] at h
      obtain ⟨⟨rfl, rfl⟩, hmem⟩ := h
      exact ⟨kind, rfl, mem_kinds_iff.mp hmem⟩
    next => cases h
  · rintro ⟨kind, rfl, hlink⟩
    simp only [matchesKind, sentinel, beq_self_eq_true, Bool.true_and, List.contains_iff_mem]
    exact mem_kinds_iff.mpr hlink

/-- Where the target is no link of the chain, the search is for its kind. -/
theorem search_eq_matchesKind (h : ¬ f.Member here place) :
    search target here place f = f.matchesKind target := by
  rw [Bool.eq_iff_iff, search_iff, matchesKind_iff]
  constructor
  · rintro (hmember | ⟨g, hg, hanswers⟩)
    · exact absurd hmember h
    · obtain ⟨kind, htarget, hkind⟩ := answersTo_iff.mp hanswers
      exact ⟨kind, htarget, g, hg, hkind⟩
  · rintro ⟨kind, htarget, g, hg, hkind⟩
    exact .inr ⟨g, hg, answersTo_iff.mpr ⟨kind, htarget, hkind⟩⟩

/-! ## Classification -/

/-- The code of a chain is that of the first link with a kind. -/
theorem kindCode_eq (f : Failure) :
    f.kindCode = ((f.links.findSome? ownKind?).map (·.code)).getD 0 := by
  rw [kindCode, kind?_eq]

/-- A chain has a kind exactly if it holds a fault. -/
theorem isSome_kind?_iff :
    f.kind?.isSome = true ↔ ∃ g ∈ f.links, ∃ kind, g.ownKind? = some kind := by
  rw [kind?_eq, List.findSome?_isSome_iff]
  simp only [Option.isSome_iff_exists]

/-- Unless a kind has the code 0, a chain is fatal exactly if some link has a kind. -/
theorem isFatal_iff (hkinds : ∀ kind ∈ f.kinds, kind.code ≠ 0) :
    f.isFatal = true ↔ ∃ g ∈ f.links, ∃ kind, g.ownKind? = some kind := by
  rw [← isSome_kind?_iff, isFatal, kindCode, bne_iff_ne]
  cases h : f.kind? with
  | none => simp
  | some kind =>
    have hmem : kind ∈ f.kinds := List.mem_of_head? h
    simpa using hkinds kind hmem

/-- The sentinel of a chain's kind is found in the chain. -/
theorem search_sentinel {code : Int64} (h : f.kindCode = code) (hcode : code ≠ 0) :
    search (sentinel ⟨code⟩) here place f = true := by
  rw [kindCode] at h
  cases hkind : f.kind? with
  | none =>
    rw [hkind] at h
    exact absurd h.symm hcode
  | some kind =>
    rw [hkind] at h
    obtain rfl : kind.code = code := h
    obtain ⟨g, hg, hown⟩ := mem_kinds_iff.mp (List.mem_of_head? hkind)
    exact (search_iff f).mpr (.inr ⟨g, hg, answersTo_iff.mpr ⟨kind, rfl, hown⟩⟩)

/-- The links of a chain decide how it is classified. A target that is not one of them is found
exactly if it stands for the kind of one of them. The kind of the chain is that of the outermost
fault, and the chain is fatal exactly if it holds a fault. The sentinel of the kind of a chain is
found in it, wherever both are stored. -/
theorem links_decide_classification (f : Failure)
    (hkinds : ∀ kind ∈ f.kinds, 1 ≤ kind.code ∧ kind.code ≤ 9) (here : Nat) (place : Nat → Nat) :
    (∀ target, ¬ f.Member here place →
      search target here place f = f.matchesKind target ∧
      (search target here place f = true ↔
        ∃ kind, target = sentinel kind ∧ ∃ g ∈ f.links, g.ownKind? = some kind)) ∧
    f.kindCode = ((f.links.findSome? ownKind?).map (·.code)).getD 0 ∧
    (f.isFatal = true ↔ ∃ g ∈ f.links, ∃ kind, g.ownKind? = some kind) ∧
    ∀ code, f.kindCode = code → code ≠ 0 → search (sentinel ⟨code⟩) here place f = true := by
  have hcodes : ∀ kind ∈ f.kinds, kind.code ≠ 0 := by
    intro kind hkind hzero
    have hone := (hkinds kind hkind).1
    rw [hzero] at hone
    exact absurd hone (by decide)
  refine ⟨fun target hout => ?_, kindCode_eq f, isFatal_iff hcodes, fun _ => search_sentinel⟩
  have hsearch : search target here place f = f.matchesKind target := search_eq_matchesKind hout
  exact ⟨hsearch, by rw [hsearch, matchesKind_iff]⟩

/-- A fault that was caused by another one, under a context. -/
def nested : Failure :=
  within "compile" (faultBy .badPointer 8 "code"
    (detailed (faultBy .resource (-1) "" (cause .outOfBounds)) "growth"))

/-- Both kinds are found, a third one is not, and the outer one is that of the chain. -/
theorem links_decide_classification_nested :
    search (sentinel .badPointer) 7 (100 + ·) nested = true ∧
      search (sentinel .resource) 7 (100 + ·) nested = true ∧
      search (sentinel .divide) 7 (100 + ·) nested = false ∧
      nested.kindCode = 5 ∧ nested.isFatal = true := by
  obtain ⟨hsearch, hkind, hfatal, hsentinel⟩ :=
    links_decide_classification nested (by decide) 7 (100 + ·)
  have hout : ¬ nested.Member 7 (100 + ·) := by
    rintro ⟨n, -, hn⟩
    have hplace : 100 + n = 7 := hn
    omega
  refine ⟨hsentinel 5 hkind (by decide), (hsearch _ hout).2.mpr ?_, ?_, hkind, hfatal.mpr ?_⟩
  · exact ⟨.resource, rfl, _, .tail _ (.tail _ (.tail _ (.head _))), rfl⟩
  · exact (hsearch _ hout).1.trans rfl
  · exact ⟨_, .tail _ (.head _), _, rfl⟩

end BlockVM.Failure
