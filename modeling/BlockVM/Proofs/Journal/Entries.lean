import BlockVM.Journal.Store

/-!
# The ordered map of the journal

`lookup_insert` and `lookup_erase` say what stands under a key after a change. The order of the keys
is an invariant of both changes, and in an ordered map an entry is there exactly if it is what
stands under its key (`mem_iff_lookup`).
-/

namespace BlockVM.Journal

variable {l : List (Key × Entry)} {k k' : Key} {e e' : Entry}

/-! ## What stands under a key -/

theorem lookup_cons (k k' : Key) (e : Entry) (l : List (Key × Entry)) :
    List.lookup k' ((k, e) :: l) = if k' = k then some e else l.lookup k' := by
  rw [List.lookup_cons]
  by_cases h : k' = k
  · simp [h]
  · simp [beq_false_of_ne h, h]

/-- An entry that is put under a key is what stands there, and other keys are not touched. -/
theorem lookup_insert (k k' : Key) (e : Entry) (l : List (Key × Entry)) :
    (insert k e l).lookup k' = if k' = k then some e else l.lookup k' := by
  induction l with
  | nil => exact lookup_cons k k' e []
  | cons head rest ih =>
    obtain ⟨k₁, e₁⟩ := head
    simp only [insert]
    split
    · exact lookup_cons k k' e _
    next hnlt =>
      split
      next heq =>
        subst heq
        by_cases h : k' = k <;> simp [lookup_cons, h]
      next hne =>
        by_cases h : k' = k₁
        · simp [h, Ne.symm hne]
        · simpa [lookup_cons, h] using ih

theorem lookup_erase (k k' : Key) (l : List (Key × Entry)) :
    (erase k l).lookup k' = if k' = k then none else l.lookup k' := by
  induction l with
  | nil => simp [erase]
  | cons head rest ih =>
    obtain ⟨k₁, e₁⟩ := head
    unfold erase at ih ⊢
    by_cases h₁ : k₁ = k
    · by_cases h : k' = k <;> simpa [lookup_cons, h₁, h] using ih
    · by_cases h : k' = k₁
      · simp [h, h₁]
      · simpa [lookup_cons, h, h₁] using ih

/-! ## The order of the keys -/

/-- Keys ascend. -/
def Ordered (l : List (Key × Entry)) : Prop := l.Pairwise fun a b => a.1 < b.1

/-- What is there after an entry was put is that entry or was there before. -/
theorem mem_insert (h : (k', e') ∈ insert k e l) : (k', e') = (k, e) ∨ (k', e') ∈ l := by
  induction l with
  | nil => exact .inl (List.mem_singleton.mp h)
  | cons head rest ih =>
    obtain ⟨k₁, e₁⟩ := head
    simp only [insert] at h
    split at h
    · exact List.mem_cons.mp h
    · split at h
      · exact (List.mem_cons.mp h).imp_right (List.mem_cons_of_mem _)
      · rcases List.mem_cons.mp h with heq | hrest
        · exact .inr (List.mem_cons.mpr (.inl heq))
        · exact (ih hrest).imp_right (List.mem_cons_of_mem _)

/-- The order is kept where the new key goes in front of the first greater one. -/
theorem Ordered.insert (k : Key) (e : Entry) (h : Ordered l) : Ordered (insert k e l) := by
  induction l with
  | nil => exact List.pairwise_singleton _ _
  | cons head rest ih =>
    obtain ⟨k₁, e₁⟩ := head
    obtain ⟨hhead, hrest⟩ := List.pairwise_cons.mp h
    simp only [Journal.insert]
    split
    next hlt =>
      refine List.pairwise_cons.mpr ⟨?_, h⟩
      intro a ha
      rcases List.mem_cons.mp ha with rfl | ha
      · exact hlt
      · exact List.lt_trans hlt (hhead a ha)
    next hnlt =>
      split
      next heq =>
        subst heq
        exact List.pairwise_cons.mpr ⟨hhead, hrest⟩
      next hne =>
        refine List.pairwise_cons.mpr ⟨?_, ih hrest⟩
        rintro ⟨k₂, e₂⟩ ha
        rcases mem_insert ha with heq | ha
        · cases heq
          -- Neither below nor equal, so above.
          exact (List.le_iff_lt_or_eq.mp (List.not_lt.mp hnlt)).resolve_right (Ne.symm hne)
        · exact hhead _ ha

theorem Ordered.erase (k : Key) (h : Ordered l) : Ordered (erase k l) :=
  h.sublist List.filter_sublist

/-- In an ordered map the first entry under a key is the only one. -/
theorem Ordered.mem_iff_lookup (h : Ordered l) : (k, e) ∈ l ↔ l.lookup k = some e := by
  induction l with
  | nil => simp
  | cons head rest ih =>
    obtain ⟨k₁, e₁⟩ := head
    obtain ⟨hhead, hrest⟩ := List.pairwise_cons.mp h
    rw [List.mem_cons, ih hrest, lookup_cons]
    by_cases hk : k = k₁
    · subst hk
      have habsent : rest.lookup k ≠ some e := fun hlook =>
        List.lt_irrefl k (hhead (k, e) ((ih hrest).mpr hlook))
      simp [habsent, eq_comm]
    · simp [hk]

end BlockVM.Journal
