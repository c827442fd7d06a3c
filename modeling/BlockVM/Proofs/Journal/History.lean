import BlockVM.Proofs.Journal.Keys
import Mathlib.Data.List.Nodup
import Mathlib.Data.Set.Function

/-!
# The journal after any history

A history is a sequence of changes. What it should leave behind is said without keys: under each
name the record that was last put there, unless it was deleted since (`current`). `Tracks` ties the
journal to that, whatever the history: the key of a name leads to the run key of its record, and the
record stands there.

A record that is put under a name in use, but with another image or another start, gets another run
key, and the run that stood under the old one stays behind. `Settled` excludes this; then nothing
else is in the journal (`Tidy`), and its two key spaces say the same.
-/

namespace BlockVM.Journal

/-! ## Histories -/

/-- A change of a journal. -/
inductive Change where
  /-- Stores a record, under the fresh name if it has none. -/
  | put (fresh : RunId) (r : Record)
  | delete (id : RunId)
deriving DecidableEq, Repr

def named (fresh : RunId) (r : Record) : Record :=
  if r.id = .none then { r with id := fresh } else r

def apply (j : Journal) : Change → Journal
  | .put fresh r => (j.put fresh r).2
  | .delete id => j.delete id

def ofChanges (cs : List Change) : Journal := cs.foldl apply {}

/-- What a change makes of the record under a name. -/
def Change.revise (id : RunId) (held : Option Record) : Change → Option Record
  | .put fresh r => if (named fresh r).id = id then some (named fresh r) else held
  | .delete id' => if id' = id then none else held

/-- The record that was last put under a name, unless it was deleted since. -/
def current (cs : List Change) (id : RunId) : Option Record := cs.foldl (Change.revise id) none

/-- No record is put under a name in use with another run key than the record that it replaces. -/
def Settled (cs : List Change) : Prop :=
  ∀ before fresh r after, cs = before ++ .put fresh r :: after →
    ∀ old, current before (named fresh r).id = some old → runKey old = runKey (named fresh r)

theorem ofChanges_append (cs : List Change) (c : Change) :
    ofChanges (cs ++ [c]) = (ofChanges cs).apply c := by
  simp [ofChanges]

theorem current_append (cs : List Change) (c : Change) (id : RunId) :
    current (cs ++ [c]) id = c.revise id (current cs id) := by
  simp [current]

theorem Settled.init {cs : List Change} {c : Change} (h : Settled (cs ++ [c])) : Settled cs :=
  fun before fresh r after heq => h before fresh r (after ++ [c]) (by simp [heq])

/-- The last change of a settled history does not move a record. -/
theorem Settled.last {cs : List Change} {fresh : RunId} {r old : Record}
    (h : Settled (cs ++ [.put fresh r])) (held : current cs (named fresh r).id = some old) :
    runKey old = runKey (named fresh r) :=
  h cs fresh r [] rfl old held

/-! ## What a history leaves behind -/

/-- The journal holds, under its name, each record that is current. -/
structure Tracks (j : Journal) (held : RunId → Option Record) : Prop where
  ordered : Ordered j.entries
  index : ∀ id, j.entries.lookup (idKey id) = (held id).map fun r => .index (runKey r)
  name : ∀ id r, held id = some r → r.id = id
  record : ∀ id r, held id = some r → j.entries.lookup (runKey r) = some (.run r)
  runKeyed : ∀ k r, j.entries.lookup k = some (.run r) → k = runKey r
  idKeyed : ∀ k k', j.entries.lookup k = some (.index k') → ∃ id, k = idKey id

def Tidy (j : Journal) (held : RunId → Option Record) : Prop :=
  ∀ r, j.entries.lookup (runKey r) = some (.run r) → held r.id = some r

variable {j : Journal} {held held' : RunId → Option Record} {id : RunId} {r : Record}

theorem Tracks.empty : Tracks {} fun _ => none :=
  ⟨.nil, fun _ => rfl, nofun, nofun, nofun, nofun⟩

theorem entries_put (j : Journal) (fresh : RunId) (r : Record) :
    (j.put fresh r).2.entries = insert (idKey (named fresh r).id) (.index (runKey (named fresh r)))
      (insert (runKey (named fresh r)) (.run (named fresh r)) j.entries) := rfl

/-- A put touches two keys: the one of the name and the run key. -/
theorem lookup_put (j : Journal) (fresh : RunId) (r : Record) (k : Key) :
    (j.put fresh r).2.entries.lookup k =
      if k = idKey (named fresh r).id then some (.index (runKey (named fresh r)))
      else if k = runKey (named fresh r) then some (.run (named fresh r))
      else j.entries.lookup k := by
  rw [entries_put, lookup_insert, lookup_insert]

/-- What a put leaves under the other names. -/
theorem Tracks.put (h : Tracks j held) (fresh : RunId) (r : Record) :
    Tracks (j.put fresh r).2 fun id => (Change.put fresh r).revise id (held id) := by
  have hlookup := lookup_put j fresh r
  have hordered := (h.ordered.insert (runKey (named fresh r)) (.run (named fresh r))).insert
    (idKey (named fresh r).id) (.index (runKey (named fresh r)))
  rw [← entries_put] at hordered
  simp only [Change.revise]
  generalize named fresh r = r₀ at *
  constructor
  · exact hordered
  · intro id
    rw [hlookup]
    by_cases hid : r₀.id = id
    · simp [hid]
    · have hne : idKey id ≠ idKey r₀.id := fun heq => hid (idKey_inj heq).symm
      rw [if_neg hne, if_neg (Ne.symm (runKey_ne_idKey r₀ id)), if_neg hid, h.index]
  · intro id r hr
    split at hr
    next hid =>
      cases hr
      exact hid
    · exact h.name id r hr
  · intro id r hr
    rw [hlookup, if_neg (runKey_ne_idKey r r₀.id)]
    split at hr
    · cases hr
      rw [if_pos rfl]
    next hid =>
      -- Run keys of different names differ.
      have hne : runKey r ≠ runKey r₀ := fun heq =>
        hid ((runKey_inj heq).2.2 ▸ h.name id r hr)
      rw [if_neg hne, h.record id r hr]
  · intro k r hk
    rw [hlookup] at hk
    split at hk
    · cases hk
    · split at hk
      next heq =>
        cases hk
        exact heq
      · exact h.runKeyed k r hk
  · intro k k' hk
    rw [hlookup] at hk
    split at hk
    next heq => exact ⟨_, heq⟩
    · split at hk
      · cases hk
      · exact h.idKeyed k k' hk

/-- A put that does not move its record leaves nothing behind. -/
theorem Tidy.put (h : Tidy j held) {fresh : RunId} {r : Record}
    (stays : ∀ old, held (named fresh r).id = some old → runKey old = runKey (named fresh r)) :
    Tidy (j.put fresh r).2 fun id => (Change.put fresh r).revise id (held id) := by
  have hlookup := lookup_put j fresh r
  intro r' hr'
  simp only [Change.revise]
  generalize named fresh r = r₀ at *
  rw [hlookup, if_neg (runKey_ne_idKey r' r₀.id)] at hr'
  split at hr'
  · cases hr'
    rw [if_pos rfl]
  next hne =>
    have hheld := h r' hr'
    rw [if_neg, hheld]
    intro hid
    rw [← hid] at hheld
    exact hne (stays r' hheld)

/-- A deletion takes out the entries of one name. -/
theorem Tracks.lookup_delete (h : Tracks j held) (id : RunId) (k : Key) :
    (j.delete id).entries.lookup k =
      if k = idKey id ∨ (∃ r, held id = some r ∧ k = runKey r) then none
      else j.entries.lookup k := by
  have hindex := h.index id
  unfold delete
  cases hheld : held id with
  | none =>
    rw [hheld] at hindex
    rw [hindex]
    by_cases hk : k = idKey id
    · simp [hk, hindex]
    · simp [hk]
  | some r =>
    rw [hheld] at hindex
    rw [hindex]
    show (erase (idKey id) (erase (runKey r) j.entries)).lookup k = _
    rw [lookup_erase, lookup_erase]
    by_cases hk : k = idKey id
    · simp [hk]
    · by_cases hk' : k = runKey r <;> simp [hk, hk']

theorem Tracks.ordered_delete (h : Tracks j held) (id : RunId) : Ordered (j.delete id).entries := by
  unfold delete
  split
  · exact (h.ordered.erase _).erase _
  · exact h.ordered

/-- After a deletion the name leads nowhere, and every other name where it led before. -/
theorem Tracks.delete (h : Tracks j held) (id : RunId) :
    Tracks (j.delete id) fun id' => (Change.delete id).revise id' (held id') := by
  have hlookup := h.lookup_delete id
  simp only [Change.revise]
  constructor
  · exact h.ordered_delete id
  · intro id'
    rw [hlookup]
    by_cases hid : id = id'
    · subst hid
      simp
    · rw [if_neg, if_neg hid, h.index]
      -- A key that is removed belongs to this run, and keys of the two kinds are never equal.
      rintro (heq | ⟨r, -, heq⟩)
      · exact hid (idKey_inj heq).symm
      · exact runKey_ne_idKey r id' heq.symm
  · intro id' r hr
    split at hr
    · cases hr
    · exact h.name id' r hr
  · intro id' r hr
    split at hr
    · cases hr
    next hid =>
      rw [hlookup, if_neg, h.record id' r hr]
      rintro (heq | ⟨r', hr', heq⟩)
      · exact runKey_ne_idKey r id heq
      · exact hid
          ((h.name id r' hr').symm.trans ((runKey_inj heq).2.2.symm.trans (h.name id' r hr)))
  · intro k r hk
    rw [hlookup] at hk
    split at hk
    · cases hk
    · exact h.runKeyed k r hk
  · intro k k' hk
    rw [hlookup] at hk
    split at hk
    · cases hk
    · exact h.idKeyed k k' hk

theorem Tidy.delete (h : Tidy j held) (tracks : Tracks j held) (id : RunId) :
    Tidy (j.delete id) fun id' => (Change.delete id).revise id' (held id') := by
  intro r hr
  rw [tracks.lookup_delete] at hr
  split at hr
  · cases hr
  next hkept =>
    have hheld := h r hr
    simp only [Change.revise]
    rw [if_neg, hheld]
    rintro rfl
    exact hkept (.inr ⟨r, hheld, rfl⟩)

/-- Every history leaves behind what is current. -/
theorem tracks_ofChanges (cs : List Change) : Tracks (ofChanges cs) (current cs) := by
  induction cs using List.reverseRecOn with
  | nil => exact .empty
  | append_singleton cs c ih =>
    rw [ofChanges_append, funext (current_append cs c)]
    cases c with
    | put fresh r => exact ih.put fresh r
    | delete id => exact ih.delete id

/-- A settled history leaves behind nothing else. -/
theorem tidy_ofChanges {cs : List Change} (h : Settled cs) : Tidy (ofChanges cs) (current cs) := by
  induction cs using List.reverseRecOn with
  | nil => nofun
  | append_singleton cs c ih =>
    rw [ofChanges_append, funext (current_append cs c)]
    cases c with
    | put fresh r => exact (ih h.init).put fun _ => h.last
    | delete id => exact (ih h.init).delete (tracks_ofChanges cs) id

/-! ## Reading -/

def notFound (id : RunId) : Failure := .detailed (.cause .runNotFound) id.text

/-- What is read under a name is what is current. -/
theorem Tracks.get (h : Tracks j held) (id : RunId) :
    j.get id = (held id).elim (.error (notFound id)) .ok := by
  have hindex := h.index id
  unfold Journal.get
  cases hheld : held id with
  | none =>
    rw [hheld] at hindex
    rw [hindex]
    rfl
  | some r =>
    rw [hheld] at hindex
    rw [hindex]
    dsimp only [Option.map_some]
    rw [h.record id r hheld]
    rfl

theorem Tracks.keyed (h : Tracks j held) (k : Key) (r : Record) (hmem : (k, .run r) ∈ j.entries) :
    k = runKey r :=
  h.runKeyed k r (h.ordered.mem_iff_lookup.mp hmem)

/-- A listing has what stands under its own run key, if the key begins as asked. -/
theorem Tracks.mem_list (h : Tracks j held) {image : String} :
    r ∈ j.list image ↔
      j.entries.lookup (runKey r) = some (.run r) ∧ listStart image <+: runKey r := by
  rw [Journal.mem_list]
  constructor
  · rintro ⟨k, hmem, hstart⟩
    obtain rfl := h.keyed k r hmem
    exact ⟨h.ordered.mem_iff_lookup.mp hmem, hstart⟩
  · rintro ⟨hlookup, hstart⟩
    exact ⟨_, h.ordered.mem_iff_lookup.mpr hlookup, hstart⟩

/-- In a tidy journal a listing has the current records whose keys it is for. -/
theorem Tidy.mem_list (h : Tidy j held) (tracks : Tracks j held) {image : String} :
    r ∈ j.list image ↔ held r.id = some r ∧ listStart image <+: runKey r := by
  rw [tracks.mem_list]
  exact and_congr_left fun _ => ⟨h r, tracks.record r.id r⟩

/-- No record is listed twice, since its run key is what it stands under. -/
theorem Tracks.nodup_list (h : Tracks j held) (image : String) : (j.list image).Nodup := by
  refine (pairwise_list h.ordered h.keyed image).imp fun {r r'} hlt => ?_
  rintro rfl
  exact List.lt_irrefl _ hlt

/-! ## The two key spaces -/

def idKeys (j : Journal) : Set Key := {k | ∃ k', (k, .index k') ∈ j.entries}

def runKeys (j : Journal) : Set Key := {k | ∃ r, (k, .run r) ∈ j.entries}

def target (j : Journal) (k : Key) : Key :=
  match j.entries.lookup k with
  | some (.index k') => k'
  | _ => k

/-- The two key spaces say the same, and a run that is deleted is in neither. -/
structure Consistent (j : Journal) (held : RunId → Option Record) : Prop where
  paired : Set.BijOn j.target j.idKeys j.runKeys
  /-- Under each name the list has the current record and no other. -/
  listed : ∀ id, (j.list "").filter (·.id = id) = (held id).toList
  deleted : ∀ id image, ∀ r ∈ (j.delete id).list image, r.id ≠ id

theorem Tracks.mem_idKeys (h : Tracks j held) {k : Key} :
    k ∈ j.idKeys ↔ ∃ r, held r.id = some r ∧ k = idKey r.id ∧ j.target k = runKey r := by
  constructor
  · rintro ⟨k', hmem⟩
    have hlookup := h.ordered.mem_iff_lookup.mp hmem
    obtain ⟨id, rfl⟩ := h.idKeyed k k' hlookup
    have hindex := h.index id
    rw [hlookup] at hindex
    obtain ⟨r, hheld, heq⟩ := Option.map_eq_some_iff.mp hindex.symm
    have hid := h.name id r hheld
    subst hid
    refine ⟨r, hheld, rfl, ?_⟩
    rw [target, hlookup]
    cases heq
    rfl
  · rintro ⟨r, hheld, rfl, -⟩
    refine ⟨runKey r, h.ordered.mem_iff_lookup.mpr ?_⟩
    rw [h.index, hheld]
    rfl

/-- Names and runs correspond one to one: every name key leads to a run key of its own. -/
theorem Tidy.paired (h : Tidy j held) (tracks : Tracks j held) :
    Set.BijOn j.target j.idKeys j.runKeys := by
  refine ⟨?_, ?_, ?_⟩
  · intro k hk
    obtain ⟨r, hheld, -, htarget⟩ := tracks.mem_idKeys.mp hk
    rw [htarget]
    exact ⟨r, tracks.ordered.mem_iff_lookup.mpr (tracks.record r.id r hheld)⟩
  · intro k hk k' hk' heq
    obtain ⟨r, -, rfl, htarget⟩ := tracks.mem_idKeys.mp hk
    obtain ⟨r', -, rfl, htarget'⟩ := tracks.mem_idKeys.mp hk'
    rw [htarget, htarget'] at heq
    rw [(runKey_inj heq).2.2]
  · rintro k ⟨r, hmem⟩
    obtain rfl := tracks.keyed k r hmem
    have hheld := h r (tracks.ordered.mem_iff_lookup.mp hmem)
    have hindex := tracks.index r.id
    rw [hheld] at hindex
    refine ⟨idKey r.id, ⟨runKey r, tracks.ordered.mem_iff_lookup.mpr hindex⟩, ?_⟩
    rw [target, hindex]
    rfl

/-- A list without repetition that has what an option holds is that one value. -/
theorem eq_toList {α : Type} {l : List α} {o : Option α} (distinct : l.Nodup)
    (h : ∀ a, a ∈ l ↔ o = some a) : l = o.toList := by
  cases o with
  | none => exact List.eq_nil_iff_forall_not_mem.mpr fun a ha => nomatch (h a).mp ha
  | some a =>
    refine List.perm_singleton.mp
      ((List.perm_ext_iff_of_nodup distinct (List.nodup_singleton a)).mpr ?_)
    intro b
    rw [h b, List.mem_singleton, Option.some.injEq, eq_comm]

/-- A tidy journal that tracks its history is consistent. -/
theorem Tidy.consistent (h : Tidy j held) (tracks : Tracks j held) : Consistent j held where
  paired := h.paired tracks
  listed id := by
    refine eq_toList ((tracks.nodup_list "").filter _) fun r => ?_
    rw [List.mem_filter, decide_eq_true_eq, h.mem_list tracks]
    constructor
    · rintro ⟨⟨hheld, -⟩, rfl⟩
      exact hheld
    · intro hheld
      obtain rfl := tracks.name id r hheld
      exact ⟨⟨hheld, listStart_of_runKey r⟩, rfl⟩
  deleted id image r hr := by
    rintro rfl
    have hgone := ((h.delete tracks r.id).mem_list (tracks.delete r.id)).mp hr
    simp [Change.revise] at hgone

/-- After any history each name gives the record that was last put under it and not deleted since.
If no record was moved to another run key, then the two key spaces are consistent as well. -/
theorem settled_history_is_consistent (cs : List Change) :
    (∀ id, (ofChanges cs).get id = (current cs id).elim (.error (notFound id)) .ok) ∧
      (Settled cs → Consistent (ofChanges cs) (current cs)) :=
  ⟨(tracks_ofChanges cs).get, fun settled =>
    (tidy_ofChanges settled).consistent (tracks_ofChanges cs)⟩

def firstRun : Record where
  id := ⟨.replicate 16 1⟩
  image := "a"
  mode := "jit"
  started := ⟨1714557600, 0, 0⟩
  elapsed := 0
  error := ""
  cores := []

/-- A run that is put twice under its name, with another outcome but the same image and start. -/
def settledHistory : List Change :=
  [.put .none firstRun, .put .none { firstRun with error := "divide error" }]

/-- The example is settled: it deletes a name before it puts another run under it. -/
theorem settled_settledHistory : Settled settledHistory := by
  intro before fresh r after heq old hold
  match before with
  | [] => cases hold
  | [c] =>
    simp only [settledHistory, List.cons_append, List.nil_append, List.cons.injEq,
      Change.put.injEq] at heq
    obtain ⟨rfl, ⟨rfl, rfl⟩, -⟩ := heq
    have held : firstRun = old := Option.some.inj hold
    subst held
    rfl
  | c :: c' :: before =>
    have hlen := congrArg List.length heq
    simp [settledHistory] at hlen

/-- The list has the later of the two. -/
theorem settled_history_is_consistent_putAgain :
    Settled settledHistory ∧ Consistent (ofChanges settledHistory) (current settledHistory) ∧
      ((ofChanges settledHistory).list "").filter (·.id = firstRun.id) =
        [{ firstRun with error := "divide error" }] :=
  have consistent := (settled_history_is_consistent settledHistory).2 settled_settledHistory
  ⟨settled_settledHistory, consistent, consistent.listed firstRun.id⟩

/-- A run that is put again under its name with another image and then deleted. -/
def movedHistory : List Change :=
  [.put .none firstRun, .put .none { firstRun with image := "b" }, .delete firstRun.id]

/-- The run stays in the journal under its first image. -/
theorem moved_run_outlives_deletion :
    current movedHistory firstRun.id = none ∧ (ofChanges movedHistory).list "" = [firstRun] ∧
      ¬ Consistent (ofChanges movedHistory) (current movedHistory) := by
  have hlist : (ofChanges movedHistory).list "" = [firstRun] := by decide +kernel
  refine ⟨rfl, hlist, fun consistent => ?_⟩
  have hnone := consistent.listed firstRun.id
  rw [hlist] at hnone
  cases hnone

end BlockVM.Journal
