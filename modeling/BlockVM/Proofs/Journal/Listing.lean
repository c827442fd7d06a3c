import BlockVM.Proofs.Journal.History
import Mathlib.Data.List.Dedup
import Mathlib.Data.List.Sort

/-!
# Listings

For image names without a colon, a listing has the runs of one image and of no other, although one
name may begin another; it is in the order of the starts, and at one start in the order of the
names. The listing of all runs is made of the listings of the images (`list_eq_flatMap`), in the
order in which the images, each with the mark after it, are ordered as byte strings.
-/

namespace BlockVM.Journal

/-! ## Histories in which no name is used twice -/

def putIds (cs : List Change) : List RunId :=
  cs.filterMap fun
    | .put fresh r => some (named fresh r).id
    | .delete _ => none

/-- What is current was put. -/
theorem exists_put_of_current {cs : List Change} {id : RunId} {r : Record}
    (h : current cs id = some r) :
    ∃ fresh r₀, .put fresh r₀ ∈ cs ∧ named fresh r₀ = r ∧ r.id = id := by
  induction cs using List.reverseRecOn with
  | nil => cases h
  | append_singleton cs c ih =>
    -- A change that does not concern the run leaves what was put for it earlier.
    have before : current cs id = some r →
        ∃ fresh r₀, .put fresh r₀ ∈ cs ++ [c] ∧ named fresh r₀ = r ∧ r.id = id := by
      intro h
      obtain ⟨fresh, r₀, hmem, heq⟩ := ih h
      exact ⟨fresh, r₀, List.mem_append_left _ hmem, heq⟩
    rw [current_append] at h
    cases c with
    | put fresh r₀ =>
      simp only [Change.revise] at h
      split at h
      next hid =>
        cases h
        exact ⟨fresh, r₀, List.mem_append_right _ (List.mem_singleton_self _), rfl, hid⟩
      · exact before h
    | delete id' =>
      simp only [Change.revise] at h
      split at h
      · cases h
      · exact before h

/-- A name that is used once is never in use when a record is put under it. -/
theorem settled_of_nodup {cs : List Change} (distinct : (putIds cs).Nodup) : Settled cs := by
  rintro before fresh r after rfl old hold
  obtain ⟨fresh', r', hmem, hnamed, hid⟩ := exists_put_of_current hold
  have hbefore : (named fresh r).id ∈ putIds before := by
    refine List.mem_filterMap.mpr ⟨_, hmem, ?_⟩
    simp only [hnamed, hid]
  have hafter : (named fresh r).id ∈ putIds (.put fresh r :: after) := by
    rw [putIds, List.filterMap_cons]
    exact List.mem_cons_self
  rw [putIds, List.filterMap_append] at distinct
  exact absurd hafter (List.disjoint_of_nodup_append distinct hbefore)

/-! ## Runs of one image -/

/-- An image has a name, and there is no colon in it. -/
def Plain (image : String) : Prop := image ≠ "" ∧ ':' ∉ image.toList

/-- A record of a plain image with a start that the order of keys is made for. -/
structure Listable (r : Record) : Prop where
  plain : Plain r.image
  dated : Dated r.started

/-- A current record was put at some time, so it can be listed. -/
theorem listable_of_current {cs : List Change} {id : RunId} {r : Record}
    (listable : ∀ fresh r, .put fresh r ∈ cs → Listable r) (h : current cs id = some r) :
    Listable r := by
  obtain ⟨fresh, r₀, hmem, rfl, -⟩ := exists_put_of_current h
  have hr₀ := listable fresh r₀ hmem
  unfold named
  split
  · exact ⟨hr₀.plain, hr₀.dated⟩
  · exact hr₀

section Listings

variable {j : Journal} {held : RunId → Option Record} {r : Record} {image : String}

/-- The listing of an image has the current records of the image. -/
theorem Tidy.mem_list_image (tidy : Tidy j held) (tracks : Tracks j held)
    (listable : ∀ id r, held id = some r → Listable r) (h : Plain image) :
    r ∈ j.list image ↔ held r.id = some r ∧ r.image = image := by
  rw [tidy.mem_list tracks]
  refine and_congr_right fun hheld => ?_
  exact listStart_prefix_iff h.1 h.2 (listable r.id r hheld).plain.2

/-- The listing of everything has every current record. -/
theorem Tidy.mem_list_all (tidy : Tidy j held) (tracks : Tracks j held) :
    r ∈ j.list "" ↔ held r.id = some r := by
  rw [tidy.mem_list tracks]
  exact and_iff_left (listStart_of_runKey r)

/-- The listing of an image is ordered. -/
theorem Tidy.pairwise_earlier (tidy : Tidy j held) (tracks : Tracks j held)
    (listable : ∀ id r, held id = some r → Listable r) (h : Plain image) :
    (j.list image).Pairwise Earlier := by
  refine List.Pairwise.imp_of_mem ?_ (pairwise_list tracks.ordered tracks.keyed image)
  intro a b ha hb hlt
  obtain ⟨hheld, himage⟩ := (tidy.mem_list_image tracks listable h).mp ha
  obtain ⟨hheld', himage'⟩ := (tidy.mem_list_image tracks listable h).mp hb
  exact (runKey_lt_iff_of_image (himage.trans himage'.symm) (listable _ _ hheld).dated
    (listable _ _ hheld').dated).mp hlt

/-! ## Runs of all images -/

/-- The images of the runs, each once, in the order in which they come in the listing of all
runs. -/
def images (j : Journal) : List String := ((j.list "").map (·.image)).dedup

/-- The images come in the order of their names, each with the mark after it. -/
theorem Tidy.pairwise_images (tidy : Tidy j held) (tracks : Tracks j held)
    (listable : ∀ id r, held id = some r → Listable r) :
    j.images.Pairwise fun s t => bytesOf s ++ [mark] < bytesOf t ++ [mark] := by
  have weak : ((j.list "").map (·.image)).Pairwise fun s t =>
      s = t ∨ bytesOf s ++ [mark] < bytesOf t ++ [mark] := by
    rw [List.pairwise_map]
    refine List.Pairwise.imp_of_mem ?_ (pairwise_list tracks.ordered tracks.keyed "")
    intro a b ha hb hlt
    have hplain := (listable _ _ ((tidy.mem_list_all tracks).mp ha)).plain
    have hplain' := (listable _ _ ((tidy.mem_list_all tracks).mp hb)).plain
    by_cases himage : a.image = b.image
    · exact .inl himage
    · exact .inr ((runKey_lt_iff_of_image_ne himage hplain.2 hplain'.2).mp hlt)
  have strict := (weak.sublist (List.dedup_sublist _)).and (List.nodup_dedup _)
  exact strict.imp fun h => h.1.resolve_left h.2

/-- The listing of all runs is made of the listings of their images. -/
theorem Tidy.list_eq_flatMap (tidy : Tidy j held) (tracks : Tracks j held)
    (listable : ∀ id r, held id = some r → Listable r) :
    j.list "" = j.images.flatMap j.list := by
  have mem_images : ∀ {s}, s ∈ j.images ↔ ∃ r, held r.id = some r ∧ r.image = s := by
    intro s
    simp only [images, List.mem_dedup, List.mem_map, tidy.mem_list_all tracks]
  have plain : ∀ {s}, s ∈ j.images → Plain s := by
    intro s hs
    obtain ⟨r, hheld, rfl⟩ := mem_images.mp hs
    exact (listable _ _ hheld).plain
  have sorted : (j.images.flatMap j.list).Pairwise fun a b => runKey a < runKey b := by
    rw [List.pairwise_flatMap]
    refine ⟨fun s _ => pairwise_list tracks.ordered tracks.keyed s, ?_⟩
    refine List.Pairwise.imp_of_mem ?_ (tidy.pairwise_images tracks listable)
    intro s t hs ht hlt a ha b hb
    obtain ⟨hheld, rfl⟩ := (tidy.mem_list_image tracks listable (plain hs)).mp ha
    obtain ⟨hheld', rfl⟩ := (tidy.mem_list_image tracks listable (plain ht)).mp hb
    refine (runKey_lt_iff_of_image_ne ?_ (plain hs).2 (plain ht).2).mpr hlt
    intro himage
    rw [himage] at hlt
    exact List.lt_irrefl _ hlt
  have members : ∀ r, r ∈ j.list "" ↔ r ∈ j.images.flatMap j.list := by
    intro r
    rw [tidy.mem_list_all tracks, List.mem_flatMap]
    constructor
    · intro hheld
      have hs := mem_images.mpr ⟨r, hheld, rfl⟩
      exact ⟨r.image, hs, (tidy.mem_list_image tracks listable (plain hs)).mpr ⟨hheld, rfl⟩⟩
    · rintro ⟨s, hs, hr⟩
      exact ((tidy.mem_list_image tracks listable (plain hs)).mp hr).1
  -- Two lists in the strict order of their keys that have the same members are equal.
  have irrefl : Std.Irrefl fun a b : Record => runKey a < runKey b := ⟨fun _ => List.lt_irrefl _⟩
  have antisymm : Std.Antisymm fun a b : Record => runKey a < runKey b :=
    ⟨fun _ _ h h' => absurd (List.lt_trans h h') (List.lt_irrefl _)⟩
  exact (pairwise_list tracks.ordered tracks.keyed "").eq_of_mem_iff sorted members

end Listings

/-- In a history that uses no name twice, the listing of an image has exactly the current records of
that image, each once and in order, and the listing of all runs is made of the listings of the
distinct images. -/
theorem listing_is_exact_and_ordered {cs : List Change} (distinct : (putIds cs).Nodup)
    (listable : ∀ fresh r, .put fresh r ∈ cs → Listable r) :
    (∀ image, Plain image →
      (∀ r, r ∈ (ofChanges cs).list image ↔ current cs r.id = some r ∧ r.image = image) ∧
        ((ofChanges cs).list image).Nodup ∧ ((ofChanges cs).list image).Pairwise Earlier) ∧
      ∃ images : List String, images.Nodup ∧
        (∀ image, image ∈ images ↔ ∃ r, current cs r.id = some r ∧ r.image = image) ∧
        (ofChanges cs).list "" = images.flatMap (ofChanges cs).list := by
  have tracks := tracks_ofChanges cs
  have tidy := tidy_ofChanges (settled_of_nodup distinct)
  have listable : ∀ id r, current cs id = some r → Listable r := fun _ _ =>
    listable_of_current listable
  refine ⟨fun image h => ⟨fun r => tidy.mem_list_image tracks listable h, tracks.nodup_list image,
    tidy.pairwise_earlier tracks listable h⟩, (ofChanges cs).images, List.nodup_dedup _, ?_,
    tidy.list_eq_flatMap tracks listable⟩
  intro image
  simp only [images, List.mem_dedup, List.mem_map, tidy.mem_list_all tracks]

/-- Two runs of one image, put in the wrong order, and one of an image whose name the first
begins. -/
def threeRuns : List Change := [
  .put .none { firstRun with started := ⟨1714557600, 5, 0⟩ },
  .put ⟨.replicate 16 2⟩ { firstRun with id := .none, started := ⟨1714557600, 4, 3600⟩ },
  .put .none { firstRun with id := ⟨.replicate 16 3⟩, image := "a!" }]

/-- The run that was put last of the three comes first, as its image does. -/
theorem listing_is_exact_and_ordered_threeRuns :
    (putIds threeRuns).Nodup ∧ (∀ fresh r, .put fresh r ∈ threeRuns → Listable r) ∧
      ((ofChanges threeRuns).list "a").Pairwise Earlier ∧
      ((ofChanges threeRuns).list "a").map (·.started.nanos) = [4, 5] ∧
      ((ofChanges threeRuns).list "").map (·.image) = ["a!", "a", "a"] := by
  have distinct : (putIds threeRuns).Nodup := by decide
  have listable : ∀ fresh r, .put fresh r ∈ threeRuns → Listable r := by
    intro fresh r hmem
    simp only [threeRuns, List.mem_cons, Change.put.injEq, List.not_mem_nil, or_false] at hmem
    rcases hmem with ⟨-, rfl⟩ | ⟨-, rfl⟩ | ⟨-, rfl⟩ <;>
      exact ⟨⟨by decide, by decide⟩, ⟨by decide, by decide⟩⟩
  have ordered :=
    ((listing_is_exact_and_ordered distinct listable).1 "a" ⟨by decide, by decide⟩).2.2
  exact ⟨distinct, listable, ordered, by decide +kernel, by decide +kernel⟩

end BlockVM.Journal
