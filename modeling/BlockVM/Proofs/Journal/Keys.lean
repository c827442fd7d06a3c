import BlockVM.Proofs.Bytes.Order
import BlockVM.Proofs.Journal.Entries

/-!
# The keys of the journal

A run key is made of an image, a start time and a name. `runKey_inj` says that it can be taken apart
again, although an image may be as long as it likes and the other parts hold any bytes, and that no
run key leads from a name. `between_iff` and `lt_iff_of_image` say what the order of
the bytes means for it: the keys between two bounds of a listing are those that begin with the image
and the mark after it, and among those the earlier start comes first.
-/

namespace BlockVM.Journal

/-! ## The bytes of a text -/

def mark : UInt8 := 58

/-- The loop that turns an array of bytes into a list, from any place on. -/
theorem toList_loop (bs : ByteArray) (i : Nat) (r : List UInt8) :
    ByteArray.toList.loop bs i r = r.reverse ++ bs.data.toList.drop i := by
  fun_induction ByteArray.toList.loop bs i r with
  | case1 i r h ih =>
    have hget : bs.data.toList.drop i = bs.get! i :: bs.data.toList.drop (i + 1) := by
      have hi : i < bs.data.toList.length := h
      rw [List.drop_eq_getElem_cons hi]
      congr 1
      exact (getElem!_pos bs.data i h).symm
    rw [ih, hget, List.reverse_cons, List.append_assoc]
    rfl
  | case2 i r h =>
    have hlen : bs.data.toList.length ≤ i := Nat.not_lt.mp h
    rw [List.drop_eq_nil_of_le hlen, List.append_nil]

theorem bytesOf_eq (s : String) : bytesOf s = s.toByteArray.data.toList := toList_loop _ 0 []

theorem bytesOf_append (s t : String) : bytesOf (s ++ t) = bytesOf s ++ bytesOf t := by
  simp only [bytesOf_eq, String.toByteArray_append, ByteArray.toList_data_append]

theorem bytesOf_inj {s t : String} (h : bytesOf s = bytesOf t) : s = t := by
  rw [bytesOf_eq, bytesOf_eq, Array.toList_inj] at h
  exact String.toByteArray_inj.mp (ByteArray.ext h)

/-- The bytes of a text are those of its characters. -/
theorem bytesOf_eq_flatMap (s : String) : bytesOf s = s.toList.flatMap String.utf8EncodeChar := by
  rw [bytesOf_eq, ← String.utf8Encode_toList, List.utf8Encode, List.toList_data_toByteArray]

theorem mark_ne_ofNat {b : Nat} (hlow : 128 ≤ b) (hhigh : b < 256) : mark ≠ UInt8.ofNat b := by
  intro heq
  have hval := congrArg UInt8.toNat heq
  rw [UInt8.toNat_ofNat_of_lt' hhigh] at hval
  have hmark : mark.toNat = 58 := rfl
  omega

/-- Only the colon itself has the byte of the mark: characters of several bytes have none below
128. -/
theorem mark_mem_utf8EncodeChar {c : Char} (h : mark ∈ String.utf8EncodeChar c) : c = ':' := by
  unfold String.utf8EncodeChar at h
  dsimp only at h
  split at h
  next hsmall =>
    have hmark := congrArg UInt8.toNat (List.mem_singleton.mp h)
    rw [UInt8.toNat_ofNat_of_lt' (Nat.lt_of_le_of_lt hsmall (by decide))] at hmark
    exact Char.ext (UInt32.toNat_inj.mp hmark.symm)
  next =>
    exfalso
    -- Every byte of a longer character is a sum with one of the lead bits.
    split at h
    · simp only [List.mem_cons, List.not_mem_nil, or_false] at h
      rcases h with h | h <;> exact mark_ne_ofNat (by omega) (by omega) h
    · split at h
      · simp only [List.mem_cons, List.not_mem_nil, or_false] at h
        rcases h with h | h | h <;> exact mark_ne_ofNat (by omega) (by omega) h
      · simp only [List.mem_cons, List.not_mem_nil, or_false] at h
        rcases h with h | h | h | h <;> exact mark_ne_ofNat (by omega) (by omega) h

/-- A name without a colon has no byte like the mark, so the mark ends it in a key. -/
theorem mark_not_mem_bytesOf {s : String} (h : ':' ∉ s.toList) : mark ∉ bytesOf s := by
  rw [bytesOf_eq_flatMap, List.mem_flatMap]
  rintro ⟨c, hc, hm⟩
  exact h (mark_mem_utf8EncodeChar hm ▸ hc)

/-! ## Run keys -/

theorem bytesOf_mark : bytesOf ":" = [mark] := by decide +kernel

variable {r r' : Record}

def stamp (r : Record) : List UInt8 :=
  Cbor.bigEndian 8 r.started.unixNanos.toNat ++ r.id.bytes.toList

theorem length_stamp (r : Record) : (stamp r).length = 24 := by
  simp [stamp]

/-- The parts of a run key: its beginning, the name of the image, the mark and the stamp. -/
theorem runKey_eq (r : Record) :
    runKey r = bytesOf "run:" ++ (bytesOf r.image ++ mark :: stamp r) := by
  simp only [runKey, stamp, bytesOf_append, bytesOf_mark, List.append_assoc, List.cons_append,
    List.nil_append]

/-- A stamp determines the start and the name of a run. -/
theorem stamp_inj (h : stamp r = stamp r') :
    r.started.unixNanos = r'.started.unixNanos ∧ r.id = r'.id := by
  obtain ⟨htime, hid⟩ := List.append_inj h (by simp)
  refine ⟨?_, congrArg RunId.mk (Vector.toList_inj.mp hid)⟩
  have htime := Bytes.bigEndian_inj htime
  have hlt := r.started.unixNanos.toNat_lt
  have hlt' := r'.started.unixNanos.toNat_lt
  rw [Nat.mod_eq_of_lt hlt, Nat.mod_eq_of_lt hlt'] at htime
  exact UInt64.toNat_inj.mp htime

/-- A run key tells image, start and name. -/
theorem runKey_inj (h : runKey r = runKey r') :
    r.image = r'.image ∧ r.started.unixNanos = r'.started.unixNanos ∧ r.id = r'.id := by
  rw [runKey_eq, runKey_eq] at h
  have h := List.append_cancel_left h
  have hlen : (bytesOf r.image).length = (bytesOf r'.image).length := by
    have := congrArg List.length h
    simp only [List.length_append, List.length_cons, length_stamp] at this
    omega
  obtain ⟨himage, hstamp⟩ := List.append_inj h hlen
  exact ⟨bytesOf_inj himage, stamp_inj (List.cons.inj hstamp).2⟩

theorem idKey_inj {id id' : RunId} (h : idKey id = idKey id') : id = id' :=
  congrArg RunId.mk (Vector.toList_inj.mp (List.append_cancel_left h))

theorem runKey_ne_idKey (r : Record) (id : RunId) : runKey r ≠ idKey id := by
  have hrun : bytesOf "run:" = 114 :: [117, 110, 58] := by decide +kernel
  have hid : bytesOf "id:" = 105 :: [100, 58] := by decide +kernel
  rw [runKey_eq, idKey, hrun, hid, List.cons_append, List.cons_append]
  intro h
  exact absurd (List.cons.inj h).1 (by decide)

/-! ## Listings -/

def listStart (image : String) : Key :=
  bytesOf "run:" ++ if image = "" then [] else bytesOf image ++ [mark]

/-- The two bounds of a scan hold exactly the keys that begin with the name and the mark: the upper
bound has the next byte in place of the mark. -/
theorem bounds_iff (s : String) (k : Key) :
    ¬ k < bytesOf (s ++ ":") ∧ k < bytesOf (s ++ ";") ↔ bytesOf (s ++ ":") <+: k := by
  have hnext : bytesOf ";" = [mark + 1] := by decide +kernel
  rw [bytesOf_append, bytesOf_append, bytesOf_mark, hnext]
  exact Bytes.between_iff (by decide)

/-- The entries that a listing for an image shows. -/
def Shows (image : String) (f : Key × Entry → Option Record) : Prop :=
  (∀ k k', f (k, .index k') = none) ∧
    ∀ k r r', f (k, .run r) = some r' ↔ listStart image <+: k ∧ r = r'

/-- A listing has the runs whose keys begin in the right way. -/
theorem list_eq (j : Journal) (image : String) :
    ∃ f, Shows image f ∧ j.list image = j.entries.filterMap f := by
  have shows_ite : ∀ {P : Prop} [Decidable P] {Q : Prop} {r r' : Record}, (P ↔ Q) →
      ((if P then some r else none) = some r' ↔ Q ∧ r = r') := by
    intro P _ Q r r' h
    rw [Option.ite_none_right_eq_some, h, Option.some.injEq]
  unfold list
  by_cases himage : image = ""
  · rw [if_pos himage]
    refine ⟨_, ⟨fun _ _ => rfl, fun k r r' => shows_ite ?_⟩, rfl⟩
    rw [listStart, if_pos himage, List.append_nil]
    exact bounds_iff "run" k
  · rw [if_neg himage]
    refine ⟨_, ⟨fun _ _ => rfl, fun k r r' => shows_ite ?_⟩, rfl⟩
    rw [listStart, if_neg himage, ← bytesOf_mark, ← bytesOf_append, ← bytesOf_append,
      ← String.append_assoc]
    exact bounds_iff ("run:" ++ image) k

/-- What a listing has: the runs whose key begins as asked. -/
theorem mem_list {j : Journal} {image : String} :
    r ∈ j.list image ↔ ∃ k, (k, .run r) ∈ j.entries ∧ listStart image <+: k := by
  obtain ⟨f, ⟨hindex, hrun⟩, heq⟩ := list_eq j image
  rw [heq, List.mem_filterMap]
  constructor
  · rintro ⟨⟨k, e⟩, hmem, h⟩
    cases e with
    | index k' =>
      rw [hindex] at h
      cases h
    | run r₁ =>
      obtain ⟨hstart, rfl⟩ := (hrun k r₁ r).mp h
      exact ⟨k, hmem, hstart⟩
  · rintro ⟨k, hmem, hstart⟩
    exact ⟨(k, .run r), hmem, (hrun k r r).mpr ⟨hstart, rfl⟩⟩

/-- A listing is in the order of the run keys. -/
theorem pairwise_list {j : Journal} (ordered : Ordered j.entries)
    (keyed : ∀ k r, (k, .run r) ∈ j.entries → k = runKey r) (image : String) :
    (j.list image).Pairwise fun a b => runKey a < runKey b := by
  obtain ⟨f, ⟨hindex, hrun⟩, heq⟩ := list_eq j image
  rw [heq, List.pairwise_filterMap]
  have shown : ∀ {k e a}, f (k, e) = some a → e = .run a := by
    intro k e a h
    cases e with
    | index k' =>
      rw [hindex] at h
      cases h
    | run a' => rw [((hrun k a' a).mp h).2]
  refine List.Pairwise.imp_of_mem ?_ ordered
  rintro ⟨k, e⟩ ⟨k', e'⟩ hmem hmem' hlt a ha b hb
  cases shown ha
  cases shown hb
  rwa [keyed k a hmem, keyed k' b hmem'] at hlt

/-- Every run key is listed when no image is named. -/
theorem listStart_of_runKey (r : Record) : listStart "" <+: runKey r := by
  rw [runKey_eq, listStart, if_pos rfl, List.append_nil]
  exact List.prefix_append _ _

/-- The run keys that are listed for an image are those of the image: a colon ends its name. -/
theorem listStart_prefix_iff {image : String} (hne : image ≠ "") (hq : ':' ∉ image.toList)
    (hr : ':' ∉ r.image.toList) : listStart image <+: runKey r ↔ r.image = image := by
  rw [runKey_eq, listStart, if_neg hne, List.prefix_append_right_inj,
    Bytes.prefix_mark_iff (mark_not_mem_bytesOf hq) (mark_not_mem_bytesOf hr)]
  exact ⟨fun h => (bytesOf_inj h).symm, fun h => congrArg bytesOf h.symm⟩

/-! ## The order of run keys -/

/-- The point in time in nanoseconds since the start of 1970. -/
def instant (t : Time.Timestamp) : Int := t.seconds * 1000000000 + t.nanos

/-- A start that is not before 1970 and fits in 64 bits, which lasts until 2554. -/
def Dated (t : Time.Timestamp) : Prop := 0 ≤ instant t ∧ instant t < 2 ^ 64

/-- A dated start is kept in the stamp without a loss. -/
theorem toNat_unixNanos {t : Time.Timestamp} (h : Dated t) :
    (t.unixNanos.toNat : Int) = instant t := by
  obtain ⟨hlow, hhigh⟩ := h
  unfold Time.Timestamp.unixNanos UInt64.ofInt
  rw [UInt64.toNat_ofNat']
  unfold instant at *
  omega

def Earlier (r r' : Record) : Prop :=
  instant r.started < instant r'.started ∨
    instant r.started = instant r'.started ∧ r.id.bytes.toList < r'.id.bytes.toList

/-- Stamps are ordered as the starts are, and as the names at one start. -/
theorem stamp_lt_iff (hr : Dated r.started) (hr' : Dated r'.started) :
    stamp r < stamp r' ↔ Earlier r r' := by
  have htime := toNat_unixNanos hr
  have htime' := toNat_unixNanos hr'
  have hlt := r.started.unixNanos.toNat_lt
  have hlt' := r'.started.unixNanos.toNat_lt
  -- A dated instant is not cut, so its eight bytes determine it.
  have hsame : Cbor.bigEndian 8 r.started.unixNanos.toNat =
      Cbor.bigEndian 8 r'.started.unixNanos.toNat
      ↔ instant r.started = instant r'.started := by
    constructor
    · intro h
      have := Bytes.bigEndian_inj h
      omega
    · intro h
      congr 1
      omega
  have hearlier : r.started.unixNanos.toNat % 256 ^ 8 < r'.started.unixNanos.toNat % 256 ^ 8 ↔
      instant r.started < instant r'.started := by
    omega
  unfold stamp Earlier
  rw [Bytes.append_lt_append_iff (by simp), Bytes.bigEndian_lt_iff, hsame, hearlier]

/-- Runs of one image are in the order of their starts. -/
theorem runKey_lt_iff_of_image (himage : r.image = r'.image) (hr : Dated r.started)
    (hr' : Dated r'.started) : runKey r < runKey r' ↔ Earlier r r' := by
  rw [runKey_eq, runKey_eq, himage, ← stamp_lt_iff hr hr', Bytes.append_lt_append_iff rfl,
    Bytes.append_lt_append_iff rfl, List.cons_lt_cons_iff]
  simp [List.lt_irrefl]

/-- Runs of different images are in the order of the images. -/
theorem runKey_lt_iff_of_image_ne (hne : r.image ≠ r'.image) (hr : ':' ∉ r.image.toList)
    (hr' : ':' ∉ r'.image.toList) :
    runKey r < runKey r' ↔ bytesOf r.image ++ [mark] < bytesOf r'.image ++ [mark] := by
  have apart : ∀ {s t : String}, s ≠ t → ':' ∉ s.toList → ':' ∉ t.toList →
      ¬ bytesOf s ++ [mark] <+: bytesOf t ++ [mark] := by
    intro s t hst hs ht h
    exact hst (bytesOf_inj ((Bytes.prefix_mark_iff (mark_not_mem_bytesOf hs)
      (mark_not_mem_bytesOf ht)).mp h))
  rw [runKey_eq, runKey_eq, Bytes.append_lt_append_iff rfl, List.append_cons,
    List.append_cons (bytesOf r'.image),
    Bytes.append_lt_append_of_apart (apart hne hr hr') (apart (Ne.symm hne) hr' hr)]
  simp [List.lt_irrefl]

end BlockVM.Journal
