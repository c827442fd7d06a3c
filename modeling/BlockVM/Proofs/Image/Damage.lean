import Mathlib.Data.Finset.Card
import BlockVM.Proofs.Image.Fields
import BlockVM.Proofs.ReedSolomon.Repair

/-!
# Damaged images

An image is read back as long as no more shards are damaged than there are parity shards, and every
damage shows in a digest: `decode_damaged`. It rests on laws of the codec for the strings of that
image only; `standard_restores` says that the standard codec keeps them.
-/

namespace BlockVM.Image

open ReedSolomon (Intact)

variable {c : Codec} {p : Program} {b : List UInt8}

/-- What a codec has to do for the image of `p`: it gives the payload back, and the data shards from
as many shards as there are data shards. A compressed payload is never empty: nothing cannot be cut
into shards that join again. -/
structure Codec.Restores (c : Codec) (p : Program) : Prop where
  digest : ∀ x, (c.digest x).length = digestSize
  compressed : c.compress (payload p) ≠ []
  decompress : c.decompress? (c.compress (payload p)) = some (payload p)
  parity : c.HasParity p
  repair : ∀ known, Intact known (shardsOf c p) → dataShards ≤ (known.filter (·.isSome)).length →
    c.repair dataShards known = .ok (dataShardsOf c p)

/-- Shard `i` of a file that is cut up as the image of `p` is. -/
def shardIn (c : Codec) (p : Program) (b : List UInt8) (i : Nat) : List UInt8 :=
  shardAt b (dataShards + parityShards) (shardSizeOf c p) i

/-- The file is the image of `p`, but for some shards and their digests. These are no more than
there are parity shards, and none of them matches its digest. -/
structure Damaged (c : Codec) (p : Program) (b : List UInt8) (touched : Finset Nat) : Prop where
  length : b.length = (encode c p).length
  fields : AgreeOn b (encode c p) 0 fixedSize
  few : touched.card ≤ parityShards
  spared : ∀ i < dataShards + parityShards, i ∉ touched →
    digestAt b i = digestAt (encode c p) i ∧ shardIn c p b i = shardIn c p (encode c p) i
  shows : ∀ i ∈ touched, c.digest (shardIn c p b i) ≠ digestAt b i

/-- An image that was not damaged. -/
theorem damaged_encode (c : Codec) (p : Program) : Damaged c p (encode c p) ∅ where
  length := rfl
  fields := fun _ _ _ => rfl
  few := Nat.zero_le _
  spared := fun _ _ _ => ⟨rfl, rfl⟩
  shows := fun _ h => absurd h (Finset.notMem_empty _)

/-- The shards that a reading finds in such a file. -/
def foundIn (c : Codec) (p : Program) (b : List UInt8) : List (Option (List UInt8)) :=
  intactShards c b (dataShards + parityShards) (shardSizeOf c p)

theorem length_foundIn : (foundIn c p b).length = dataShards + parityShards := by
  rw [foundIn, intactShards, List.length_map, List.length_range]

/-- A shard is found exactly if its digest is the recorded one. -/
theorem getElem?_foundIn {i : Nat} (hi : i < dataShards + parityShards) :
    (foundIn c p b)[i]? =
      some (if c.digest (shardIn c p b i) = digestAt b i then some (shardIn c p b i)
      else none) := by
  rw [foundIn, intactShards, List.getElem?_map, List.getElem?_range hi]
  rfl

namespace Damaged

variable {touched : Finset Nat} (h : Damaged c p b touched)

include h

/-- A shard that was touched is missing. -/
theorem missing {i : Nat} (hi : i < dataShards + parityShards) (touch : i ∈ touched) :
    (foundIn c p b)[i]? = some none := by
  rw [getElem?_foundIn hi, if_neg (h.shows i touch)]

variable (laws : c.Restores p)

include laws

/-- A shard that was spared is found. -/
theorem found {i : Nat} {s : List UInt8} (hs : (shardsOf c p)[i]? = some s)
    (spared : i ∉ touched) : (foundIn c p b)[i]? = some (some s) := by
  have hi : i < dataShards + parityShards := by
    rw [← laws.parity.length_shardsOf]
    exact (List.getElem?_eq_some_iff.mp hs).1
  obtain ⟨hdigest, hshard⟩ := h.spared i hi spared
  rw [getElem?_foundIn hi, hdigest, hshard, digestAt_encode laws.digest hs, shardIn,
    shardAt_encode laws.digest laws.parity hs, if_pos rfl]

/-- What is found is intact: a touched shard shows its damage, and is not found. -/
theorem intact : Intact (foundIn c p b) (shardsOf c p) := by
  refine ⟨length_foundIn.trans laws.parity.length_shardsOf.symm, fun i s found => ?_⟩
  have hi : i < dataShards + parityShards := by
    rw [← length_foundIn (c := c) (p := p) (b := b)]
    exact (List.getElem?_eq_some_iff.mp found).1
  by_cases touch : i ∈ touched
  · rw [h.missing hi touch] at found
    cases found
  · rw [← laws.parity.length_shardsOf] at hi
    have hs := List.getElem?_eq_getElem hi
    rw [h.found laws hs touch] at found
    cases found
    exact hs

/-- Enough shards are found. -/
theorem enough : dataShards ≤ ((foundIn c p b).filter (·.isSome)).length := by
  have missing : ((foundIn c p b).filter fun s => !s.isSome).length ≤ touched.card := by
    rw [foundIn, intactShards, List.filter_map, List.length_map,
      ← List.toFinset_card_of_nodup (List.nodup_range.filter _)]
    refine Finset.card_le_card fun i hi => ?_
    obtain ⟨hrange, hnone⟩ := List.mem_filter.mp (List.mem_toFinset.mp hi)
    have hi := List.mem_range.mp hrange
    by_contra spared
    have found := h.found laws
      (List.getElem?_eq_getElem (by rw [laws.parity.length_shardsOf]; exact hi)) spared
    rw [foundIn, intactShards, List.getElem?_map, List.getElem?_range hi, Option.map_some,
      Option.some.injEq] at found
    rw [Function.comp_apply, found] at hnone
    cases hnone
  have all := List.length_eq_length_filter_add (l := foundIn c p b) (·.isSome)
  have few := h.few
  rw [length_foundIn] at all
  omega

end Damaged

/-- No shard is missing: the shards are the original ones. -/
theorem eq_of_complete {known : List (Option (List UInt8))} {shards : List (List UInt8)}
    (h : Intact known shards) (complete : known.filter (·.isNone) = []) :
    known.map (·.getD []) = shards := by
  apply List.ext_getElem?
  intro i
  rw [List.getElem?_map]
  cases hi : known[i]? with
  | none =>
    rw [List.getElem?_eq_none_iff, h.length, ← List.getElem?_eq_none_iff] at hi
    rw [hi]
    rfl
  | some o =>
    cases o with
    | some s =>
      rw [h.original i s hi]
      rfl
    | none =>
      have gone := List.filter_eq_nil_iff.mp complete _ (List.mem_of_getElem? hi)
      cases gone rfl

/-- The data shards come out of any shards that are enough. -/
theorem dataOf_of_intact (laws : c.Restores p) {known : List (Option (List UInt8))}
    (intact : Intact known (shardsOf c p))
    (enough : dataShards ≤ (known.filter (·.isSome)).length) :
    dataOf c dataShards known = .ok (dataShardsOf c p) := by
  unfold dataOf
  dsimp only
  split
  next complete =>
    have original := eq_of_complete intact (List.length_eq_zero_iff.mp complete)
    rw [List.map_take, original, shardsOf, List.take_left' length_dataShardsOf]
  · rw [laws.repair known intact enough]

theorem shardSize_pos {n : Nat} (h : 0 < n) : 0 < shardSize n dataShards := by
  unfold shardSize dataShards
  omega

/-- The data shards together have room for the whole payload. -/
theorem le_shardSize (n : Nat) : n ≤ shardSize n dataShards * dataShards := by
  unfold shardSize dataShards
  omega

/-- The data shards join to what was split. -/
theorem join_dataShardsOf (some : c.compress (payload p) ≠ []) :
    join (c.compress (payload p)).length (dataShardsOf c p) = .ok (c.compress (payload p)) := by
  have pos := shardSize_pos (List.length_pos_iff.mpr some)
  obtain ⟨pad, hpad⟩ := flatten_split (le_shardSize (c.compress (payload p)).length)
  unfold join
  rw [if_neg, dataShardsOf, hpad, List.take_left]
  intro empty
  obtain ⟨s, hs, hempty⟩ := List.any_eq_true.mp empty
  have hsize := size_split s hs
  rw [List.isEmpty_iff.mp hempty, List.length_nil] at hsize
  omega

/-- A damaged image passes every check. -/
theorem Damaged.reads {touched : Finset Nat} (h : Damaged c p b touched) (laws : c.Restores p)
    (small : (c.compress (payload p)).length < 2 ^ 32) :
    fieldsOf b = .ofProgram c p ∧ Reads c b (c.compress (payload p)) (payload p) := by
  -- The fixed fields are untouched, so the damaged file is read with the sizes of the program.
  have fields : fieldsOf b = .ofProgram c p :=
    h.fields.fieldsOf.trans (fieldsOf_encode laws.digest p)
  have length := h.length.trans (length_encode laws.digest laws.parity)
  have size : (fieldsOf b).size = (c.compress (payload p)).length := by
    rw [fields]
    exact Nat.mod_eq_of_lt small
  have data : (fieldsOf b).data = dataShards := by rw [fields]; rfl
  have count : (fieldsOf b).count = dataShards + parityShards := by rw [fields]; rfl
  have shard : (fieldsOf b).shard = shardSizeOf c p := by rw [Fields.shard, size, data]; rfl
  refine ⟨fields, ?_, ?_, ?_, ?_, ?_, ?_, ?_, laws.decompress⟩
  · omega
  · rw [fields]
    rfl
  · rw [fields]
    rfl
  · rw [data]
    decide
  · rw [count, shard]
    exact Nat.le_of_eq length.symm
  · unfold gather
    dsimp only
    rw [data, count, shard, size]
    exact bind_eq_ok.mpr ⟨_, dataOf_of_intact laws (h.intact laws) (h.enough laws),
      join_dataShardsOf laws.compressed⟩
  · rw [fields]
    rfl

/-- However bytes of shards and shard digests were altered, the program is read back, and has the
same name, if the shards that were touched do not match their digests and are no more than there are
parity shards. -/
theorem decode_damaged {touched : Finset Nat} (laws : c.Restores p) (hcode : p.code.size < 2 ^ 32)
    (hglobal : p.global.length < 2 ^ 32) (hsize : (c.compress (payload p)).length < 2 ^ 32)
    (h : Damaged c p b touched) :
    ∃ q, decode c b = .ok q ∧ q.header = p.header ∧ q.code = p.code ∧ q.global = p.global ∧
      id c q = id c p := by
  obtain ⟨fields, reads⟩ := h.reads laws hsize
  refine ⟨p, decode_eq_ok.mpr ⟨_, _, reads, ?_⟩, rfl, rfl, rfl, rfl⟩
  rw [fields]
  exact ofPayload_payload p.header p hcode hglobal

/-! ## The standard codec -/

/-- The parity code of image files does what it has to. -/
theorem standard_restores (h : Zstd.decompress? (Zstd.compress (payload p)) = some (payload p)) :
    Codec.standard.Restores p := by
  have some : Zstd.compress (payload p) ≠ [] := by
    simp [Zstd.compress, Zstd.frameMark]
  have data : dataShardsOf .standard p ≠ [] := by
    rw [← List.length_pos_iff, length_dataShardsOf]
    decide
  have fit : (dataShardsOf .standard p).length + parityShards ≤ 256 := by
    rw [length_dataShardsOf]
    decide
  refine ⟨Blake2b.length_digest, some, h, ⟨ReedSolomon.length_parity _ _, fun s hs => ?_⟩,
    fun known intact enough => ?_⟩
  · obtain ⟨k, hk⟩ := List.mem_iff_getElem?.mp hs
    exact (ReedSolomon.fits_parity fit size_split data hk).length
  · have repaired := ReedSolomon.repair_of_intact fit size_split data
      (shardSize_pos (List.length_pos_iff.mpr some)) intact
    rw [length_dataShardsOf] at repaired
    exact repaired enough

/-- A program that returns at once. -/
def returning : Program where
  header := ⟨64, 64, 0, 0⟩
  code := #[0x86, 0x01]
  global := []

theorem compress_returning : Zstd.compress (payload returning) =
    [40, 181, 47, 253, 4, 0, 81, 0, 0, 2, 0, 0, 0, 0, 0, 0, 0, 134, 1, 239, 234, 55, 59] := by
  unfold Zstd.compress
  rw [Zstd.storedBlocks, dif_pos (by decide)]
  decide +kernel

theorem restores_returning : Codec.standard.Restores returning := by
  apply standard_restores
  rw [compress_returning]
  decide +kernel

/-- Its image with one bit of the third data shard flipped. -/
def damagedReturning : List UInt8 := (encode .standard returning).set 267 1

/-- The damaged image has one byte changed, so it agrees with the image on every range without
it. -/
theorem agreeOn_damagedReturning {lo hi : Nat} (h : ¬ (lo ≤ 267 ∧ 267 < hi)) :
    AgreeOn damagedReturning (encode .standard returning) lo hi :=
  fun _ _ _ => List.getElem?_set_ne (by omega)

theorem shardSizeOf_returning : shardSizeOf .standard returning = 6 := by
  show shardSize (Zstd.compress (payload returning)).length dataShards = 6
  rw [compress_returning]
  rfl

theorem shard_returning : (shardsOf .standard returning)[2]? = some [0, 0, 0, 0, 0, 134] := by
  rw [shardsOf, List.getElem?_append_left (by rw [length_dataShardsOf]; decide)]
  show (split (shardSizeOf .standard returning) dataShards
    (Zstd.compress (payload returning)))[2]? = _
  rw [shardSizeOf_returning, compress_returning]
  rfl

/-- The digest of a message that is one block. -/
theorem digest_of_short {message : List UInt8} (h : message.length ≤ 128) :
    Blake2b.digest message = ((Blake2b.compress
      (Blake2b.initial.set 0 (Blake2b.initial[0] ^^^ 0x01010020)) (Blake2b.words message)
      message.length true).toList.take 4).flatMap LittleEndian.ofUInt64 := by
  unfold Blake2b.digest
  dsimp only
  rw [Blake2b.absorb, dif_pos h, Nat.zero_add]

/-- The flipped bit shows in the digest of the shard. -/
theorem digest_shard_returning :
    Blake2b.digest [1, 0, 0, 0, 0, 134] ≠ Blake2b.digest [0, 0, 0, 0, 0, 134] := by
  rw [digest_of_short (by decide), digest_of_short (by decide)]
  decide +kernel

/-- One changed byte of a shard damages that shard only. -/
theorem damaged_damagedReturning : Damaged .standard returning damagedReturning {2} := by
  have laws := restores_returning
  -- The changed byte lies behind the digests and outside all shards but the third.
  have digests (i : Nat) (hi : i < 6) :
      digestAt damagedReturning i = digestAt (encode .standard returning) i := by
    unfold digestAt
    rw [show fixedSize = 63 from rfl, show digestSize = 32 from rfl]
    exact (agreeOn_damagedReturning (by omega)).slice _ _ (Nat.le_refl _) (Nat.le_refl _)
  refine ⟨List.length_set, agreeOn_damagedReturning (by decide), by decide, fun i hi spared => ?_,
    fun i touch => ?_⟩
  · rw [Finset.mem_singleton] at spared
    refine ⟨digests i hi, ?_⟩
    unfold shardIn shardAt
    rw [shardSizeOf_returning,
      show fixedSize + (dataShards + parityShards) * digestSize = 255 from rfl]
    exact (agreeOn_damagedReturning (by omega)).slice _ _ (Nat.le_refl _) (Nat.le_refl _)
  · rw [Finset.mem_singleton.mp touch, digests 2 (by decide),
      digestAt_encode laws.digest shard_returning]
    have original := shardAt_encode laws.digest laws.parity shard_returning
    have flipped : shardIn .standard returning damagedReturning 2 = [1, 0, 0, 0, 0, 134] := by
      unfold shardIn
      rw [shardSizeOf_returning] at original ⊢
      show slice (List.set _ 267 1) 267 6 = _
      rw [slice, List.drop_set, if_neg (by decide), List.take_set]
      exact congrArg (·.set 0 1) original
    rw [flipped]
    exact digest_shard_returning

/-- The image with a damaged shard decodes to the same program, with the same name. -/
theorem decode_damaged_returning : ∃ q, decode .standard damagedReturning = .ok q ∧
    q.header = returning.header ∧ q.code = returning.code ∧ q.global = returning.global ∧
    id .standard q = id .standard returning := by
  refine decode_damaged restores_returning (by decide) (by decide) ?_ damaged_damagedReturning
  show (Zstd.compress (payload returning)).length < 2 ^ 32
  rw [compress_returning]
  decide

end BlockVM.Image
