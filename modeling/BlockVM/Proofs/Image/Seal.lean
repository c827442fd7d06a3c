import Mathlib.Data.Set.Function
import BlockVM.Proofs.Image.Damage

/-!
# Sealed files

The header and the payload digest say which program a file holds. `decode_sealed` says that a
reading gives that program or fails, whatever the other fields, the digests and the shards of the
file are: the digest of the whole payload is compared after all repairs.
-/

namespace BlockVM.Image

variable {c : Codec} {p : Program} {b : List UInt8}

/-- The file has the mark, the version, the header and the payload digest of the image of `p`, as
far as it reaches. -/
def Sealed (c : Codec) (p : Program) (b : List UInt8) : Prop :=
  ∀ i < b.length, i < 25 ∨ 31 ≤ i ∧ i < fixedSize → b[i]? = (encode c p)[i]?

/-- Whatever the rest of a file says, a reading gives the program whose header and payload digest it
has, or it fails. -/
theorem decode_sealed (hdigest : ∀ x, (c.digest x).length = digestSize)
    (decompress : c.decompress? (c.compress (payload p)) = some (payload p))
    (distinct : Set.InjOn c.digest {x | x = c.compress (payload p) ∨ gather c b = .ok x})
    (h : Sealed c p b) : (∃ e, decode c b = .error e) ∨ decode c b = .ok p := by
  cases hq : decode c b with
  | error e => exact .inl ⟨e, rfl⟩
  | ok q =>
    obtain ⟨compressed, found, reads, hof⟩ := decode_eq_ok.mp hq
    have fields := fieldsOf_encode hdigest p
    have front : AgreeOn b (encode c p) 5 25 := by
      intro i _ hi
      exact h i (Nat.lt_of_lt_of_le (Nat.lt_trans hi (by decide)) reads.long) (.inl hi)
    have digests : AgreeOn b (encode c p) 31 fixedSize := by
      intro i hlo hi
      exact h i (Nat.lt_of_lt_of_le hi reads.long) (.inr ⟨hlo, hi⟩)
    have header : (fieldsOf b).header = p.header :=
      front.headerOf.trans (congrArg Fields.header fields)
    have digest : (fieldsOf b).digest = c.digest (c.compress (payload p)) :=
      (digests.slice 31 digestSize (by decide) (by decide)).trans (congrArg Fields.digest fields)
    -- This is the only place that needs the digest: two inputs
    -- with the digest of the file are equal.
    have same : compressed = c.compress (payload p) :=
      distinct (.inr reads.gathered) (.inl rfl) (reads.digest.trans digest)
    have payload_eq : found = payload p := by
      have := reads.decompressed
      rw [same, decompress] at this
      exact (Option.some.inj this).symm
    rw [payload_eq, header] at hof
    obtain ⟨hcode, hglobal⟩ := lengths_of_ofPayload p.header p hof
    rw [ofPayload_payload p.header p hcode hglobal] at hof
    exact .inr (congrArg Except.ok (Except.ok.inj hof).symm)

/-- A program that does nothing before it returns. -/
def idling : Program where
  header := ⟨64, 64, 0, 0⟩
  code := #[0x7d, 0x01, 0x86, 0x01]
  global := []

theorem compress_idling : Zstd.compress (payload idling) =
    [40, 181, 47, 253, 4, 0, 97, 0, 0, 4, 0, 0, 0, 0, 0, 0, 0, 125, 1, 134, 1, 137, 25, 114,
      28] := by
  unfold Zstd.compress
  rw [Zstd.storedBlocks, dif_pos (by decide)]
  decide +kernel

theorem restores_idling : Codec.standard.Restores idling := by
  apply standard_restores
  rw [compress_idling]
  decide +kernel

/-- The shards of `idling`, with the header and the payload digest of `returning`. -/
def forged : List UInt8 :=
  (List.range (encode .standard idling).length).map fun i =>
    if i < 25 ∨ 31 ≤ i ∧ i < fixedSize then (encode .standard returning).getD i 0
    else (encode .standard idling).getD i 0

/-- The forged file byte by byte: header and payload digest of one image, all else of another. -/
theorem getElem?_forged {i : Nat} (h : i < (encode .standard idling).length) :
    forged[i]? = some (if i < 25 ∨ 31 ≤ i ∧ i < fixedSize then
      (encode .standard returning).getD i 0 else (encode .standard idling).getD i 0) := by
  rw [forged, List.getElem?_map, List.getElem?_range h]
  rfl

theorem sealed_forged : Sealed .standard returning forged := by
  intro i hi field
  have laws := restores_returning
  have long : i < (encode .standard returning).length := by
    rw [length_encode laws.digest laws.parity]
    rcases field with hlt | ⟨-, hlt⟩
    · have : 25 < fixedSize := by decide
      omega
    · omega
  rw [forged, List.length_map, List.length_range] at hi
  rw [getElem?_forged hi, if_pos field, List.getD_eq_getElem _ _ long,
    List.getElem?_eq_getElem long]

/-- Its shards are whole, so the payload of the second image is gathered. -/
theorem gather_forged : gather .standard forged = .ok (Zstd.compress (payload idling)) := by
  have outside (i : Nat) (h : ¬ (i < 25 ∨ 31 ≤ i ∧ i < fixedSize)) :
      forged[i]? = (encode .standard idling)[i]? := by
    by_cases hi : i < (encode .standard idling).length
    · rw [getElem?_forged hi, if_neg h, List.getD_eq_getElem _ _ hi, List.getElem?_eq_getElem hi]
    · rw [List.getElem?_eq_none (by simpa [forged] using hi), List.getElem?_eq_none (by omega)]
  have small : (Zstd.compress (payload idling)).length < 2 ^ 32 := by
    rw [compress_idling]
    decide
  have fixed : 31 < fixedSize := by decide
  have same : gather .standard forged = gather .standard (encode .standard idling) :=
    gather_congr (fun i hlo hhi => outside i (by omega)) fun i hlo _ => outside i (by omega)
  rw [same]
  exact ((damaged_encode .standard idling).reads restores_idling small).2.gathered

/-- The payloads of the two images have different digests. -/
theorem digest_idling : Blake2b.digest (Zstd.compress (payload idling)) ≠
    Blake2b.digest (Zstd.compress (payload returning)) := by
  rw [compress_idling, compress_returning, digest_of_short (by decide),
    digest_of_short (by decide)]
  decide +kernel

/-- A file with the seal of one image and the shards of another is refused, or decodes to the
first. -/
theorem decode_sealed_forged : gather .standard forged = .ok (Zstd.compress (payload idling)) ∧
    Sealed .standard returning forged ∧
    ((∃ e, decode .standard forged = .error e) ∨ decode .standard forged = .ok returning) := by
  refine ⟨gather_forged, sealed_forged, decode_sealed Blake2b.length_digest
    restores_returning.decompress ?_ sealed_forged⟩
  rw [gather_forged]
  rintro x (rfl | hx) y (rfl | hy) same
  · rfl
  · cases hy
    exact absurd same.symm digest_idling
  · cases hx
    exact absurd same digest_idling
  · cases hx
    cases hy
    rfl

end BlockVM.Image
