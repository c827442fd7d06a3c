import BlockVM.Proofs.Image.Damage

/-!
# Truncated files

All places that are read in a file follow from numbers in its fields. `decodeChecked` is a reading
in which every slice is checked against the bytes that are there, and aborts if it leaves them.
`decodeChecked_eq` says that it never does: the reading is the one that checks nothing. What a file
says about its own length is exact, too. Without its last bytes it is reported as truncated, and
what stands behind its end is not read.
-/

namespace BlockVM.Image

variable {c : Codec} {b : List UInt8}

/-! ## Slices that are checked -/

def cut (b : List UInt8) (lo hi : Nat) : Except Stop (List UInt8) :=
  if lo ≤ hi ∧ hi ≤ b.length then .ok (slice b lo (hi - lo)) else .error (.abort none)

def byteAt (b : List UInt8) (i : Nat) : Except Stop UInt8 :=
  if i < b.length then .ok (b.getD i 0) else .error (.abort none)

def headerChecked (b : List UInt8) : Except Stop Header :=
  return {
    stackSize := LittleEndian.toUInt32 (← cut b 5 9)
    dataSize := LittleEndian.toUInt32 (← cut b 9 13)
    codeStart := LittleEndian.toUInt32 (← cut b 13 17)
    param := LittleEndian.toUInt64 (← cut b 17 25) }

def fieldsChecked (b : List UInt8) : Except Stop Fields :=
  return {
    mark := ← cut b 0 4
    version := ← byteAt b 4
    header := ← headerChecked b
    data := (← byteAt b 25).toNat
    parity := (← byteAt b 26).toNat
    size := LittleEndian.value (← cut b 27 31)
    digest := ← cut b 31 (31 + digestSize) }

/-- Shard `i` of `count`, if it matches its digest. -/
def shardChecked (c : Codec) (b : List UInt8) (count size i : Nat) :
    Except Stop (Option (List UInt8)) := do
  let start := fixedSize + count * digestSize + i * size
  let shard ← cut b start (start + size)
  let digest ← cut b (fixedSize + i * digestSize) (fixedSize + i * digestSize + digestSize)
  return if c.digest shard = digest then some shard else none

def ofPayloadChecked (header : Header) (p : List UInt8) : Except Stop Program := do
  if p.length < 8 then throw (.failure (.cause .payloadLengths))
  let code := LittleEndian.value (← cut p 0 4)
  let global := LittleEndian.value (← cut p 4 8)
  if p.length ≠ 8 + code + global then
    throw (.failure (.detailed (.cause .payloadLengths)
      ("code " ++ toString code ++ " + global " ++ toString global ++ " in "
        ++ toString (p.length - 8) ++ " bytes")))
  return ⟨header, (← cut p 8 (8 + code)).toArray, ← cut p (8 + code) p.length⟩

/-- The program in a file, read by slices that are checked. -/
def decodeChecked (c : Codec) (b : List UInt8) : Except Stop Program := do
  if b.length < fixedSize then throw (.failure (.cause .imageTruncated))
  let f ← fieldsChecked b
  if f.mark ≠ mark then throw (.failure (.cause .badMagic))
  if f.version ≠ version then
    throw (.failure (.detailed (.cause .imageVersion) (toString f.version.toNat)))
  if f.data = 0 then throw (.failure (.detailed (.cause .imageTruncated) "no data shards"))
  if b.length < f.extent then throw (.failure (.cause .imageTruncated))
  let shards ← (List.range f.count).mapM (shardChecked c b f.count f.shard)
  let data ← (dataOf c f.data shards).mapError .failure
  let compressed ← (join f.size data).mapError .failure
  if c.digest compressed ≠ f.digest then throw (.failure (.cause .imageUnrecoverable))
  match c.decompress? compressed with
  | none => throw (.failure (.within "decompressing payload" (.cause .decompression)))
  | some p => ofPayloadChecked f.header p

/-- A checked slice that ends in the file is the slice. -/
theorem cut_eq {lo n hi : Nat} (hn : hi = lo + n) (h : hi ≤ b.length) :
    cut b lo hi = .ok (slice b lo n) := by
  subst hn
  rw [cut, if_pos ⟨Nat.le_add_right lo n, h⟩, Nat.add_sub_cancel_left]

theorem byteAt_eq {i : Nat} (h : i < b.length) : byteAt b i = .ok (b.getD i 0) := if_pos h

/-- A file with room for the fixed part has a header. -/
theorem headerChecked_eq (h : fixedSize ≤ b.length) :
    headerChecked b = .ok (headerOf (b.drop 5)) := by
  have long : 63 ≤ b.length := h
  simp only [headerChecked, headerOf, slice_drop, cut_eq (n := 4) rfl (show 9 ≤ b.length by omega),
    cut_eq (n := 4) rfl (show 13 ≤ b.length by omega),
    cut_eq (n := 4) rfl (show 17 ≤ b.length by omega),
    cut_eq (n := 8) rfl (show 25 ≤ b.length by omega), bind, Except.bind, pure, Except.pure,
    Nat.add_zero, Nat.reduceAdd]

/-- The fields stand in the first bytes. -/
theorem fieldsChecked_eq (h : fixedSize ≤ b.length) : fieldsChecked b = .ok (fieldsOf b) := by
  have long : 63 ≤ b.length := h
  simp only [fieldsChecked, fieldsOf, headerChecked_eq h,
    cut_eq (n := 4) rfl (show 4 ≤ b.length by omega), byteAt_eq (show 4 < b.length by omega),
    byteAt_eq (show 25 < b.length by omega), byteAt_eq (show 26 < b.length by omega),
    cut_eq (n := 4) rfl (show 31 ≤ b.length by omega),
    cut_eq (n := digestSize) rfl (show 31 + digestSize ≤ b.length from h), bind, Except.bind, pure,
    Except.pure]

/-- All shards and their digests stand in front of the end that the fields tell. -/
theorem shardsChecked_eq {f : Fields} (h : f.extent ≤ b.length) :
    (List.range f.count).mapM (shardChecked c b f.count f.shard) =
      .ok (intactShards c b f.count f.shard) := by
  have each : ∀ i ∈ List.range f.count, shardChecked c b f.count f.shard i =
      .ok (if c.digest (shardAt b f.count f.shard i) = digestAt b i then
        some (shardAt b f.count f.shard i) else none) := by
    intro i hi
    have hi := List.mem_range.mp hi
    have hshard := shard_le_extent hi
    have hdigest := digest_le_extent hi
    simp only [shardChecked, cut_eq (n := f.shard) rfl
      (show fixedSize + f.count * digestSize + i * f.shard + f.shard ≤ b.length by omega),
      cut_eq (n := digestSize) rfl
        (show fixedSize + i * digestSize + digestSize ≤ b.length by omega), bind, Except.bind, pure,
      Except.pure]
    rfl
  exact mapM_eq_ok each

/-- The checks of a payload fail exactly where its reading does, and never reach outside. -/
theorem ofPayloadChecked_eq (header : Header) (p : List UInt8) :
    ofPayloadChecked header p = (ofPayload header p).mapError .failure := by
  unfold ofPayloadChecked ofPayload
  -- The checks that come before a cut leave it inside the payload, so no cut aborts.
  by_cases short : p.length < 8
  · rw [if_pos short, if_pos short]
    rfl
  · rw [if_neg short, if_neg short, cut_eq (n := 4) rfl (by omega), cut_eq (n := 4) rfl (by omega)]
    dsimp only [bind, Except.bind]
    by_cases lengths : p.length ≠
      8 + LittleEndian.value (slice p 0 4) + LittleEndian.value (slice p 4 4)
    · rw [if_pos lengths, if_pos lengths]
      rfl
    · rw [if_neg lengths, if_neg lengths,
        cut_eq (n := LittleEndian.value (slice p 0 4)) rfl (by omega),
        cut_eq (n := p.length - (8 + LittleEndian.value (slice p 0 4))) (by omega) (Nat.le_refl _)]
      have all : slice p (8 + LittleEndian.value (slice p 0 4))
          (p.length - (8 + LittleEndian.value (slice p 0 4))) =
            p.drop (8 + LittleEndian.value (slice p 0 4)) := by
        rw [slice, List.take_of_length_le (by rw [List.length_drop])]
      rw [all]
      rfl

/-- No slice of a reading leaves the file. -/
theorem decodeChecked_eq (c : Codec) (b : List UInt8) :
    decodeChecked c b = (decode c b).mapError .failure := by
  unfold decodeChecked decode
  refine ensure_translate fun long => ?_
  rw [fieldsChecked_eq (Nat.le_of_not_lt long)]
  dsimp only [ok_bind]
  -- The mark, the version and the number of data shards.
  refine ensure_translate fun _ => ensure_translate fun _ => ensure_translate fun _ => ?_
  refine ensure_translate fun complete => ?_
  rw [shardsChecked_eq (Nat.le_of_not_lt complete)]
  dsimp only [ok_bind]
  refine bind_translate rfl fun data => bind_translate rfl fun compressed => ?_
  refine ensure_translate fun _ => ?_
  cases c.decompress? compressed with
  | none => rfl
  | some p => exact ofPayloadChecked_eq _ p

/-! ## Where a file ends -/

/-- The places in a file are far from the largest number. -/
theorem extent_lt (b : List UInt8) : (fieldsOf b).extent < 2 ^ 63 := by
  have data := (b.getD 25 0).toNat_lt
  have parity := (b.getD 26 0).toNat_lt
  have size := value_slice_lt b 27 4
  have shard : (fieldsOf b).shard ≤ 2 ^ 33 := by
    refine Nat.le_trans (Nat.div_le_self _ _) ?_
    show LittleEndian.value (slice b 27 4) + (b.getD 25 0).toNat - 1 ≤ 2 ^ 33
    omega
  have count : (fieldsOf b).count ≤ 510 := by
    show (b.getD 25 0).toNat + (b.getD 26 0).toNat ≤ 510
    omega
  have shards := Nat.mul_le_mul count shard
  have digests := Nat.mul_le_mul_right digestSize count
  have fixed : fixedSize = 63 := rfl
  rw [Fields.extent]
  rw [show digestSize = 32 from rfl] at digests ⊢
  omega

/-- A prefix agrees with the file as far as it goes. -/
theorem agreeOn_initial {pre : List UInt8} (h : pre <+: b) {lo hi : Nat} (hhi : hi ≤ pre.length) :
    AgreeOn pre b lo hi := by
  obtain ⟨rest, rfl⟩ := h
  intro i _ hi
  exact (List.getElem?_append_left (by omega)).symm

/-- A file that is read is read in the same way whatever follows it. -/
theorem decode_append {q : Program} (h : decode c b = .ok q) (rest : List UInt8) :
    decode c (b ++ rest) = .ok q := by
  obtain ⟨compressed, payload, reads, hof⟩ := decode_eq_ok.mp h
  -- Only bytes in front of the end are looked at, and those are the same.
  have agree (lo hi : Nat) (hhi : hi ≤ b.length) : AgreeOn b (b ++ rest) lo hi :=
    agreeOn_initial (List.prefix_append b rest) hhi
  have long := reads.long
  have fields : fieldsOf b = fieldsOf (b ++ rest) := (agree 0 fixedSize long).fieldsOf
  have counts : 31 ≤ b.length := Nat.le_trans (by decide) long
  have gathered : gather c b = gather c (b ++ rest) :=
    gather_congr (agree 25 31 counts) (agree _ _ reads.complete)
  obtain ⟨-, hmark, hversion, sharded, complete, found, digest, decompressed⟩ := reads
  rw [fields] at hmark hversion sharded complete digest hof
  rw [gathered] at found
  have grows : b.length ≤ (b ++ rest).length := by
    rw [List.length_append]
    omega
  exact decode_eq_ok.mpr ⟨compressed, payload, ⟨Nat.le_trans long grows, hmark, hversion, sharded,
    Nat.le_trans complete grows, found, digest, decompressed⟩, hof⟩

/-- A file that ends before its fields say so is truncated. -/
theorem decode_of_short (h : fixedSize ≤ b.length → (fieldsOf b).mark = mark ∧
    (fieldsOf b).version = version ∧ (fieldsOf b).data ≠ 0 ∧ b.length < (fieldsOf b).extent) :
    decode c b = .error (.cause .imageTruncated) := by
  unfold decode
  by_cases long : b.length < fixedSize
  · rw [if_pos long]
    rfl
  · obtain ⟨hmark, hversion, hdata, short⟩ := h (Nat.le_of_not_lt long)
    rw [if_neg long]
    refine (if_neg (not_not_intro hmark)).trans ((if_neg (not_not_intro hversion)).trans ?_)
    exact (if_neg hdata).trans (if_pos short)

variable {p : Program}

section Encoded

variable (hdigest : ∀ x, (c.digest x).length = digestSize) (parity : c.HasParity p)
  (hsize : (c.compress (payload p)).length < 2 ^ 32)

include hdigest parity hsize

/-- An image ends where its fields say so. -/
theorem extent_encode : (fieldsOf (encode c p)).extent = (encode c p).length := by
  rw [length_encode hdigest parity, fieldsOf_encode hdigest]
  unfold Fields.extent Fields.count Fields.shard Fields.ofProgram shardSizeOf
  dsimp only
  rw [Nat.mod_eq_of_lt hsize]

/-- An image without its last bytes is truncated. -/
theorem decode_initial {pre : List UInt8} (hpre : pre <+: encode c p) (proper : pre ≠ encode c p) :
    decode c pre = .error (.cause .imageTruncated) := by
  have shorter : pre.length < (encode c p).length := by
    refine Nat.lt_of_le_of_ne hpre.length_le fun same => proper (hpre.eq_of_length same)
  refine decode_of_short fun long => ?_
  -- The fields are whole, so they tell the length of the whole image.
  have fields : fieldsOf pre = fieldsOf (encode c p) := (agreeOn_initial hpre long).fieldsOf
  rw [fields, extent_encode hdigest parity hsize, fieldsOf_encode hdigest]
  exact ⟨rfl, rfl, (show dataShards ≠ 0 by decide), shorter⟩

end Encoded

/-- A program is read from its image. -/
theorem decode_encode (laws : c.Restores p) (hcode : p.code.size < 2 ^ 32)
    (hglobal : p.global.length < 2 ^ 32) (hsize : (c.compress (payload p)).length < 2 ^ 32) :
    decode c (encode c p) = .ok p := by
  obtain ⟨fields, reads⟩ := (damaged_encode c p).reads laws hsize
  refine decode_eq_ok.mpr ⟨_, _, reads, ?_⟩
  rw [fields]
  exact ofPayload_payload p.header p hcode hglobal

/-- A reading gives a program or fails, whatever the codec: no slice leaves the file, and no place
in it is too large for a number. An image without its last bytes is truncated, and what follows an
image does not count. -/
theorem decode_keeps_to_length (c : Codec) :
    (∀ b, decodeChecked c b = (decode c b).mapError .failure ∧ (fieldsOf b).extent < 2 ^ 63) ∧
    ∀ p, c.Restores p → p.code.size < 2 ^ 32 → p.global.length < 2 ^ 32 →
      (c.compress (payload p)).length < 2 ^ 32 →
      (∀ pre, pre <+: encode c p → pre ≠ encode c p →
        decode c pre = .error (.cause .imageTruncated)) ∧
      ∀ rest, decode c (encode c p ++ rest) = .ok p := by
  refine ⟨fun b => ⟨decodeChecked_eq c b, extent_lt b⟩, fun p laws hcode hglobal hsize => ⟨?_, ?_⟩⟩
  · exact fun _ hpre proper => decode_initial laws.digest laws.parity hsize hpre proper
  · exact decode_append (decode_encode laws hcode hglobal hsize)

/-- An image of one instruction, without its last byte and with one more. -/
theorem decode_keeps_to_length_returning :
    decode .standard (encode .standard returning).dropLast = .error (.cause .imageTruncated) ∧
      decode .standard (encode .standard returning ++ [0]) = .ok returning := by
  have small : (Zstd.compress (payload returning)).length < 2 ^ 32 := by
    rw [compress_returning]
    decide
  obtain ⟨truncated, extended⟩ := (decode_keeps_to_length .standard).2 returning
    restores_returning (by decide) (by decide) small
  refine ⟨truncated _ (List.dropLast_prefix _) fun same => ?_, extended [0]⟩
  have long := congrArg List.length same
  rw [List.length_dropLast, length_encode restores_returning.digest restores_returning.parity]
    at long
  have : fixedSize = 63 := rfl
  omega

end BlockVM.Image
