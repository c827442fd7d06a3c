import BlockVM.Image.Decode
import BlockVM.Proofs.Result

/-!
# The fields of an image

Where the fields of an image stand is computed twice: `encode` puts them one after the other, and
`decode` cuts them out again. `fieldsOf_encode`, `digestAt_encode` and `shardAt_encode` say that the
two agree. `decode_eq_ok` takes a reading apart into the checks that it passed.
-/

namespace BlockVM.Image

/-! ## Slices -/

/-- The two byte strings have the same bytes, or none, at the places of `[lo, hi)`. -/
def AgreeOn (b b' : List UInt8) (lo hi : Nat) : Prop := ∀ i, lo ≤ i → i < hi → b[i]? = b'[i]?

theorem getElem?_slice (b : List UInt8) (start n i : Nat) :
    (slice b start n)[i]? = if i < n then b[start + i]? else none := by
  unfold slice
  rw [List.getElem?_take, List.getElem?_drop]

/-- Files that agree on a range have the same slices in it. -/
theorem AgreeOn.slice {b b' : List UInt8} {lo hi : Nat} (h : AgreeOn b b' lo hi) (start n : Nat)
    (hlo : lo ≤ start) (hhi : start + n ≤ hi) : slice b start n = slice b' start n := by
  apply List.ext_getElem?
  intro i
  rw [getElem?_slice, getElem?_slice]
  split
  · exact h _ (by omega) (by omega)
  · rfl

theorem AgreeOn.getD {b b' : List UInt8} {lo hi : Nat} (h : AgreeOn b b' lo hi) (i : Nat)
    (hlo : lo ≤ i) (hhi : i < hi) : b.getD i 0 = b'.getD i 0 := by
  rw [List.getD_eq_getElem?_getD, List.getD_eq_getElem?_getD, h i hlo hhi]

/-- A slice behind `k` bytes lies `k` bytes further on. -/
theorem slice_drop (b : List UInt8) (k start n : Nat) :
    slice (b.drop k) start n = slice b (k + start) n := by
  unfold slice
  rw [List.drop_drop]

theorem slice_front {a : List UInt8} {n : Nat} (h : a.length = n) (rest : List UInt8) :
    slice (a ++ rest) 0 n = a := by
  unfold slice
  rw [List.drop_zero, ← h, List.take_left]

/-- A number is smaller than its width allows. -/
theorem value_slice_lt (b : List UInt8) (start n : Nat) :
    LittleEndian.value (slice b start n) < 256 ^ n :=
  Nat.lt_of_lt_of_le (LittleEndian.value_lt _)
    (Nat.pow_le_pow_right (by decide) (List.length_take_le _ _))

/-- The bytes behind a field of known size. -/
theorem slice_append {a : List UInt8} {k : Nat} (h : a.length = k) (rest : List UInt8)
    (start n : Nat) : slice (a ++ rest) (k + start) n = slice rest start n := by
  rw [← slice_drop, ← h, List.drop_left]

theorem getD_append {a : List UInt8} {k : Nat} (h : a.length = k) (rest : List UInt8) (i : Nat) :
    (a ++ rest).getD (k + i) 0 = rest.getD i 0 := by
  rw [List.getD_eq_getElem?_getD, List.getD_eq_getElem?_getD,
    List.getElem?_append_right (by omega), ← h, Nat.add_sub_cancel_left]

theorem length_flatten {n : Nat} {ls : List (List UInt8)} (hn : ∀ l ∈ ls, l.length = n) :
    ls.flatten.length = ls.length * n := by
  rw [List.length_flatten, List.map_congr_left hn, List.map_const', List.sum_replicate_nat]

/-- Among byte strings of one size in a row, each stands at its place. -/
theorem slice_flatten {n : Nat} {ls : List (List UInt8)} (hn : ∀ l ∈ ls, l.length = n)
    (rest : List UInt8) {i : Nat} {l : List UInt8} (hl : ls[i]? = some l) :
    slice (ls.flatten ++ rest) (i * n) n = l := by
  induction ls generalizing i with
  | nil => cases hl
  | cons a ls ih =>
    obtain ⟨ha, hn⟩ := List.forall_mem_cons.mp hn
    rw [List.flatten_cons, List.append_assoc]
    cases i with
    | zero =>
      cases hl
      rw [Nat.zero_mul]
      exact slice_front ha _
    | succ i =>
      rw [Nat.succ_mul, Nat.add_comm, slice_append ha]
      exact ih hn hl

/-! ## Reading -/

/-- The fields of fixed size. -/
structure Fields where
  mark : List UInt8
  version : UInt8
  header : Header
  data : Nat
  parity : Nat
  size : Nat
  digest : List UInt8

namespace Fields

def count (f : Fields) : Nat := f.data + f.parity

def shard (f : Fields) : Nat := shardSize f.size f.data

end Fields

def fieldsOf (b : List UInt8) : Fields where
  mark := slice b 0 4
  version := b.getD 4 0
  header := headerOf (b.drop 5)
  data := (b.getD 25 0).toNat
  parity := (b.getD 26 0).toNat
  size := LittleEndian.value (slice b 27 4)
  digest := slice b 31 digestSize

theorem AgreeOn.headerOf {b b' : List UInt8} (h : AgreeOn b b' 5 25) :
    headerOf (b.drop 5) = headerOf (b'.drop 5) := by
  unfold Image.headerOf
  simp only [slice_drop]
  rw [h.slice (5 + 0) 4 (by decide) (by decide), h.slice (5 + 4) 4 (by decide) (by decide),
    h.slice (5 + 8) 4 (by decide) (by decide), h.slice (5 + 12) 8 (by decide) (by decide)]

/-- The fixed fields, which tell where everything else lies, depend on the first bytes alone. -/
theorem AgreeOn.fieldsOf {b b' : List UInt8} (h : AgreeOn b b' 0 fixedSize) :
    fieldsOf b = fieldsOf b' := by
  unfold Image.fieldsOf
  have header : AgreeOn b b' 5 25 := fun i hlo hhi =>
    h i (Nat.zero_le i) (Nat.lt_trans hhi (by decide))
  rw [header.headerOf, h.slice 0 4 (by decide) (by decide), h.getD 4 (by decide) (by decide),
    h.getD 25 (by decide) (by decide), h.getD 26 (by decide) (by decide),
    h.slice 27 4 (by decide) (by decide), h.slice 31 digestSize (by decide) (by decide)]

def digestAt (b : List UInt8) (i : Nat) : List UInt8 :=
  slice b (fixedSize + i * digestSize) digestSize

def shardAt (b : List UInt8) (count size i : Nat) : List UInt8 :=
  slice b (fixedSize + count * digestSize + i * size) size

/-- The compressed payload that a file comes to, before it is checked. -/
def gather (c : Codec) (b : List UInt8) : Except Failure (List UInt8) := do
  let f := fieldsOf b
  let shards ← dataOf c f.data (intactShards c b f.count f.shard)
  join f.size shards

/-- A reading that passes all checks up to the payload. -/
structure Reads (c : Codec) (b compressed payload : List UInt8) : Prop where
  long : fixedSize ≤ b.length
  mark : (fieldsOf b).mark = mark
  version : (fieldsOf b).version = version
  sharded : (fieldsOf b).data ≠ 0
  complete : fixedSize + (fieldsOf b).count * digestSize + (fieldsOf b).count * (fieldsOf b).shard
    ≤ b.length
  gathered : gather c b = .ok compressed
  digest : c.digest compressed = (fieldsOf b).digest
  decompressed : c.decompress? compressed = some payload

/-- A reading succeeds where every check is passed. -/
theorem decode_eq_ok {c : Codec} {b : List UInt8} {q : Program} :
    decode c b = .ok q ↔ ∃ compressed payload, Reads c b compressed payload ∧
      ofPayload (fieldsOf b).header payload = .ok q := by
  constructor
  · -- The checks in the order in which they are made.
    intro h
    unfold decode at h
    obtain ⟨long, h⟩ := ensure_eq_ok.mp h
    obtain ⟨hmark, h⟩ := ensure_eq_ok.mp h
    obtain ⟨hversion, h⟩ := ensure_eq_ok.mp h
    obtain ⟨sharded, h⟩ := ensure_eq_ok.mp h
    obtain ⟨complete, h⟩ := ensure_eq_ok.mp h
    obtain ⟨shards, hshards, h⟩ := bind_eq_ok.mp h
    obtain ⟨compressed, hjoin, h⟩ := bind_eq_ok.mp h
    obtain ⟨hdigest, h⟩ := ensure_eq_ok.mp h
    cases decompressed : c.decompress? compressed with
    | none =>
      rw [decompressed] at h
      cases h
    | some payload =>
      rw [decompressed] at h
      refine ⟨compressed, payload, ⟨?_, ?_, ?_, sharded, ?_, ?_, ?_, decompressed⟩, h⟩
      · exact Nat.le_of_not_lt long
      · exact Decidable.not_not.mp hmark
      · exact Decidable.not_not.mp hversion
      · exact Nat.le_of_not_lt complete
      · exact bind_eq_ok.mpr ⟨shards, hshards, hjoin⟩
      · exact Decidable.not_not.mp hdigest
  · rintro ⟨compressed, payload, h, hq⟩
    obtain ⟨shards, hshards, hjoin⟩ := bind_eq_ok.mp h.gathered
    unfold decode
    refine ensure_eq_ok.mpr ⟨Nat.not_lt_of_le h.long, ?_⟩
    refine ensure_eq_ok.mpr ⟨not_not_intro h.mark, ?_⟩
    refine ensure_eq_ok.mpr ⟨not_not_intro h.version, ?_⟩
    refine ensure_eq_ok.mpr ⟨h.sharded, ?_⟩
    refine ensure_eq_ok.mpr ⟨Nat.not_lt_of_le h.complete, ?_⟩
    refine bind_eq_ok.mpr ⟨shards, hshards, bind_eq_ok.mpr ⟨compressed, hjoin, ?_⟩⟩
    refine ensure_eq_ok.mpr ⟨not_not_intro h.digest, ?_⟩
    dsimp only
    rw [h.decompressed]
    exact hq

/-- Where a file with these fields ends. What stands behind is not read. -/
def Fields.extent (f : Fields) : Nat := fixedSize + f.count * digestSize + f.count * f.shard

/-- The places of the shards lie in front of the end. -/
theorem shard_le_extent {f : Fields} {i : Nat} (hi : i < f.count) :
    fixedSize + f.count * digestSize + (i * f.shard + f.shard) ≤ f.extent := by
  have := Nat.mul_le_mul_right f.shard (Nat.succ_le_of_lt hi)
  rw [Nat.succ_mul] at this
  exact Nat.add_le_add_left this _

/-- Every digest lies within the extent of the file. -/
theorem digest_le_extent {f : Fields} {i : Nat} (hi : i < f.count) :
    fixedSize + (i * digestSize + digestSize) ≤ f.extent := by
  have := Nat.mul_le_mul_right digestSize (Nat.succ_le_of_lt hi)
  rw [Nat.succ_mul] at this
  exact Nat.le_trans (Nat.add_le_add_left this _) (Nat.le_add_right _ _)

/-- What a file comes to depends on its counts, its size and what stands between its fields and its
end. -/
theorem gather_congr {c : Codec} {b b' : List UInt8} (counts : AgreeOn b b' 25 31)
    (rest : AgreeOn b b' fixedSize (fieldsOf b).extent) : gather c b = gather c b' := by
  -- The number of data shards, that of parity shards and the size decide where the shards lie.
  have data : (fieldsOf b).data = (fieldsOf b').data :=
    congrArg UInt8.toNat (counts.getD 25 (by decide) (by decide))
  have parity : (fieldsOf b).parity = (fieldsOf b').parity :=
    congrArg UInt8.toNat (counts.getD 26 (by decide) (by decide))
  have size : (fieldsOf b).size = (fieldsOf b').size :=
    congrArg LittleEndian.value (counts.slice 27 4 (by decide) (by decide))
  have count : (fieldsOf b').count = (fieldsOf b).count := by
    rw [Fields.count, ← data, ← parity]; rfl
  have shard : (fieldsOf b').shard = (fieldsOf b).shard := by rw [Fields.shard, ← data, ← size]; rfl
  have shards : intactShards c b (fieldsOf b).count (fieldsOf b).shard =
      intactShards c b' (fieldsOf b).count (fieldsOf b).shard := by
    refine List.map_congr_left fun i hi => ?_
    have hi := List.mem_range.mp hi
    have hshard := shard_le_extent hi
    have hdigest := digest_le_extent hi
    rw [rest.slice _ _ (by omega) (by omega), rest.slice _ _ (by omega) (by omega)]
  unfold gather
  dsimp only
  rw [count, shard, ← data, ← size, shards]

/-! ## Writing -/

theorem length_headerBytes (h : Header) : (headerBytes h).length = headerSize := by
  simp [headerBytes, LittleEndian.ofUInt32, LittleEndian.ofUInt64, headerSize]

theorem toUInt32_ofUInt32 (v : UInt32) :
    LittleEndian.toUInt32 (LittleEndian.ofUInt32 v) = v := by
  unfold LittleEndian.toUInt32 LittleEndian.ofUInt32
  rw [LittleEndian.value_bytes, Nat.mod_eq_of_lt v.toNat_lt, UInt32.ofNat_toNat]

theorem toUInt64_ofUInt64 (v : UInt64) :
    LittleEndian.toUInt64 (LittleEndian.ofUInt64 v) = v := by
  unfold LittleEndian.toUInt64 LittleEndian.ofUInt64
  rw [LittleEndian.value_bytes, Nat.mod_eq_of_lt v.toNat_lt, UInt64.ofNat_toNat]

/-- A header is read back from its bytes. -/
theorem headerOf_headerBytes (h : Header) (rest : List UInt8) :
    headerOf (headerBytes h ++ rest) = h := by
  have word (v : UInt32) : (LittleEndian.ofUInt32 v).length = 4 := LittleEndian.length_bytes _ _
  have param : (LittleEndian.ofUInt64 h.param).length = 8 := LittleEndian.length_bytes _ _
  simp only [headerOf, headerBytes, List.append_assoc]
  rw [slice_front (word _), slice_append (word _) _ 0, slice_front (word _),
    slice_append (word _) _ 4, slice_append (word _) _ 0, slice_front (word _),
    slice_append (word _) _ 8, slice_append (word _) _ 4, slice_append (word _) _ 0,
    slice_front param, toUInt32_ofUInt32, toUInt32_ofUInt32, toUInt32_ofUInt32, toUInt64_ofUInt64]

def dataShardsOf (c : Codec) (p : Program) : List (List UInt8) :=
  split (shardSize (c.compress (payload p)).length dataShards) dataShards (c.compress (payload p))

def shardsOf (c : Codec) (p : Program) : List (List UInt8) :=
  dataShardsOf c p ++ c.parity parityShards (dataShardsOf c p)

theorem length_mark : mark.length = 4 := by decide +kernel

/-- What an image says about itself. -/
def Fields.ofProgram (c : Codec) (p : Program) : Fields where
  mark := Image.mark
  version := Image.version
  header := p.header
  data := dataShards
  parity := parityShards
  size := (c.compress (payload p)).length % 2 ^ 32
  digest := c.digest (c.compress (payload p))

def front (p : Program) : List UInt8 := mark ++ ([version] ++ headerBytes p.header)

/-- Everything in front of the counts takes 25 bytes. -/
theorem length_front (p : Program) : (front p).length = 25 := by
  rw [front, List.length_append, List.length_append, length_mark, length_headerBytes]
  rfl

/-- An image is its fields one after the other. -/
theorem encode_eq (c : Codec) (p : Program) :
    encode c p = front p ++ ([UInt8.ofNat dataShards, UInt8.ofNat parityShards] ++
      (LittleEndian.bytes 4 (c.compress (payload p)).length ++
        (c.digest (c.compress (payload p)) ++
          ((shardsOf c p).flatMap c.digest ++ (shardsOf c p).flatten)))) := by
  show _ ++ (shardsOf c p).flatMap c.digest ++ (shardsOf c p).flatten = _
  simp only [front, List.append_assoc]

/-- The fields of fixed size are read back. -/
theorem fieldsOf_encode {c : Codec} (hdigest : ∀ x, (c.digest x).length = digestSize)
    (p : Program) : fieldsOf (encode c p) = .ofProgram c p := by
  have size := LittleEndian.length_bytes 4 (c.compress (payload p)).length
  have counts : [UInt8.ofNat dataShards, UInt8.ofNat parityShards].length = 2 := rfl
  unfold fieldsOf Fields.ofProgram
  rw [encode_eq, Fields.mk.injEq]
  refine ⟨?_, ?_, ?_, ?_, ?_, ?_, ?_⟩
  · rw [front, List.append_assoc]
    exact slice_front length_mark _
  · rw [front, List.append_assoc]
    exact getD_append length_mark _ 0
  · rw [front, List.append_assoc, List.append_assoc, show (5 : Nat) = 4 + 1 from rfl,
      ← List.drop_drop, List.drop_left' length_mark]
    exact headerOf_headerBytes _ _
  · exact congrArg UInt8.toNat (getD_append (length_front p) _ 0)
  · exact congrArg UInt8.toNat (getD_append (length_front p) _ 1)
  · rw [slice_append (length_front p) _ 2, slice_append counts _ 0, slice_front size,
      LittleEndian.value_bytes]
  · rw [slice_append (length_front p) _ 6, slice_append counts _ 4, slice_append size _ 0,
      slice_front (hdigest _)]

/-! ## Shards -/

theorem length_split (size count : Nat) (bytes : List UInt8) :
    (split size count bytes).length = count := by
  induction count generalizing bytes with
  | zero => rfl
  | succ count ih => rw [split, List.length_cons, ih]

/-- Splitting fills the last parts up, so that all of them have one size. -/
theorem size_split {size count : Nat} {bytes : List UInt8} :
    ∀ s ∈ split size count bytes, s.length = size := by
  induction count generalizing bytes with
  | zero => nofun
  | succ count ih =>
    rw [split, List.forall_mem_cons]
    refine ⟨?_, ih⟩
    rw [List.length_append, List.length_take, List.length_replicate]
    omega

/-- What was split stands in front again when the shards are joined. -/
theorem flatten_split {size count : Nat} {bytes : List UInt8} (h : bytes.length ≤ size * count) :
    ∃ pad, (split size count bytes).flatten = bytes ++ pad := by
  induction count generalizing bytes with
  | zero =>
    obtain rfl : bytes = [] := List.length_eq_zero_iff.mp (by omega)
    exact ⟨[], rfl⟩
  | succ count ih =>
    have rest : (bytes.drop size).length ≤ size * count := by
      rw [List.length_drop]
      rw [Nat.mul_succ] at h
      omega
    obtain ⟨pad, hpad⟩ := ih rest
    rw [split, List.flatten_cons, hpad]
    -- Only the last shard that holds any of the bytes is filled up.
    by_cases full : size ≤ bytes.length
    · refine ⟨pad, ?_⟩
      rw [Nat.sub_eq_zero_of_le full, List.replicate_zero, List.append_nil, ← List.append_assoc,
        List.take_append_drop]
    · refine ⟨List.replicate (size - bytes.length) 0 ++ pad, ?_⟩
      rw [List.take_of_length_le (by omega), List.drop_of_length_le (by omega), List.nil_append,
        List.append_assoc]

def shardSizeOf (c : Codec) (p : Program) : Nat :=
  shardSize (c.compress (payload p)).length dataShards

/-- The parity shards of a program's image are as many and as large as they should be. -/
structure Codec.HasParity (c : Codec) (p : Program) : Prop where
  count : (c.parity parityShards (dataShardsOf c p)).length = parityShards
  size : ∀ s ∈ c.parity parityShards (dataShardsOf c p), s.length = shardSizeOf c p

section Shards

variable {c : Codec} {p : Program} (hdigest : ∀ x, (c.digest x).length = digestSize)

theorem length_dataShardsOf : (dataShardsOf c p).length = dataShards := length_split _ _ _

theorem Codec.HasParity.length_shardsOf (h : c.HasParity p) :
    (shardsOf c p).length = dataShards + parityShards := by
  rw [shardsOf, List.length_append, h.count, length_dataShardsOf]

/-- All shards have the same size, those with parity too. -/
theorem Codec.HasParity.size_shardsOf (h : c.HasParity p) :
    ∀ s ∈ shardsOf c p, s.length = shardSizeOf c p := by
  intro s hs
  rcases List.mem_append.mp hs with hs | hs
  · exact size_split s hs
  · exact h.size s hs

include hdigest

/-- The fields of fixed size, then the digests, then the shards. -/
theorem encode_parts : ∃ fixed, fixed.length = fixedSize ∧
    encode c p = fixed ++ (((shardsOf c p).map c.digest).flatten ++ (shardsOf c p).flatten) := by
  refine ⟨front p ++ ([UInt8.ofNat dataShards, UInt8.ofNat parityShards] ++
    (LittleEndian.bytes 4 (c.compress (payload p)).length ++
      c.digest (c.compress (payload p)))), ?_, ?_⟩
  · rw [List.length_append, length_front, List.length_append, List.length_append,
      LittleEndian.length_bytes, hdigest]
    rfl
  · rw [encode_eq, List.flatMap_def]
    simp only [List.append_assoc]

theorem length_digests : ∀ d ∈ (shardsOf c p).map c.digest, d.length = digestSize := by
  intro d hd
  obtain ⟨s, -, rfl⟩ := List.mem_map.mp hd
  exact hdigest s

theorem Codec.HasParity.length_digests (h : c.HasParity p) :
    ((shardsOf c p).map c.digest).flatten.length = (dataShards + parityShards) * digestSize := by
  rw [length_flatten (Image.length_digests hdigest), List.length_map, h.length_shardsOf]

/-- The digest that is recorded for a shard is its digest. -/
theorem digestAt_encode {i : Nat} {s : List UInt8} (hs : (shardsOf c p)[i]? = some s) :
    digestAt (encode c p) i = c.digest s := by
  obtain ⟨fixed, hfixed, heq⟩ := encode_parts (c := c) (p := p) hdigest
  have hd : ((shardsOf c p).map c.digest)[i]? = some (c.digest s) := by
    rw [List.getElem?_map, hs]
    rfl
  rw [digestAt, heq, slice_append hfixed]
  exact slice_flatten (length_digests hdigest) _ hd

theorem shardAt_encode (par : c.HasParity p) {i : Nat} {s : List UInt8}
    (hs : (shardsOf c p)[i]? = some s) :
    shardAt (encode c p) (dataShards + parityShards) (shardSizeOf c p) i = s := by
  obtain ⟨fixed, hfixed, heq⟩ := encode_parts (c := c) (p := p) hdigest
  rw [shardAt, heq, Nat.add_assoc, slice_append hfixed, slice_append (par.length_digests hdigest)]
  have here := slice_flatten par.size_shardsOf [] hs
  rwa [List.append_nil] at here

/-- The size of an encoded image: the fixed part, the digests and the shards. -/
theorem length_encode (par : c.HasParity p) : (encode c p).length =
    fixedSize + (dataShards + parityShards) * digestSize
      + (dataShards + parityShards) * shardSizeOf c p := by
  obtain ⟨fixed, hfixed, heq⟩ := encode_parts (c := c) (p := p) hdigest
  rw [heq, List.length_append, List.length_append, hfixed, par.length_digests hdigest,
    length_flatten par.size_shardsOf, par.length_shardsOf, Nat.add_assoc]

end Shards

/-! ## Payloads -/

section Payload

variable (h : Header) (p : Program)

theorem length_payload : (payload p).length = 8 + p.code.size + p.global.length := by
  simp only [payload, List.length_append, LittleEndian.length_bytes, Array.length_toList]

/-- The lengths in a payload are those of its parts, up to their width. -/
theorem lengths_payload :
    LittleEndian.value (slice (payload p) 0 4) = p.code.size % 2 ^ 32 ∧
      LittleEndian.value (slice (payload p) 4 4) = p.global.length % 2 ^ 32 := by
  have width (n : Nat) := LittleEndian.length_bytes 4 n
  simp only [payload, List.append_assoc]
  rw [slice_front (width _), slice_append (width _) _ 0, slice_front (width _),
    LittleEndian.value_bytes, LittleEndian.value_bytes]
  exact ⟨rfl, rfl⟩

/-- A payload is refused where a length does not fit its field. -/
theorem lengths_of_ofPayload {q : Program} (hq : ofPayload h (payload p) = .ok q) :
    p.code.size < 2 ^ 32 ∧ p.global.length < 2 ^ 32 := by
  have hcode := Nat.mod_lt p.code.size (show 0 < 2 ^ 32 by decide)
  have hglobal := Nat.mod_lt p.global.length (show 0 < 2 ^ 32 by decide)
  unfold ofPayload at hq
  split at hq
  · cases hq
  · dsimp only at hq
    split at hq
    · cases hq
    next fits =>
      rw [(lengths_payload p).1, (lengths_payload p).2, length_payload] at fits
      omega

/-- A payload is read back to the program that it was made of. -/
theorem ofPayload_payload (hcode : p.code.size < 2 ^ 32) (hglobal : p.global.length < 2 ^ 32) :
    ofPayload h (payload p) = .ok { p with header := h } := by
  have lengths : (LittleEndian.bytes 4 p.code.size ++ LittleEndian.bytes 4 p.global.length).length
      = 8 := by
    rw [List.length_append, LittleEndian.length_bytes, LittleEndian.length_bytes]
  have code : slice (payload p) 8 p.code.size = p.code.toList := by
    rw [payload, List.append_assoc, slice_append lengths _ 0, slice_front Array.length_toList]
  have global : (payload p).drop (8 + p.code.size) = p.global := by
    rw [payload, List.append_assoc, ← List.drop_drop, List.drop_left' lengths,
      List.drop_left' Array.length_toList]
  unfold ofPayload
  rw [(lengths_payload p).1, (lengths_payload p).2, length_payload, Nat.mod_eq_of_lt hcode,
    Nat.mod_eq_of_lt hglobal, if_neg (by omega)]
  dsimp only
  rw [if_neg (fun h => h rfl), code, global, Array.toArray_toList]

/-- The length of the code is read from a field of four bytes. -/
theorem size_lt_of_ofPayload {pl : List UInt8} {q : Program} (hq : ofPayload h pl = .ok q) :
    q.code.size < 2 ^ 32 := by
  unfold ofPayload at hq
  split at hq
  · cases hq
  · dsimp only at hq
    split at hq
    · cases hq
    · cases hq
      rw [List.size_toArray]
      exact Nat.lt_of_le_of_lt (List.length_take_le _ _) (value_slice_lt pl 0 4)

end Payload

end BlockVM.Image
