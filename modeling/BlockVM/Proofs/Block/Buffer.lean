import BlockVM.Proofs.Block.Layout
import BlockVM.Proofs.Block.Regions
import Mathlib.Data.List.Induction

/-!
# A code buffer is a list of bytes

A buffer is driven by a sequence of calls, each append with what the host grants at that moment.
`contents` is the list of bytes that the calls ask for. A buffer goes through at most two stages: it
is `Growing`, and then it is `Stuck` since a mapping was refused, or `Finished` since it was
finalized. While it grows its bytes are the contents and its mapping is the smallest number of
increments that holds them; a stuck buffer keeps its size and its failure and still takes patches;
a finished one does not change.

What the stages have in common is `Sound`, which no call breaks, so the step lemmas need no history.
-/

namespace BlockVM.CodeBuffer

/-! ## Calls -/

/-- A call on a buffer. An append comes with what the host grants. -/
inductive Call where
  | append (host : ExecMemory) (bytes : List UInt8)
  | patch (off : Int64) (bytes : List UInt8)
  | patch32 (off : Int64) (v : UInt32)
  | patch64 (off : Int64) (v : UInt64)
  | finalize

def perform (b : CodeBuffer) : Call → Except Stop CodeBuffer
  | .append host bytes => b.append host bytes
  | .patch off bytes => b.patch off bytes
  | .patch32 off v => b.patch32 off v
  | .patch64 off v => b.patch64 off v
  | .finalize => b.finalize.mapError .failure

/-- The buffer after a call; one that fails or aborts leaves it as it was. -/
def after (b : CodeBuffer) (c : Call) : CodeBuffer :=
  match b.perform c with
  | .ok b' => b'
  | .error _ => b

def afterAll (b : CodeBuffer) (cs : List Call) : CodeBuffer := cs.foldl after b

def Call.patch? : Call → Option (Int64 × List UInt8)
  | .patch off bytes => some (off, bytes)
  | .patch32 off v => some (off, LittleEndian.ofUInt32 v)
  | .patch64 off v => some (off, LittleEndian.ofUInt64 v)
  | .append .. | .finalize => none

/-- No string of bytes is longer than an address reaches. -/
def Call.Sized (c : Call) : Prop :=
  ∀ off bytes, c.patch? = some (off, bytes) → bytes.length < 2 ^ 63

/-! ## The bytes that are asked for -/

/-- A patch lies in the first `n` bytes. -/
structure Inside (n : Nat) (off : Int64) (bytes : List UInt8) : Prop where
  first : 0 ≤ off.toInt
  last : off.toInt + bytes.length ≤ n

instance (n : Nat) (off : Int64) (bytes : List UInt8) : Decidable (Inside n off bytes) :=
  decidable_of_iff (0 ≤ off.toInt ∧ off.toInt + bytes.length ≤ n)
    ⟨fun h => ⟨h.1, h.2⟩, fun h => ⟨h.first, h.last⟩⟩

/-- Bytes with those from `off` on replaced. Bytes that are not there cannot be replaced. -/
def replaced (all : List UInt8) (off : Int64) (bytes : List UInt8) : List UInt8 :=
  if Inside all.length off bytes then
    all.take off.toInt.toNat ++ bytes ++ all.drop (off.toInt.toNat + bytes.length)
  else all

/-- What a call does to bytes that no more can be appended to. -/
def Call.patched (all : List UInt8) (c : Call) : List UInt8 :=
  match c.patch? with
  | some (off, bytes) => replaced all off bytes
  | none => all

def Call.written (all : List UInt8) : Call → List UInt8
  | .append _ bytes => all ++ bytes
  | c => c.patched all

/-- The appended strings one after the other, with the patches applied in order. -/
def contents (cs : List Call) : List UInt8 := cs.foldl Call.written []

/-- The smallest positive number of increments that holds `n` bytes. -/
def capacityFor (inc n : Nat) : Nat := inc * max 1 ((n + (inc - 1)) / inc)

def growthFailure (size : Nat) (e : MapError) : Failure :=
  .within ("failed to grow code buffer to " ++ toString size ++ " bytes") e.failure

theorem length_replaced (all : List UInt8) (off : Int64) (bytes : List UInt8) :
    (replaced all off bytes).length = all.length := by
  unfold replaced
  split
  next h =>
    have hfirst := h.first
    have hlast := h.last
    simp only [List.length_append, List.length_take, List.length_drop]
    omega
  · rfl

/-- No call changes how many bytes there are in front of it. -/
theorem length_patched (all : List UInt8) (c : Call) : (c.patched all).length = all.length := by
  unfold Call.patched
  split
  · exact length_replaced ..
  · rfl

theorem length_foldl_patched (cs : List Call) (all : List UInt8) :
    (cs.foldl Call.patched all).length = all.length := by
  induction cs generalizing all with
  | nil => rfl
  | cons c cs ih => rw [List.foldl_cons, ih, length_patched]

/-- The contents of a longer history, from the contents of the shorter one. -/
theorem contents_concat (cs : List Call) (c : Call) :
    contents (cs ++ [c]) = c.written (contents cs) := by
  rw [contents, List.foldl_concat]
  rfl

theorem afterAll_concat (b : CodeBuffer) (cs : List Call) (c : Call) :
    b.afterAll (cs ++ [c]) = (b.afterAll cs).after c := List.foldl_concat ..

theorem after_of_ok {b b' : CodeBuffer} {c : Call} (h : b.perform c = .ok b') : b.after c = b' := by
  rw [after, h]

theorem after_of_error {b : CodeBuffer} {c : Call} {e : Stop} (h : b.perform c = .error e) :
    b.after c = b := by
  rw [after, h]

/-! ## Capacities -/

section Capacity

variable {inc n : Nat}

theorem capacityFor_zero (h : 0 < inc) : capacityFor inc 0 = inc := by
  have hdiv : (0 + (inc - 1)) / inc = 0 := Nat.div_eq_of_lt (by omega)
  rw [capacityFor, hdiv, Nat.max_eq_left (Nat.zero_le 1), Nat.mul_one]

/-- Rounded up to whole increments, `n` bytes need no more than `k` of them exactly if they fit in
`k`. -/
theorem div_round_le (h : 0 < inc) {n k : Nat} : (n + (inc - 1)) / inc ≤ k ↔ n ≤ inc * k := by
  rw [← Nat.lt_succ_iff, Nat.div_lt_iff_lt_mul h, Nat.succ_mul, Nat.mul_comm k inc]
  omega

/-- More bytes need no larger mapping while they fit. -/
theorem capacityFor_of_le (h : 0 < inc) {m : Nat} (hle : n ≤ m) (hroom : m ≤ capacityFor inc n) :
    capacityFor inc m = capacityFor inc n := by
  have hgrow : (n + (inc - 1)) / inc ≤ (m + (inc - 1)) / inc := Nat.div_le_div_right (by omega)
  have hstay : (m + (inc - 1)) / inc ≤ max 1 ((n + (inc - 1)) / inc) := (div_round_le h).mpr hroom
  unfold capacityFor
  congr 1
  omega

/-- Growth goes to the capacity for the bytes that are needed. -/
theorem grownTo_eq {b : CodeBuffer} {size need : Nat} (h : 0 < b.increment)
    (hcapacity : b.capacity = capacityFor b.increment size) (hneed : b.capacity < need) :
    b.grownTo need = capacityFor b.increment need := by
  have hcapacity : b.capacity = b.increment * max 1 ((size + (b.increment - 1)) / b.increment) :=
    hcapacity
  generalize max 1 ((size + (b.increment - 1)) / b.increment) = k at hcapacity
  have hsplit : need + (b.increment - 1)
      = (need - b.capacity + (b.increment - 1)) + b.increment * k := by omega
  have hround : (need + (b.increment - 1)) / b.increment
      = (need - b.capacity + (b.increment - 1)) / b.increment + k := by
    rw [hsplit, Nat.add_mul_div_left _ _ h]
  have hpos : 1 ≤ (need - b.capacity + (b.increment - 1)) / b.increment :=
    (Nat.one_le_div_iff h).mpr (by omega)
  rw [grownTo, capacityFor, hround, Nat.max_eq_right (by omega), Nat.mul_add, ← hcapacity,
    Nat.add_comm, Nat.mul_comm]

end Capacity

/-! ## One call -/

/-- What no call changes: the increment, the mapping that is there, and bytes that fit it. -/
structure Sound (inc : Nat) (b : CodeBuffer) : Prop where
  increment : b.increment = inc
  positive : 0 < inc
  mapped : b.mapped = true
  inside : b.size ≤ b.capacity
  limit : b.capacity ≤ 2 ^ 47

section Step

variable {inc : Nat} {b : CodeBuffer} {host : ExecMemory} {bytes : List UInt8} {off : Int64}

theorem perform_patch {c : Call} (h : c.patch? = some (off, bytes)) :
    b.perform c = b.patch off bytes := by
  cases c <;> cases h <;> rfl

/-- A patch inside the bytes overwrites the field in place, which is what `replaced` does to the
list. -/
theorem overwrite_eq_replaced (h : Inside b.size off bytes) :
    overwrite b.bytes off.toNatClampNeg bytes = (replaced b.bytes.toList off bytes).toArray := by
  have hfirst := h.first
  have hlast := h.last
  have hlist : Inside b.bytes.toList.length off bytes := h
  have hsize : b.bytes.toList.length = b.size := rfl
  -- The bytes in front of the field, the field and the bytes behind it.
  have hsplit : b.bytes.toList = b.bytes.toList.take off.toInt.toNat
      ++ (b.bytes.toList.drop off.toInt.toNat).take bytes.length
      ++ b.bytes.toList.drop (off.toInt.toNat + bytes.length) := by
    rw [List.append_assoc, ← List.drop_drop, List.take_append_drop, List.take_append_drop]
  have hfield : ((b.bytes.toList.drop off.toInt.toNat).take bytes.length).length =
      bytes.length := by
    rw [List.length_take, List.length_drop]
    omega
  have hstart : (b.bytes.toList.take off.toInt.toNat).length = off.toNatClampNeg := by
    rw [List.length_take, Int64.toNatClampNeg]
    omega
  have hover := Layout.overwrite_append (b.bytes.toList.take off.toInt.toNat)
    (b.bytes.toList.drop (off.toInt.toNat + bytes.length)) hfield
  rw [← hsplit, hstart, Array.toArray_toList] at hover
  rw [hover, replaced, if_pos hlist]

/-- A patch inside what was written replaces bytes and nothing else. -/
theorem patch_of_inside (hsize : b.size < 2 ^ 63) (hopen : b.final = false)
    (h : Inside b.size off bytes) :
    b.patch off bytes = .ok { b with bytes := (replaced b.bytes.toList off bytes).toArray } := by
  have hfirst := h.first
  have hlast := h.last
  have hlength : (Int64.ofNat bytes.length).toInt = bytes.length :=
    Int64.toInt_ofNat_of_lt (by omega)
  have hstop : (off + Int64.ofNat bytes.length).toInt = off.toInt + bytes.length := by
    rw [toInt_add_of_bounds (by omega) (by omega), hlength]
  have hbounds : ¬ (off < 0 ∨ Int64.ofNat b.size < off + Int64.ofNat bytes.length) := by
    rw [toInt_neg_iff, Int64.lt_iff_toInt_lt, hstop, Int64.toInt_ofNat_of_lt hsize]
    omega
  have hwrap : ¬ off + Int64.ofNat bytes.length < off := by
    rw [Int64.lt_iff_toInt_lt, hstop]
    omega
  unfold patch
  simp only [hopen, Bool.false_eq_true, if_false, if_neg hbounds, if_neg hwrap,
    overwrite_eq_replaced h]

/-- A patch that is not inside aborts, also where its end is no address. -/
theorem patch_of_outside (hsize : b.size < 2 ^ 63) (hlength : bytes.length < 2 ^ 63)
    (h : ¬ Inside b.size off bytes) : ∃ reason, b.patch off bytes = .error (.abort reason) := by
  have hlength' : (Int64.ofNat bytes.length).toInt = bytes.length := Int64.toInt_ofNat_of_lt hlength
  unfold patch
  dsimp only
  split
  · exact ⟨_, rfl⟩
  · split
    · exact ⟨_, rfl⟩
    next hbounds =>
      rw [toInt_neg_iff, Int64.lt_iff_toInt_lt, Int64.toInt_ofNat_of_lt hsize] at hbounds
      -- The end is only below the size although the patch is outside if it wrapped.
      have hwrap : off + Int64.ofNat bytes.length < off := by
        have hoff := toInt_bounds off
        rw [Int64.lt_iff_toInt_lt]
        by_cases hrange : off.toInt + bytes.length < 2 ^ 63
        · have hstop : (off + Int64.ofNat bytes.length).toInt = off.toInt + bytes.length := by
            rw [toInt_add_of_bounds (by omega) (by omega), hlength']
          rw [hstop] at hbounds
          exact absurd ⟨by omega, by omega⟩ h
        · rw [Int64.toInt_add, hlength', Int.bmod]
          split <;> omega
      rw [if_pos hwrap]
      exact ⟨_, rfl⟩

theorem patch_of_final (hfinal : b.final = true) :
    ∃ reason, b.patch off bytes = .error (.abort reason) := by
  unfold patch
  dsimp only
  rw [if_pos hfinal]
  exact ⟨_, rfl⟩

theorem append_of_final (hfinal : b.final = true) :
    ∃ reason, b.append host bytes = .error (.abort reason) := by
  unfold append
  rw [if_pos hfinal]
  exact ⟨_, rfl⟩

/-- A buffer that failed to grow takes every further append without a word, and drops it. -/
theorem append_of_error {f : Failure} (hopen : b.final = false) (h : b.error = some f) :
    b.append host bytes = .ok b := by
  unfold append
  rw [if_neg (by rw [hopen]; decide), h]

/-- Bytes that fit are appended. -/
theorem append_of_room (hopen : b.final = false) (h : b.error = none)
    (hroom : b.size + bytes.length ≤ b.capacity) :
    b.append host bytes = .ok { b with bytes := b.bytes ++ bytes.toArray } := by
  unfold append
  rw [if_neg (by rw [hopen]; decide), h]
  exact if_pos hroom

/-- Bytes that do not fit are appended in a new mapping. -/
theorem append_of_granted (hs : b.Sound inc) (hopen : b.final = false) (h : b.error = none)
    (hcapacity : b.capacity = capacityFor inc b.size) (hfull : b.capacity < b.size + bytes.length)
    (hgrant : host.refusal? (capacityFor inc (b.size + bytes.length)) = none) :
    b.append host bytes = .ok { b with
      bytes := b.bytes ++ bytes.toArray
      capacity := capacityFor inc (b.size + bytes.length) } := by
  obtain ⟨rfl, hpos, hmapped, -, -⟩ := hs
  have hgrow : b.grow host (b.size + bytes.length)
      = .ok { b with capacity := capacityFor b.increment (b.size + bytes.length) } := by
    unfold grow
    rw [grownTo_eq hpos hcapacity hfull]
    dsimp only
    rw [hgrant, if_pos hmapped]
  unfold append
  rw [if_neg (by rw [hopen]; decide), h]
  dsimp only
  rw [if_neg (by omega), hgrow, h]

/-- Where the new mapping is refused, nothing is appended and the failure is kept. -/
theorem append_of_refused {e : MapError} (hs : b.Sound inc) (hopen : b.final = false)
    (h : b.error = none) (hcapacity : b.capacity = capacityFor inc b.size)
    (hfull : b.capacity < b.size + bytes.length)
    (hrefuse : host.refusal? (capacityFor inc (b.size + bytes.length)) = some e) :
    b.append host bytes = .ok { b with
      error := some (growthFailure (capacityFor inc (b.size + bytes.length)) e) } := by
  obtain ⟨rfl, hpos, -, -, -⟩ := hs
  have hgrow : b.grow host (b.size + bytes.length)
      = .error (growthFailure (capacityFor b.increment (b.size + bytes.length)) e) := by
    unfold grow
    rw [grownTo_eq hpos hcapacity hfull]
    dsimp only
    rw [hrefuse]
    rfl
  unfold append
  rw [if_neg (by rw [hopen]; decide), h]
  dsimp only
  rw [if_neg (by omega), hgrow]

end Step

/-! ## The stages of a buffer -/

/-- A buffer that calls can still write to takes the patches that are inside and no others. -/
structure Patchable (b : CodeBuffer) : Prop where
  inside : ∀ c off bytes, Call.patch? c = some (off, bytes) → Inside b.size off bytes →
    b.perform c = .ok { b with bytes := (replaced b.bytes.toList off bytes).toArray }
  outside : ∀ c off bytes, Call.patch? c = some (off, bytes) → bytes.length < 2 ^ 63 →
    ¬ Inside b.size off bytes → ∃ reason, b.perform c = .error (.abort reason)

/-- No growth was refused and the buffer is not finalized: it holds what the calls asked for, in the
smallest mapping for that. -/
structure Growing (inc : Nat) (cs : List Call) (b : CodeBuffer) : Prop where
  bytes : b.bytes.toList = contents cs
  size : b.size = (contents cs).length
  capacity : b.capacity = capacityFor inc b.size
  fine : b.error = none
  unfinished : b.final = false
  patchable : b.Patchable
  /-- An append fails if and only if it needs a new mapping and that is refused. -/
  appends : ∀ host bytes, ∃ b', b.perform (.append host bytes) = .ok b' ∧ (b'.error = none ↔
    b.size + bytes.length ≤ b.capacity ∨
      host.refusal? (capacityFor inc (b.size + bytes.length)) = none)
  finishes : b.perform .finalize = .ok { b with final := true }

/-- The growth of `before` for more `bytes` was refused by the host, and the calls `cs` came after
that. -/
structure Stuck (inc : Nat) (before : CodeBuffer) (host : ExecMemory) (bytes : List UInt8)
    (cs : List Call) (b : CodeBuffer) : Prop where
  full : before.capacity < before.size + bytes.length
  refused : ∃ e, host.refusal? (capacityFor inc (before.size + bytes.length)) = some e ∧
    b.error = some (growthFailure (capacityFor inc (before.size + bytes.length)) e)
  bytes : b.bytes.toList = cs.foldl Call.patched before.bytes.toList
  size : b.size = before.size
  capacity : b.capacity = before.capacity
  unfinished : b.final = false
  patchable : b.Patchable
  drops : ∀ host bytes, b.perform (.append host bytes) = .ok b
  fails : ∀ f, b.error = some f → b.perform .finalize = .error (.failure f)

/-- `before` was finalized, and nothing changed since. -/
structure Finished (before b : CodeBuffer) : Prop where
  same : b = { before with final := true }
  noAppend : ∀ host bytes, ∃ reason, b.perform (.append host bytes) = .error (.abort reason)
  noPatch : ∀ c off bytes, Call.patch? c = some (off, bytes) →
    ∃ reason, b.perform c = .error (.abort reason)
  finalize : b.perform .finalize = .ok b

section Stages

variable {inc : Nat} {b before : CodeBuffer} {cs : List Call} {host : ExecMemory}
    {bytes : List UInt8}

/-- A sound buffer is small enough for its size to be a signed word. -/
theorem Sound.size_lt (hs : b.Sound inc) : b.size < 2 ^ 63 := by
  have hinside := hs.inside
  have hlimit := hs.limit
  omega

/-- Until it is finalized, a sound buffer can be patched. -/
theorem patchable_of_unfinished (hs : b.Sound inc) (hopen : b.final = false) : b.Patchable where
  inside c off bytes hc hin := by
    rw [perform_patch hc]
    exact patch_of_inside hs.size_lt hopen hin
  outside c off bytes hc hlength hout := by
    rw [perform_patch hc]
    exact patch_of_outside hs.size_lt hlength hout

/-- A buffer with the right bytes and mapping grows: everything else about it follows from its
soundness. -/
theorem Growing.of_contents (hs : b.Sound inc) (hbytes : b.bytes.toList = contents cs)
    (hcapacity : b.capacity = capacityFor inc b.size) (hfine : b.error = none)
    (hopen : b.final = false) : Growing inc cs b where
  bytes := hbytes
  size := congrArg List.length hbytes
  capacity := hcapacity
  fine := hfine
  unfinished := hopen
  patchable := patchable_of_unfinished hs hopen
  -- An append that needs a new mapping succeeds whether or not the host grants it.
  appends host bytes := by
    by_cases hroom : b.size + bytes.length ≤ b.capacity
    · exact ⟨_, append_of_room hopen hfine hroom, fun _ => .inl hroom, fun _ => hfine⟩
    · cases hgrant : host.refusal? (capacityFor inc (b.size + bytes.length)) with
      | none =>
        exact ⟨_, append_of_granted hs hopen hfine hcapacity (Nat.lt_of_not_le hroom) hgrant,
          fun _ => .inr rfl, fun _ => hfine⟩
      | some e =>
        refine ⟨_,
          append_of_refused hs hopen hfine hcapacity (Nat.lt_of_not_le hroom) hgrant, nofun, ?_⟩
        rintro (h | h)
        · exact absurd h hroom
        · cases h
  finishes := by
    simp only [perform, finalize, hfine, hopen, hs.mapped, Bool.false_eq_true, if_false, if_true]
    rfl

/-- A buffer that lost an append to a refused mapping is stuck, whatever patches came after it. -/
theorem Stuck.of_patched (hs : b.Sound inc) (hfull : before.capacity < before.size + bytes.length)
    (hrefused : ∃ e, host.refusal? (capacityFor inc (before.size + bytes.length)) = some e ∧
      b.error = some (growthFailure (capacityFor inc (before.size + bytes.length)) e))
    (hbytes : b.bytes.toList = cs.foldl Call.patched before.bytes.toList)
    (hcapacity : b.capacity = before.capacity) (hopen : b.final = false) :
    Stuck inc before host bytes cs b where
  full := hfull
  refused := hrefused
  bytes := hbytes
  size := (congrArg List.length hbytes).trans (length_foldl_patched cs _)
  capacity := hcapacity
  unfinished := hopen
  patchable := patchable_of_unfinished hs hopen
  drops host bytes := by
    obtain ⟨e, -, herror⟩ := hrefused
    exact append_of_error hopen herror
  fails f hf := by
    rw [perform, finalize, hf]
    rfl

theorem Finished.of_growing (h : Growing inc cs before) :
    Finished before { before with final := true } where
  same := rfl
  noAppend host bytes := append_of_final rfl
  noPatch c off bytes hc := by
    rw [perform_patch hc]
    exact patch_of_final rfl
  finalize := by
    simp only [perform, CodeBuffer.finalize, h.fine, if_true]
    rfl

/-! ### What one call preserves -/

/-- The step lemma of appends: they fit, they are granted a larger mapping or they are refused
one. -/
theorem Sound.append {b' : CodeBuffer} (hs : b.Sound inc) (h : b.append host bytes = .ok b') :
    b'.Sound inc := by
  obtain ⟨rfl, hpos, hmapped, hinside, hlimit⟩ := hs
  have hwritten : (b.bytes ++ bytes.toArray).size = b.size + bytes.length := by
    rw [Array.size_append, List.size_toArray]
    rfl
  unfold CodeBuffer.append at h
  split at h
  · cases h
  · split at h
    · cases h
      exact ⟨rfl, hpos, hmapped, hinside, hlimit⟩
    · dsimp only at h
      split at h
      next hroom =>
        cases h
        exact ⟨rfl, hpos, hmapped, Nat.le_trans (Nat.le_of_eq hwritten) hroom, hlimit⟩
      · split at h
        next grown hgrow =>
          cases h
          unfold grow at hgrow
          dsimp only at hgrow
          split at hgrow
          · cases hgrow
          next hgrant =>
            -- This is the one case in which the capacity changes: it is
            -- bounded by what a host grants.
            rw [if_pos hmapped] at hgrow
            cases hgrow
            refine ⟨rfl, hpos, hmapped,
              Nat.le_trans (Nat.le_of_eq hwritten) (CodeRegion.le_grownTo hpos _), ?_⟩
            have hmax : Host.maxMapping.toInt = 2 ^ 47 := rfl
            have hle := CodeRegion.le_of_granted hgrant
            show b.grownTo (b.size + bytes.length) ≤ 2 ^ 47
            omega
        · cases h
          exact ⟨rfl, hpos, hmapped, hinside, hlimit⟩

/-- The step lemma of patches, which touch neither the size nor the mapping. -/
theorem Sound.patch {b' : CodeBuffer} {off : Int64} (hs : b.Sound inc)
    (h : b.patch off bytes = .ok b') : b'.Sound inc := by
  obtain ⟨rfl, hpos, hmapped, hinside, hlimit⟩ := hs
  unfold CodeBuffer.patch at h
  dsimp only at h
  split at h
  · cases h
  · split at h
    · cases h
    · split at h
      · cases h
      · cases h
        exact ⟨rfl, hpos, hmapped,
          Nat.le_trans (Nat.le_of_eq (CodeRegion.size_overwrite ..)) hinside, hlimit⟩

/-- The step lemma of finalizing, which changes the protection alone. -/
theorem Sound.finalize {b' : CodeBuffer} (hs : b.Sound inc) (h : b.finalize = .ok b') :
    b'.Sound inc := by
  obtain ⟨rfl, hpos, hmapped, hinside, hlimit⟩ := hs
  unfold CodeBuffer.finalize at h
  rw [if_pos hmapped] at h
  split at h
  · cases h
  · split at h
    all_goals
      cases h
      exact ⟨rfl, hpos, hmapped, hinside, hlimit⟩

theorem Sound.perform {b' : CodeBuffer} {c : Call} (hs : b.Sound inc) (h : b.perform c = .ok b') :
    b'.Sound inc := by
  cases c with
  | append host bytes => exact hs.append h
  | patch off bytes => exact hs.patch h
  | patch32 off v => exact hs.patch h
  | patch64 off v => exact hs.patch h
  | finalize => exact hs.finalize (mapError_eq_ok.mp h)

/-- No call breaks soundness; one that fails leaves the buffer as it was. -/
theorem Sound.after (hs : b.Sound inc) (c : Call) : (b.after c).Sound inc := by
  cases h : b.perform c with
  | ok b' =>
    rw [after_of_ok h]
    exact hs.perform h
  | error e =>
    rw [after_of_error h]
    exact hs

/-- A patch, whether it is inside or not, replaces what it can. -/
theorem Patchable.after {c : Call} {off : Int64} (h : b.Patchable)
    (hc : c.patch? = some (off, bytes)) (hlength : bytes.length < 2 ^ 63) :
    b.after c = { b with bytes := (c.patched b.bytes.toList).toArray } := by
  by_cases hin : Inside b.size off bytes
  · rw [after_of_ok (h.inside c off bytes hc hin), Call.patched, hc]
  · obtain ⟨reason, habort⟩ := h.outside c off bytes hc hlength hin
    have hlist : ¬ Inside b.bytes.toList.length off bytes := hin
    rw [after_of_error habort, Call.patched, hc]
    simp only [replaced, if_neg hlist, Array.toArray_toList]

/-- A call on list of bytes that is no append is a patch or changes nothing. -/
theorem Call.written_of_patch {c : Call} {p : Int64 × List UInt8} (h : c.patch? = some p)
    (all : List UInt8) : c.written all = c.patched all := by
  cases c <;> first | rfl | cases h

/-- An append to a growing buffer either goes on growing it or leaves it stuck from here on. -/
theorem Growing.append (hs : b.Sound inc) (h : Growing inc cs b) :
    Growing inc (cs ++ [.append host bytes]) (b.after (.append host bytes)) ∨
      Stuck inc b host bytes [] (b.after (.append host bytes)) := by
  have hsound := hs.after (.append host bytes)
  have hcontents : (b.bytes ++ bytes.toArray).toList = contents (cs ++ [.append host bytes]) := by
    rw [contents_concat, Array.toList_append, h.bytes]
    rfl
  have hwritten : (b.bytes ++ bytes.toArray).size = b.size + bytes.length := by
    rw [Array.size_append, List.size_toArray]
    rfl
  by_cases hroom : b.size + bytes.length ≤ b.capacity
  · rw [after_of_ok (c := .append host bytes) (append_of_room h.unfinished h.fine hroom)]
      at hsound ⊢
    -- The smallest mapping for fewer bytes is the smallest for more, as long as those fit in it.
    refine .inl (.of_contents hsound hcontents ?_ h.fine h.unfinished)
    show b.capacity = capacityFor inc (b.bytes ++ bytes.toArray).size
    rw [hwritten, h.capacity,
      capacityFor_of_le hs.positive (Nat.le_add_right _ _) (h.capacity ▸ hroom)]
  · have hfull := Nat.lt_of_not_le hroom
    cases hgrant : host.refusal? (capacityFor inc (b.size + bytes.length)) with
    | none =>
      rw [after_of_ok (c := .append host bytes)
        (append_of_granted hs h.unfinished h.fine h.capacity hfull hgrant)] at hsound ⊢
      refine .inl (.of_contents hsound hcontents ?_ h.fine h.unfinished)
      show capacityFor inc (b.size + bytes.length) = capacityFor inc (b.bytes ++ bytes.toArray).size
      rw [hwritten]
    | some e =>
      rw [after_of_ok (c := .append host bytes)
        (append_of_refused hs h.unfinished h.fine h.capacity hfull hgrant)] at hsound ⊢
      exact .inr (.of_patched hsound hfull ⟨e, hgrant, rfl⟩ rfl rfl h.unfinished)

/-- A patch of a growing buffer patches the contents in the same place. -/
theorem Growing.patch (hs : b.Sound inc) (h : Growing inc cs b) {c : Call} {off : Int64}
    (hc : c.patch? = some (off, bytes)) (hlength : bytes.length < 2 ^ 63) :
    Growing inc (cs ++ [c]) (b.after c) := by
  have hsound := hs.after c
  rw [h.patchable.after hc hlength] at hsound ⊢
  refine .of_contents hsound ?_ ?_ h.fine h.unfinished
  · rw [contents_concat, Call.written_of_patch hc, ← h.bytes]
  · rw [h.capacity]
    congr 1
    exact (length_patched b.bytes.toList c).symm

/-- A growing buffer goes on growing, or this call is the one that ends it. -/
theorem Growing.after (hs : b.Sound inc) (h : Growing inc cs b) {c : Call} (hc : c.Sized) :
    Growing inc (cs ++ [c]) (b.after c) ∨
      (∃ host bytes, c = .append host bytes ∧ Stuck inc b host bytes [] (b.after c)) ∨
      (c = .finalize ∧ Finished b (b.after c)) := by
  cases c with
  | append host bytes =>
    rcases h.append hs with h | h
    · exact .inl h
    · exact .inr (.inl ⟨host, bytes, rfl, h⟩)
  | patch off bytes => exact .inl (h.patch hs rfl (hc off bytes rfl))
  | patch32 off v => exact .inl (h.patch hs rfl (hc off _ rfl))
  | patch64 off v => exact .inl (h.patch hs rfl (hc off _ rfl))
  | finalize =>
    rw [after_of_ok h.finishes]
    exact .inr (.inr ⟨rfl, .of_growing h⟩)

/-- A stuck buffer still takes patches within the bytes that it has. -/
theorem Stuck.patch (hs : b.Sound inc) (h : Stuck inc before host bytes cs b) {c : Call}
    {off : Int64} {new : List UInt8} (hc : c.patch? = some (off, new))
    (hlength : new.length < 2 ^ 63) : Stuck inc before host bytes (cs ++ [c]) (b.after c) := by
  have hsound := hs.after c
  rw [h.patchable.after hc hlength] at hsound ⊢
  refine .of_patched hsound h.full h.refused ?_ h.capacity h.unfinished
  rw [List.foldl_concat, ← h.bytes]

/-- A call that is no patch leaves a stuck buffer as it is. -/
theorem Stuck.keep (hs : b.Sound inc) (h : Stuck inc before host bytes cs b) {c : Call}
    (hc : c.patch? = none) (hsame : b.after c = b) :
    Stuck inc before host bytes (cs ++ [c]) (b.after c) := by
  rw [hsame]
  refine .of_patched hs h.full h.refused ?_ h.capacity h.unfinished
  rw [List.foldl_concat, ← h.bytes, Call.patched, hc]

/-- Nothing brings a stuck buffer back: it stays stuck after every further call. -/
theorem Stuck.after (hs : b.Sound inc) (h : Stuck inc before host bytes cs b) {c : Call}
    (hc : c.Sized) : Stuck inc before host bytes (cs ++ [c]) (b.after c) := by
  cases c with
  | append host' new => exact h.keep hs rfl (after_of_ok (h.drops host' new))
  | patch off new => exact h.patch hs rfl (hc off new rfl)
  | patch32 off v => exact h.patch hs rfl (hc off _ rfl)
  | patch64 off v => exact h.patch hs rfl (hc off _ rfl)
  | finalize =>
    obtain ⟨e, -, herror⟩ := h.refused
    exact h.keep hs rfl (after_of_error (h.fails _ herror))

theorem Finished.after (h : Finished before b) (c : Call) : Finished before (b.after c) := by
  have hsame : b.after c = b := by
    cases hc : c.patch? with
    | some p =>
      obtain ⟨reason, habort⟩ := h.noPatch c p.1 p.2 hc
      exact after_of_error habort
    | none =>
      cases c with
      | append host bytes =>
        obtain ⟨reason, habort⟩ := h.noAppend host bytes
        exact after_of_error habort
      | finalize => exact after_of_ok h.finalize
      | patch | patch32 | patch64 => cases hc
  rwa [hsame]

end Stages

/-! ## Every sequence of calls -/

theorem new_sound {x : ExecMemory} {increment : Int64} {b : CodeBuffer} (hpos : 0 < increment)
    (h : new x increment = .ok b) :
    b.Sound increment.toInt.toNat ∧ Growing increment.toInt.toNat [] b := by
  have hinc : incrementOf increment = increment.toInt.toNat := if_neg (Int64.not_le.mpr hpos)
  have hnat := CodeRegion.incrementOf_pos increment
  unfold new at h
  rw [hinc] at h hnat
  dsimp only at h
  split at h
  · cases h
  next hgrant =>
    cases h
    have hmax : Host.maxMapping.toInt = 2 ^ 47 := rfl
    have hle := CodeRegion.le_of_granted hgrant
    have hsound : Sound increment.toInt.toNat
        ⟨#[], increment.toInt.toNat, increment.toInt.toNat, none, false, true⟩ :=
      ⟨rfl, hnat, rfl, Nat.zero_le _, show increment.toInt.toNat ≤ 2 ^ 47 by omega⟩
    exact ⟨hsound, .of_contents hsound rfl (capacityFor_zero hnat).symm rfl rfl⟩

theorem sound_afterAll {inc : Nat} {b : CodeBuffer} (hs : b.Sound inc) (cs : List Call) :
    (b.afterAll cs).Sound inc := by
  induction cs generalizing b with
  | nil => exact hs
  | cons c cs ih => exact ih (hs.after c)

/-- Two appends, the second of which finds no room, with a patch before and after it. -/
def shortCalls : List Call :=
  [.append (.upTo 8) [1, 2, 3, 4, 5], .patch 1 [9], .append (.upTo 8) [6, 7, 8, 9], .patch32 0 0]

theorem sized_shortCalls : ∀ c ∈ shortCalls, c.Sized := by
  intro c hc off bytes hpatch
  simp only [shortCalls, List.mem_cons, List.not_mem_nil, or_false] at hc
  rcases hc with rfl | rfl | rfl | rfl <;> cases hpatch <;> decide

end BlockVM.CodeBuffer
