import BlockVM.Memory.CodeRegion
import BlockVM.Proofs.Block.Compiled
import BlockVM.Proofs.Numeric.Signed
import Mathlib.Data.List.Forall2

/-!
# Code regions under appends

What an append does besides writing depends only on how many bytes are appended: it may move the
buffer to a new mapping or find that it cannot grow. `CodeRegion.reserve` is that part, and an
append is the reservation and then, unless growth has failed, the bytes (`append_eq_fill`). So two
regions that differ in their bytes alone stay alike under appends of the same lengths
(`fillAll_alike`).

`CodeRegion.Since` is the invariant of a region since its buffer was made: of all the mappings that
were asked for, only that of the buffer exists, and the buffer keeps a failure exactly if a request
was refused.
-/

namespace BlockVM

namespace CodeRegion

/-! ## Reservations -/

def moved (r : CodeRegion) (size : Nat) : CodeRegion :=
  ⟨(r.host.ask size).drop r.mapping, { r.buffer with capacity := size }, r.host.requests.length⟩

/-- The region after a new mapping of `size` bytes was refused. -/
def stuck (r : CodeRegion) (size : Nat) (e : MapError) : CodeRegion :=
  { r with
    host := r.host.ask size
    buffer := { r.buffer with
      error := some (.within ("failed to grow code buffer to " ++ toString size ++ " bytes")
        e.failure) } }

def reserve (r : CodeRegion) (n : Nat) : CodeRegion :=
  match r.buffer.request? n with
  | none => r
  | some size =>
    match r.host.memory.refusal? size with
    | none => r.moved size
    | some e => r.stuck size e

def withBytes (r : CodeRegion) (bytes : Array UInt8) : CodeRegion :=
  { r with buffer := { r.buffer with bytes := bytes } }

/-- The region after an append. -/
def fill (r : CodeRegion) (bs : List UInt8) : CodeRegion :=
  match (r.reserve bs.length).buffer.error with
  | none => (r.reserve bs.length).withBytes (r.buffer.bytes ++ bs.toArray)
  | some _ => r.reserve bs.length

def fillAll (r : CodeRegion) (pieces : List (List UInt8)) : CodeRegion := pieces.foldl fill r

variable {r s : CodeRegion} {bs : List UInt8} {n : Nat}

@[simp] theorem bytes_withBytes (r : CodeRegion) (bytes : Array UInt8) :
    (r.withBytes bytes).buffer.bytes = bytes := rfl

@[simp] theorem fillAll_nil (r : CodeRegion) : r.fillAll [] = r := rfl

@[simp] theorem fillAll_cons (r : CodeRegion) (bs : List UInt8) (pieces : List (List UInt8)) :
    r.fillAll (bs :: pieces) = (r.fill bs).fillAll pieces := rfl

theorem fillAll_append (r : CodeRegion) (xs ys : List (List UInt8)) :
    r.fillAll (xs ++ ys) = (r.fillAll xs).fillAll ys := List.foldl_append

/-- A buffer that could not grow asks for no more memory. -/
theorem reserve_of_error {f : Failure} (h : r.buffer.error = some f) : r.reserve n = r := by
  simp [reserve, CodeBuffer.request?, h]

theorem fill_of_error {f : Failure} (h : r.buffer.error = some f) : r.fill bs = r := by
  simp [fill, reserve_of_error h, h]

theorem fillAll_of_error {f : Failure} (h : r.buffer.error = some f) (pieces : List (List UInt8)) :
    r.fillAll pieces = r := by
  induction pieces with
  | nil => rfl
  | cons bs pieces ih => rw [fillAll_cons, fill_of_error h, ih]

/-- Appending to a buffer that is under construction never aborts. -/
theorem append_eq_fill (h : r.buffer.Writable) (bs : List UInt8) :
    r.append bs = .ok (r.fill bs) := by
  -- The two functions make the same tests in another order, so the cases are taken one by one.
  obtain ⟨host, ⟨bytes, capacity, increment, error, final, mapped⟩, mapping⟩ := r
  obtain ⟨hopen, hmapped⟩ := h
  simp only at hopen hmapped
  subst hopen hmapped
  cases error with
  | some f => rfl
  | none =>
    by_cases hroom : bytes.size + bs.length ≤ capacity
    · have hnone : ¬ capacity < bytes.size + bs.length := by omega
      simp only [append, CodeBuffer.append, fill, reserve, moved, stuck, withBytes,
        CodeBuffer.request?,
        CodeBuffer.size, hroom, hnone]
      rfl
    · have hfull : capacity < bytes.size + bs.length := by omega
      simp only [append, CodeBuffer.append, fill, reserve, moved, stuck, withBytes,
        CodeBuffer.request?,
        CodeBuffer.size, CodeBuffer.grow, hroom, hfull]
      cases hgrant : host.memory.refusal? _ with
      | none => simp [hgrant, bind, Except.bind, pure, Except.pure]
      | some e => simp [hgrant, bind, Except.bind, pure, Except.pure]

/-! ## Regions that differ in their bytes -/

/-- The regions are the same but for the values of the bytes. -/
def Alike (r s : CodeRegion) : Prop :=
  ∃ bytes : Array UInt8, bytes.size = r.buffer.size ∧ s = r.withBytes bytes

theorem Alike.refl (r : CodeRegion) : r.Alike r := ⟨r.buffer.bytes, rfl, rfl⟩

theorem Alike.trans {t : CodeRegion} (h : r.Alike s) (h' : s.Alike t) : r.Alike t := by
  obtain ⟨bytes, hsize, rfl⟩ := h
  obtain ⟨bytes', hsize', rfl⟩ := h'
  exact ⟨bytes', hsize'.trans hsize, rfl⟩

theorem withBytes_alike {bytes : Array UInt8} (h : bytes.size = r.buffer.size) :
    r.Alike (r.withBytes bytes) := ⟨bytes, h, rfl⟩

theorem Alike.size_eq (h : r.Alike s) : s.buffer.size = r.buffer.size := by
  obtain ⟨bytes, hsize, rfl⟩ := h
  exact hsize

theorem Alike.error_eq (h : r.Alike s) : s.buffer.error = r.buffer.error := by
  obtain ⟨bytes, -, rfl⟩ := h
  rfl

/-- Regions that are alike differ at most in their bytes. -/
theorem Alike.eq_of_bytes (h : r.Alike s) (hbytes : s.buffer.bytes = r.buffer.bytes) : s = r := by
  obtain ⟨bytes, -, rfl⟩ := h
  rw [bytes_withBytes] at hbytes
  rw [hbytes]
  rfl

theorem size_reserve (r : CodeRegion) (n : Nat) : (r.reserve n).buffer.size = r.buffer.size := by
  unfold reserve
  split
  · rfl
  · split <;> rfl

/-- How much a region reserves depends on the size of its bytes and not on the bytes. -/
theorem reserve_withBytes {bytes : Array UInt8} (h : bytes.size = r.buffer.size) (n : Nat) :
    (r.withBytes bytes).reserve n = (r.reserve n).withBytes bytes := by
  have hsize : (r.withBytes bytes).buffer.size = r.buffer.size := h
  have hrequest : (r.withBytes bytes).buffer.request? n = r.buffer.request? n := by
    simp only [CodeBuffer.request?, CodeBuffer.grownTo, hsize]
    rfl
  have hmemory : (r.withBytes bytes).host.memory = r.host.memory := rfl
  simp only [reserve, hrequest, hmemory]
  cases r.buffer.request? n with
  | none => rfl
  | some size => cases hgrant : r.host.memory.refusal? size <;> simp only [hgrant] <;> rfl

/-- Reservations look at the number of bytes only. -/
theorem fill_alike (h : r.Alike s) {bs bs' : List UInt8} (hlen : bs'.length = bs.length) :
    (r.fill bs).Alike (s.fill bs') := by
  obtain ⟨bytes, hsize, rfl⟩ := h
  have herror : ((r.reserve bs.length).withBytes bytes).buffer.error =
      (r.reserve bs.length).buffer.error := rfl
  simp only [fill, reserve_withBytes hsize, hlen, herror]
  cases (r.reserve bs.length).buffer.error with
  | none =>
    refine ⟨bytes ++ bs'.toArray, ?_, rfl⟩
    simp only [withBytes, CodeBuffer.size, Array.size_append, List.size_toArray] at hsize ⊢
    omega
  | some f => exact ⟨bytes, by rw [hsize, size_reserve], rfl⟩

/-- Filled with pieces of the same lengths, regions that are alike stay alike. -/
theorem fillAll_alike (h : r.Alike s) {ps ps' : List (List UInt8)}
    (hlen : List.Forall₂ (fun p p' => p'.length = p.length) ps ps') :
    (r.fillAll ps).Alike (s.fillAll ps') := by
  induction hlen generalizing r s with
  | nil => exact h
  | cons hp _ ih => exact ih (fill_alike h hp)

/-! ## The mappings of a region -/

/-- A region that was made on the host `h`. The mappings of `h` still exist and that of the region,
and no other. -/
structure Since (h : ExecHost) (r : CodeRegion) : Prop where
  writable : r.buffer.Writable
  live : r.host.live = r.mapping :: h.live
  numbered : r.mapping < r.host.requests.length
  /-- The requests for growth and the first one. -/
  asked : ∃ growth first, r.host.requests = growth ++ first :: h.requests ∧ first.granted = true ∧
    (r.buffer.error = none ↔ ∀ q ∈ growth, q.granted = true)
  same : r.host.grants = h.grants

/-- The bytes are inside the mapping, which is no larger than mappings are. -/
structure Roomy (r : CodeRegion) : Prop where
  increment : 0 < r.buffer.increment
  inside : r.buffer.size ≤ r.buffer.capacity
  capacity : (r.buffer.capacity : Int) ≤ Host.maxMapping.toInt

/-- The increment is positive, also where the one that is asked for is not. -/
theorem incrementOf_pos (n : Int64) : 0 < CodeBuffer.incrementOf n := by
  unfold CodeBuffer.incrementOf
  split
  · decide
  next h =>
    rw [Int64.not_le, Int64.lt_iff_toInt_lt] at h
    have hzero : (0 : Int64).toInt = 0 := rfl
    show 0 < n.toInt.toNat
    omega

theorem le_grownTo {b : CodeBuffer} (h : 0 < b.increment) (need : Nat) : need ≤ b.grownTo need := by
  unfold CodeBuffer.grownTo
  have hdiv := Nat.div_add_mod (need - b.capacity + (b.increment - 1)) b.increment
  have hmod := Nat.mod_lt (need - b.capacity + (b.increment - 1)) h
  rw [Nat.mul_comm] at hdiv
  omega

theorem le_of_granted {x : ExecMemory} {size : Nat} (h : x.refusal? size = none) :
    (size : Int) ≤ Host.maxMapping.toInt := by
  unfold ExecMemory.refusal? at h
  split at h
  · cases h
  · split at h
    · cases h
    · omega

/-- A new region: the host has one more request and the buffer is empty. -/
theorem new_eq_ok {h : ExecHost} {increment : Int64} (hok : new h increment = .ok r) :
    r.Since h ∧ r.Roomy ∧ r.buffer.error = none ∧ r.buffer.bytes = #[] ∧
      h.memory.refusal? (CodeBuffer.incrementOf increment) = none := by
  unfold new CodeBuffer.new at hok
  cases hgrant : h.memory.refusal? (CodeBuffer.incrementOf increment) with
  | some e =>
    simp only [hgrant] at hok
    cases hok
  | none =>
    simp only [hgrant] at hok
    cases hok
    refine ⟨⟨⟨rfl, rfl⟩, ?_, ?_, ⟨[], ⟨CodeBuffer.incrementOf increment, true⟩, ?_, rfl, ?_⟩, rfl⟩,
      ⟨incrementOf_pos increment, Nat.zero_le _, le_of_granted hgrant⟩, rfl, rfl, rfl⟩
    · simp [ExecHost.ask, hgrant]
    · simp [ExecHost.ask]
    · simp [ExecHost.ask, hgrant]
    · simp

/-- Without a mapping there is no region. -/
theorem new_eq_error {h h' : ExecHost} {increment : Int64} {f : Failure}
    (hno : new h increment = .error (f, h')) :
    h' = h.ask (CodeBuffer.incrementOf increment) ∧
      (h.memory.refusal? (CodeBuffer.incrementOf increment)).isSome ∧
      CodeBuffer.new h.memory increment = .error f := by
  unfold new at hno
  cases hnew : CodeBuffer.new h.memory increment with
  | ok b =>
    simp only [hnew] at hno
    cases hno
  | error f' =>
    simp only [hnew] at hno
    cases hno
    refine ⟨rfl, ?_, rfl⟩
    unfold CodeBuffer.new at hnew
    cases hgrant : h.memory.refusal? (CodeBuffer.incrementOf increment) with
    | none =>
      simp only [hgrant] at hnew
      cases hnew
    | some e => rfl

/-- One step of the invariant: a reservation keeps the region's mapping the only new one. -/
theorem Since.reserve {h : ExecHost} (hr : r.Since h) (n : Nat) : (r.reserve n).Since h := by
  obtain ⟨writable, live, numbered, ⟨growth, first, hasked, hfirst, herror⟩, same⟩ := hr
  unfold CodeRegion.reserve
  split
  · exact ⟨writable, live, numbered, ⟨growth, first, hasked, hfirst, herror⟩, same⟩
  next size hrequest =>
    have hnone : r.buffer.error = none := by
      unfold CodeBuffer.request? at hrequest
      split at hrequest
      next h =>
        rw [Bool.and_eq_true, Option.isNone_iff_eq_none] at h
        exact h.1
      · cases hrequest
    have hall := herror.mp hnone
    split
    next hgrant =>
      -- The new mapping takes the place of the old one.
      have hother : (r.host.requests.length == r.mapping) = false := by
        rw [beq_eq_false_iff_ne]
        omega
      refine ⟨⟨writable.open_, writable.mapped⟩, ?_, ?_,
        ⟨⟨size, true⟩ :: growth, first, ?_, hfirst, ?_⟩, same⟩
      · simp [moved, ExecHost.ask, ExecHost.drop, hgrant, live, hother]
      · simp [moved, ExecHost.ask, ExecHost.drop]
      · simp [moved, ExecHost.ask, ExecHost.drop, hgrant, hasked]
      · simpa [moved, hnone] using hall
    next e hgrant =>
      refine ⟨⟨writable.open_, writable.mapped⟩, ?_, ?_,
        ⟨⟨size, false⟩ :: growth, first, ?_, hfirst, ?_⟩, same⟩
      · simp [stuck, ExecHost.ask, hgrant, live]
      · simp [stuck, ExecHost.ask]
        omega
      · simp [stuck, ExecHost.ask, hgrant, hasked]
      · simp [stuck]

theorem Since.withBytes {h : ExecHost} (hr : r.Since h) (bytes : Array UInt8) :
    (r.withBytes bytes).Since h :=
  ⟨⟨hr.writable.open_, hr.writable.mapped⟩, hr.live, hr.numbered, hr.asked, hr.same⟩

/-- Filling a region asks for growth only, so all requests since its host stay accounted for. -/
theorem Since.fill {h : ExecHost} (hr : r.Since h) (bs : List UInt8) : (r.fill bs).Since h := by
  unfold CodeRegion.fill
  split
  · exact (hr.reserve _).withBytes _
  · exact hr.reserve _

theorem Since.fillAll {h : ExecHost} (hr : r.Since h) (pieces : List (List UInt8)) :
    (r.fillAll pieces).Since h := by
  induction pieces generalizing r with
  | nil => exact hr
  | cons bs pieces ih => exact ih (hr.fill bs)

/-- Nothing remains of a region that is released. -/
theorem Since.live_release {h : ExecHost} (hr : r.Since h) : r.release.host.live = h.live := by
  rw [release, if_pos hr.writable.mapped]
  simp [ExecHost.drop, hr.live]

/-- Nothing of the bytes remains either. -/
theorem Alike.release_eq (hs : r.Alike s) (h : r.buffer.mapped = true) : s.release = r.release := by
  obtain ⟨bytes, -, rfl⟩ := hs
  have hmapped : (r.withBytes bytes).buffer.mapped = true := h
  rw [release, release, if_pos h, if_pos hmapped]
  rfl

theorem requests_release (r : CodeRegion) : r.release.host.requests = r.host.requests := by
  unfold release
  split <;> rfl

/-- A region that reserves room has it, or has failed. -/
theorem Roomy.reserve (h : r.Roomy) (n : Nat) : (r.reserve n).Roomy ∧
    ((r.reserve n).buffer.error = none → r.buffer.size + n ≤ (r.reserve n).buffer.capacity) := by
  unfold CodeRegion.reserve
  cases hrequest : r.buffer.request? n with
  | none =>
    -- Nothing was asked for, because there is room or because the buffer has failed.
    refine ⟨h, ?_⟩
    intro hnone
    simp only [CodeBuffer.request?, hnone, Option.isNone_none, Bool.true_and, decide_eq_true_eq,
      ite_eq_right_iff, reduceCtorEq, imp_false, Nat.not_lt] at hrequest
    exact hrequest
  | some size =>
    have hsize : r.buffer.size + n ≤ size := by
      unfold CodeBuffer.request? at hrequest
      split at hrequest
      · cases hrequest
        exact le_grownTo h.increment _
      · cases hrequest
    dsimp only
    split
    next hgrant =>
      refine ⟨⟨h.increment, ?_, le_of_granted hgrant⟩, fun _ => hsize⟩
      exact Nat.le_trans (Nat.le_add_right _ n) hsize
    next e hgrant => exact ⟨⟨h.increment, h.inside, h.capacity⟩, nofun⟩

theorem Roomy.fill (h : r.Roomy) (bs : List UInt8) : (r.fill bs).Roomy := by
  obtain ⟨hroomy, hroom⟩ := h.reserve bs.length
  unfold CodeRegion.fill
  split
  next hnone =>
    refine ⟨hroomy.increment, ?_, hroomy.capacity⟩
    simp only [CodeRegion.withBytes, CodeBuffer.size, Array.size_append, List.size_toArray]
    exact hroom hnone
  · exact hroomy

theorem Roomy.alike (h : r.Roomy) (hs : r.Alike s) : s.Roomy := by
  obtain ⟨bytes, hsize, rfl⟩ := hs
  refine ⟨h.increment, ?_, h.capacity⟩
  show bytes.size ≤ r.buffer.capacity
  rw [hsize]
  exact h.inside

/-! ## Bytes -/

theorem writable_fill (h : r.buffer.Writable) (bs : List UInt8) : (r.fill bs).buffer.Writable := by
  have hreserve : (r.reserve bs.length).buffer.Writable := by
    unfold CodeRegion.reserve
    split
    · exact h
    · split <;> exact ⟨h.open_, h.mapped⟩
  unfold CodeRegion.fill
  split
  · exact ⟨hreserve.open_, hreserve.mapped⟩
  · exact hreserve

theorem writable_alike (h : r.buffer.Writable) (hs : r.Alike s) : s.buffer.Writable := by
  obtain ⟨bytes, -, rfl⟩ := hs
  exact ⟨h.open_, h.mapped⟩

/-- Where no failure is kept, there was none before and the bytes are there. -/
theorem bytes_fill (h : (r.fill bs).buffer.error = none) :
    r.buffer.error = none ∧ (r.fill bs).buffer.bytes = r.buffer.bytes ++ bs.toArray := by
  cases hr : r.buffer.error with
  | some f =>
    rw [fill_of_error hr, hr] at h
    cases h
  | none =>
    refine ⟨rfl, ?_⟩
    unfold CodeRegion.fill at h ⊢
    cases hreserve : (r.reserve bs.length).buffer.error with
    | none => rfl
    | some f =>
      simp only [hreserve] at h
      cases h

/-- In a region that has not failed the pieces stand one after the other. -/
theorem bytes_fillAll {pieces : List (List UInt8)} (h : (r.fillAll pieces).buffer.error = none) :
    r.buffer.error = none ∧
      (r.fillAll pieces).buffer.bytes = r.buffer.bytes ++ pieces.flatten.toArray := by
  induction pieces generalizing r with
  | nil => exact ⟨h, by simp⟩
  | cons bs pieces ih =>
    obtain ⟨hfill, hbytes⟩ := ih h
    obtain ⟨hnone, hfirst⟩ := bytes_fill hfill
    refine ⟨hnone, ?_⟩
    rw [fillAll_cons, hbytes, hfirst]
    simp

/-- A field inside the bytes can be overwritten. -/
theorem patch_eq_ok (h : r.buffer.Writable) (hroomy : r.Roomy) {off : Nat}
    (hin : off + bs.length ≤ r.buffer.size) :
    r.patch (Int64.ofNat off) bs =
      .ok (r.withBytes (CodeBuffer.overwrite r.buffer.bytes off bs)) := by
  -- All numbers of the check are below the largest mapping, so none of the signed words wraps.
  have hmax : Host.maxMapping.toInt = 2 ^ 47 := rfl
  have hcapacity := hroomy.capacity
  have hinside := hroomy.inside
  have hoff : (Int64.ofNat off).toInt = off := Int64.toInt_ofNat_of_lt (by omega)
  have hlen : (Int64.ofNat bs.length).toInt = bs.length := Int64.toInt_ofNat_of_lt (by omega)
  have hsize : (Int64.ofNat r.buffer.size).toInt = r.buffer.size :=
    Int64.toInt_ofNat_of_lt (by omega)
  have hstop : (Int64.ofNat off + Int64.ofNat bs.length).toInt = off + bs.length := by
    rw [toInt_add_of_bounds (by omega) (by omega), hoff, hlen]
  have hbounds : ¬ (Int64.ofNat off < 0 ∨
      Int64.ofNat r.buffer.size < Int64.ofNat off + Int64.ofNat bs.length) := by
    rw [toInt_neg_iff, Int64.lt_iff_toInt_lt, hstop, hoff, hsize]
    omega
  have hwrap : ¬ Int64.ofNat off + Int64.ofNat bs.length < Int64.ofNat off := by
    rw [Int64.lt_iff_toInt_lt, hstop, hoff]
    omega
  have hnat : (Int64.ofNat off).toNatClampNeg = off := Int64.toNatClampNeg_ofNat_of_lt (by omega)
  obtain ⟨host, ⟨bytes, capacity, increment, error, final, mapped⟩, mapping⟩ := r
  obtain rfl : final = false := h.open_
  simp only [patch, CodeBuffer.patch, Bool.false_eq_true, if_false, if_neg hbounds,
    if_neg hwrap, hnat]
  rfl

theorem size_overwrite (code : Array UInt8) (pos : Nat) (bs : List UInt8) :
    (CodeBuffer.overwrite code pos bs).size = code.size := by
  induction bs generalizing code pos with
  | nil => rfl
  | cons b bs ih => rw [CodeBuffer.overwrite, ih, Array.size_setIfInBounds]

end CodeRegion

end BlockVM
