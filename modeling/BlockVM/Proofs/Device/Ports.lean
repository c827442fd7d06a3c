import BlockVM.Machine.Eval
import BlockVM.Proofs.Memory.History

/-!
# Port banks as byte memories

A bank keeps its bytes as an arena does: `stored?` says which requests it grants, and after any
requests that no handler takes a read gives the number that the bytes stored last stand for
(`Attended.read_run`). A write to a port with a handler is the other way to reach a bank.
`Attended.served` says that it hands over the low bytes of its value, once, and that what it leaves
behind is what the handler makes of the bank.
-/

namespace BlockVM

open Bytes (Stored latest number widths)

namespace Bank

variable {η : Type} {b : Bank η} {port : UInt32} {width : Int64} {v : UInt64}

/-! ## Bytes -/

def byte (b : Bank η) (i : Nat) : UInt8 := b.bytes.get (place i)

/-- A byte that is set changes no other byte of the bank. -/
theorem get_set (bytes : Vector UInt8 256) {j i : Nat} (hj : j < 256) (hi : i < 256) (x : UInt8) :
    (bytes.set (place j) x).get (place i) = if j = i then x else bytes.get (place i) := by
  have hj' : (place j).val = j := Nat.mod_eq_of_lt hj
  have hi' : (place i).val = i := Nat.mod_eq_of_lt hi
  show (bytes.set (place j) x)[(place i).val] = if j = i then x else bytes[(place i).val]
  simp only [Vector.getElem_set, hj', hi']

/-- Bytes that are put somewhere are found there. -/
theorem get_put {port i : Nat} {vs : List UInt8} (bytes : Vector UInt8 256)
    (h : port + vs.length ≤ 256) (hi : i < 256) :
    (put bytes port vs).get (place i) =
      if port ≤ i ∧ i < port + vs.length then vs.getD (i - port) 0 else bytes.get (place i) := by
  induction vs generalizing bytes port with
  | nil =>
    rw [put, if_neg]
    simp only [List.length_nil]
    omega
  | cons x vs ih =>
    rw [List.length_cons] at h ⊢
    -- The first byte goes to `port`, and the others do not reach it again.
    rw [put, ih _ (by omega), get_set _ (by omega) hi]
    by_cases heq : port = i
    · subst heq
      rw [if_neg (by omega), if_pos rfl, if_pos (by omega), Nat.sub_self, List.getD_cons_zero]
    · rw [if_neg heq]
      by_cases hin : port + 1 ≤ i ∧ i < port + 1 + vs.length
      · rw [if_pos hin, if_pos (by omega), show i - port = i - (port + 1) + 1 by omega,
          List.getD_cons_succ]
      · rw [if_neg hin, if_neg (by omega)]

/-- A field of the bank is made of the bytes from its port on. -/
theorem get_eq_map (b : Bank η) (port n : Nat) :
    get b.bytes port n = (List.range n).map fun k => b.byte (port + k) := by
  induction n generalizing port with
  | zero => rfl
  | succ n ih =>
    rw [get, ih, List.range_succ_eq_map, List.map_cons, List.map_map]
    congr 1
    apply List.map_congr_left
    intro k _
    rw [Function.comp_apply, Nat.add_assoc, Nat.add_comm 1]

/-! ## Requests -/

/-- An access that a bank is asked for. -/
inductive Request where
  | store (port : UInt32) (width : Int64) (v : UInt64)
  | float (port : UInt32) (bits : UInt32)
  | write (port : UInt32) (width : Int64) (v : UInt64)
deriving DecidableEq, Repr

/-- The range exists: its width is one of the four, and all its bytes are ports. -/
def Spans (port : Nat) (n : Int) : Prop := n ∈ widths ∧ port + n ≤ 256

instance (port : Nat) (n : Int) : Decidable (Spans port n) :=
  inferInstanceAs (Decidable (n ∈ widths ∧ port + n ≤ 256))

/-- What a store of `n` bytes leaves behind, if the range exists. -/
def granted (port : Nat) (n : Int) (v : Nat) : Option Stored :=
  if Spans port n then some ⟨port, n.toNat, v⟩ else none

def Request.stored? : Request → Option Stored
  | store port width v | write port width v => granted port.toNat width.toInt v.toNat
  | float port bits => granted port.toNat 4 bits.toNat

/-- No handler other than a latch takes the request. -/
def Request.IsPlain (b : Bank η) : Request → Prop
  | store .. | float .. => True
  | write port .. => port.toNat < 256 → ∀ h, b.handler port ≠ some (.call h)

/-- A field that spans bytes of the bank ends within it. -/
theorem Spans.fits (h : Spans port.toNat width.toInt) : port.toNat + width.toNatClampNeg ≤ 256 := by
  have hn := Arena.nonneg_of_mem_widths h.1
  have hle := h.2
  show port.toNat + width.toInt.toNat ≤ 256
  omega

theorem Spans.port_lt (h : Spans port.toNat width.toInt) : port.toNat < 256 := by
  have hpos := h.1
  have hle := h.2
  simp only [widths, List.mem_cons, List.not_mem_nil, or_false] at hpos
  omega

theorem span_of_spans (h : Spans port.toNat width.toInt) : span port width = .ok () := by
  have hwidth : (width == 1 || width == 2 || width == 4 || width == 8) = true :=
    Arena.isWidth_iff.mpr h.1
  have hend : ¬ 256 < port.toNat + width.toNatClampNeg := Nat.not_lt.mpr h.fits
  simp only [span, hwidth, Bool.not_true, Bool.false_eq_true, if_false, hend]

theorem span_of_not_spans (h : ¬ Spans port.toNat width.toInt) :
    ∃ f, span port width = .error f := by
  simp only [span]
  split
  · exact ⟨_, rfl⟩
  next hwidth =>
    have hmem : width.toInt ∈ widths := by
      apply Arena.isWidth_iff.mp
      rwa [Bool.not_eq_true, Bool.not_eq_false'] at hwidth
    rw [if_pos]
    · exact ⟨_, rfl⟩
    · have hn := Arena.nonneg_of_mem_widths hmem
      have hfar : ¬ (port.toNat : Int) + width.toInt ≤ 256 := fun hle => h ⟨hmem, hle⟩
      show 256 < port.toNat + width.toInt.toNat
      omega

/-- A store in range changes the bytes that it reaches. -/
theorem store_of_spans (h : Spans port.toNat width.toInt) :
    ∃ b', b.store port width v = .ok b' ∧ b'.handlers = b.handlers ∧ ∀ i < 256,
      b'.byte i = (Stored.byte? ⟨port.toNat, width.toNatClampNeg, v.toNat⟩ i).getD (b.byte i) := by
  have hstore : b.store port width v = .ok { b with
      bytes := put b.bytes port.toNat (LittleEndian.bytes width.toNatClampNeg v.toNat) } := by
    rw [store, span_of_spans h]
    rfl
  refine ⟨_, hstore, rfl, fun i hi => ?_⟩
  have hlen := LittleEndian.length_bytes width.toNatClampNeg v.toNat
  have hend := h.fits
  rw [byte, get_put _ (by rwa [hlen]) hi, hlen, Stored.byte?]
  by_cases hin : port.toNat ≤ i ∧ i < port.toNat + width.toNatClampNeg
  · have hk : i - port.toNat < (LittleEndian.bytes width.toNatClampNeg v.toNat).length := by omega
    rw [if_pos hin, if_pos hin, List.getD_eq_getElem?_getD, List.getElem?_eq_getElem hk,
      LittleEndian.getElem_bytes, Option.getD_some, Option.getD_some]
  · rw [if_neg hin, if_neg hin, Option.getD_none, byte]

/-- The value that is handed to a handler. -/
theorem toNat_cut (h : width.toInt ∈ widths) :
    (cut width v).toNat = v.toNat % 256 ^ width.toNatClampNeg := by
  have hle : 256 ^ width.toNatClampNeg ≤ 256 ^ 8 :=
    Nat.pow_le_pow_right (by decide) (Arena.le_eight_of_mem_widths h)
  have hlt : v.toNat % 256 ^ width.toNatClampNeg < 256 ^ width.toNatClampNeg :=
    Nat.mod_lt _ (Nat.pow_pos (by decide))
  rw [cut, LittleEndian.toUInt64_bytes, UInt64.toNat_ofNat_of_lt' (Nat.lt_of_lt_of_le hlt hle)]

/-- A read in range gives the number that its bytes stand for. -/
theorem read_eq_number (h : Spans port.toNat width.toInt) :
    ∃ v, b.read port width = .ok v ∧ v.toNat = number b.byte port.toNat width.toNatClampNeg := by
  have hread : b.read port width =
      .ok (LittleEndian.toUInt64 (get b.bytes port.toNat width.toNatClampNeg)) := by
    rw [read, span_of_spans h]
    rfl
  refine ⟨_, hread, ?_⟩
  rw [get_eq_map]
  exact Bytes.toNat_toUInt64_run _ _ (Arena.le_eight_of_mem_widths h.1)

end Bank

/-! ## Banks with their handlers -/

/-- What a handler makes of the bank that was written to, given the width and the value. -/
abbrev Response (η : Type) := η → Int64 → UInt64 → Bank η → Bank η × Option Failure

/-- A bank, with the calls that its handlers got. -/
structure Attended (η : Type) where
  bank : Bank η
  calls : List (η × Int64 × UInt64) := []

namespace Attended

variable {η : Type}

def keep (s : Attended η) : Except Failure (Bank η) → Attended η × Option Failure
  | .error f => (s, some f)
  | .ok b => ({ s with bank := b }, none)

/-- Carries a request out, and says whether it failed. -/
def perform (respond : Response η) (s : Attended η) :
    Bank.Request → Attended η × Option Failure
  | .store port width v => s.keep (s.bank.store port width v)
  | .float port bits => s.keep (s.bank.storeFloat port bits)
  | .write port width v =>
    match s.bank.write port width v with
    | .error f => (s, some f)
    | .ok (.stored b) => ({ s with bank := b }, none)
    | .ok (.passed h value) =>
      let (b, failure) := respond h width value s.bank
      ({ bank := b, calls := s.calls ++ [(h, width, value)] },
        failure.map (Bank.handlerFailure port))

def serve (respond : Response η) (s : Attended η) (r : Bank.Request) : Attended η :=
  (s.perform respond r).1

variable (respond : Response η) (s : Attended η) {port : UInt32} {width : Int64} {v : UInt64}
  {r : Bank.Request}

/-- A write that no handler takes is a store. -/
theorem perform_write_of_plain (h : (Bank.Request.write port width v).IsPlain s.bank) :
    s.perform respond (.write port width v) = s.perform respond (.store port width v) := by
  by_cases hspans : Bank.Spans port.toNat width.toInt
  · -- Without a handler and with a latch the value is stored; another handler there is none.
    obtain ⟨b', hstore, -⟩ := Bank.store_of_spans (b := s.bank) (v := v) hspans
    simp only [perform, Bank.write, Bank.span_of_spans hspans, hstore, bind, Except.bind]
    cases hhandler : s.bank.handler port with
    | none => rfl
    | some handler =>
      cases handler with
      | latch => rfl
      | call h' => exact absurd hhandler (h hspans.port_lt h')
  · obtain ⟨f, hspan⟩ := Bank.span_of_not_spans hspans
    simp only [perform, Bank.write, Bank.store, hspan, bind, Except.bind, keep]

/-- A request out of range, or of a width that does not exist, fails and changes nothing. -/
theorem perform_refused (h : r.stored? = none) : ∃ f, s.perform respond r = (s, some f) := by
  -- Whatever the request is, its range is looked at first.
  have refused {port : UInt32} {width : Int64} {v : Nat}
      (h : Bank.granted port.toNat width.toInt v = none) : ∃ f,
      Bank.span port width = .error f := by
    apply Bank.span_of_not_spans
    intro hspans
    rw [Bank.granted, if_pos hspans] at h
    cases h
  cases r with
  | store port width v =>
    obtain ⟨f, hspan⟩ := refused h
    exact ⟨f, by simp only [perform, Bank.store, hspan, bind, Except.bind, keep]⟩
  | float port bits =>
    obtain ⟨f, hspan⟩ : ∃ f, Bank.span port 4 = .error f := refused h
    exact ⟨f, by simp only [perform, Bank.storeFloat, Bank.store, hspan, bind, Except.bind, keep]⟩
  | write port width v =>
    obtain ⟨f, hspan⟩ := refused h
    exact ⟨f, by simp only [perform, Bank.write, hspan, bind, Except.bind]⟩

/-- What becomes of a request that no handler takes and the bank grants. -/
structure Kept (respond : Response η) (s : Attended η) (r : Bank.Request) (w : Stored) : Prop where
  succeeds : (s.perform respond r).2 = none
  handlers : (s.serve respond r).bank.handlers = s.bank.handlers
  calls : (s.serve respond r).calls = s.calls
  bytes : ∀ i < 256, (s.serve respond r).bank.byte i = (w.byte? i).getD (s.bank.byte i)

/-- A store that reaches the bank itself keeps its bytes there. -/
theorem kept_store {w : Stored} (h : (Bank.Request.store port width v).stored? = some w) :
    Kept respond s (.store port width v) w := by
  rw [Bank.Request.stored?, Bank.granted] at h
  split at h
  next hspans =>
    cases h
    obtain ⟨b', hstore, hhandlers, hbytes⟩ := Bank.store_of_spans (b := s.bank) (v := v) hspans
    have hperform : s.perform respond (.store port width v) = ({ s with bank := b' }, none) := by
      rw [perform, hstore, keep]
    constructor <;> simp only [serve, hperform]
    · exact hhandlers
    · exact hbytes
  · cases h

/-- Whatever was granted to be stored is what the bank then has. -/
theorem kept {w : Stored} (hplain : r.IsPlain s.bank) (h : r.stored? = some w) :
    Kept respond s r w := by
  cases r with
  | store port width v => exact kept_store respond s h
  | float port bits =>
    have hword : (Bank.Request.store port 4 bits.toUInt64).stored? = some w := by
      rw [← h, Bank.Request.stored?, Bank.Request.stored?, UInt32.toNat_toUInt64]
      rfl
    obtain ⟨succeeds, handlers, calls, bytes⟩ := kept_store respond s hword
    exact ⟨succeeds, handlers, calls, bytes⟩
  | write port width v =>
    have hperform := perform_write_of_plain respond s hplain
    obtain ⟨succeeds, handlers, calls, bytes⟩ := kept_store respond s h
    simp only [serve, ← hperform] at succeeds handlers calls bytes
    exact ⟨succeeds, handlers, calls, bytes⟩

/-- What becomes of a request. One that is refused changes nothing, one that no handler takes is
stored, and a handled write calls its handler once, with the low bytes of the value: the bank is
then what the handler makes of it. -/
structure Served (respond : Response η) (s : Attended η) (r : Bank.Request) : Prop where
  refused : r.stored? = none → ∃ f, s.perform respond r = (s, some f)
  kept : ∀ w, r.IsPlain s.bank → r.stored? = some w → Kept respond s r w
  handled : ∀ port width v h, r = .write port width v → r.stored? ≠ none →
    s.bank.handler port = some (.call h) →
      ∃ value : UInt64, value.toNat = v.toNat % 256 ^ width.toNatClampNeg ∧
        s.perform respond r =
          (⟨(respond h width value s.bank).1, s.calls ++ [(h, width, value)]⟩,
            (respond h width value s.bank).2.map (Bank.handlerFailure port))

/-- Every request is served as the bank's specification says: one case for each kind of it. -/
theorem served (r : Bank.Request) : Served respond s r := by
  refine ⟨perform_refused respond s, fun _ => kept respond s, ?_⟩
  rintro port width v h rfl hstored hhandler
  have hspans : Bank.Spans port.toNat width.toInt := by
    by_contra hspans
    exact hstored (if_neg hspans)
  refine ⟨Bank.cut width v, Bank.toNat_cut hspans.1, ?_⟩
  simp only [perform, Bank.write, Bank.span_of_spans hspans, hhandler, bind, Except.bind, pure,
    Except.pure]

/-! ### Runs of requests -/

/-- Since `s₀` no handler changed or got a call. -/
structure Quiet (s₀ s : Attended η) : Prop where
  handlers : s.bank.handlers = s₀.bank.handlers
  calls : s.calls = s₀.calls

/-- A request that no handler takes at first is taken by none as long as the handlers stay. -/
theorem Quiet.isPlain {s₀ s : Attended η} (h : Quiet s₀ s) (hplain : r.IsPlain s₀.bank) :
    r.IsPlain s.bank := by
  cases r with
  | store => trivial
  | float => trivial
  | write port width v =>
    intro hport
    rw [Bank.handler, h.handlers]
    exact hplain hport

/-- What a bank holds follows what is stored in it, as long as no handler takes a request. -/
theorem follows (s₀ : Attended η) :
    Bytes.Follows 256 (·.bank.byte) (serve respond) Bank.Request.stored? (Quiet s₀)
      (·.IsPlain s₀.bank) where
  keeps {s r} hquiet hplain := by
    cases hr : r.stored? with
    | none =>
      obtain ⟨f, hperform⟩ := perform_refused respond s hr
      rwa [serve, hperform]
    | some w =>
      have hkept := kept respond s (hquiet.isPlain hplain) hr
      exact ⟨hkept.handlers.trans hquiet.handlers, hkept.calls.trans hquiet.calls⟩
  bytes {s r} hquiet hplain i hi := by
    cases hr : r.stored? with
    | none =>
      obtain ⟨f, hperform⟩ := perform_refused respond s hr
      rw [serve, hperform]
      rfl
    | some w => exact (kept respond s (hquiet.isPlain hplain) hr).bytes i hi

/-- After any requests that no handler takes, no handler was called, and a read in range gives the
number that the bytes stored last stand for. -/
theorem read_run {rs : List Bank.Request} (hrs : ∀ r ∈ rs, r.IsPlain s.bank) :
    (rs.foldl (serve respond) s).calls = s.calls ∧
      ∀ port width, Bank.Spans port.toNat width.toInt →
        ∃ v, (rs.foldl (serve respond) s).bank.read port width = .ok v ∧
          v.toNat = number (latest s.bank.byte (rs.filterMap Bank.Request.stored?)) port.toNat
            width.toNatClampNeg := by
  have hfollows := follows respond s
  refine ⟨(hfollows.keeps_all ⟨rfl, rfl⟩ hrs).calls, fun port width hspans => ?_⟩
  obtain ⟨v, hread, hv⟩ := Bank.read_eq_number (b := (rs.foldl (serve respond) s).bank) hspans
  exact ⟨v, hread, hv.trans (hfollows.number ⟨rfl, rfl⟩ hrs hspans.fits)⟩

end Attended

/-- A core serves a handled write in the same way. -/
theorem Machine.output_handled (m : Machine) {port : UInt32} {width : Nat} {v : UInt64}
    {h : CorePort} (hspans : Bank.Spans port.toNat (Int64.ofNat width).toInt)
    (hhandler : m.core.ports.handler port = some (.call h)) :
    ∃ value : UInt64, value.toNat = v.toNat % 256 ^ (Int64.ofNat width).toNatClampNeg ∧
      m.output port width v =
        ((m.serve h value).1, (m.serve h value).2.map (Bank.handlerFailure port)) := by
  refine ⟨Bank.cut (Int64.ofNat width) v, Bank.toNat_cut hspans.1, ?_⟩
  simp only [Machine.output, Bank.write, Bank.span_of_spans hspans, hhandler, bind,
    Except.bind, pure, Except.pure]

/-- Arenas and banks are little-endian byte memories: every request is served as it should be, and
after any requests a read gives the sum of the bytes stored last, each weighted by its place. A
core's write to a port with a handler reaches the handler once, with the value modulo the width. -/
theorem memories_are_little_endian (a : Arena) (m : Memory) (hsize : a.size < 2 ^ 63)
    (rs : List Arena.Request) {η : Type} (respond : Response η) (s : Attended η)
    (qs : List Bank.Request) (hplain : ∀ q ∈ qs, q.IsPlain s.bank) :
    ((∀ m' r, a.Served m' r) ∧
      ∀ off n : Int64, n.toInt ∈ widths → a.Within off n →
        ∃ v, a.read (rs.foldl a.serve m) off n = .ok v ∧
          v.toNat = number (latest (a.byte m) (rs.filterMap (·.stored? a))) off.toNatClampNeg
            n.toNatClampNeg) ∧
    ((∀ s' q, Attended.Served respond s' q) ∧
      (qs.foldl (Attended.serve respond) s).calls = s.calls ∧
      ∀ port width, Bank.Spans port.toNat width.toInt →
        ∃ v, (qs.foldl (Attended.serve respond) s).bank.read port width = .ok v ∧
          v.toNat = number (latest s.bank.byte (qs.filterMap Bank.Request.stored?)) port.toNat
            width.toNatClampNeg) ∧
    ∀ (core : Machine) port width v h, Bank.Spans port.toNat (Int64.ofNat width).toInt →
      core.core.ports.handler port = some (.call h) →
        ∃ value : UInt64, value.toNat = v.toNat % 256 ^ (Int64.ofNat width).toNatClampNeg ∧
          core.output port width v =
            ((core.serve h value).1, (core.serve h value).2.map (Bank.handlerFailure port)) := by
  refine ⟨⟨fun m' r => Arena.served hsize r, fun off n hwidth hin => ?_⟩,
    ⟨Attended.served respond, Attended.read_run respond s hplain⟩,
    fun core port width v h hspans hh => ?_⟩
  · exact Arena.read_serve hsize rs hwidth hin
  · exact core.output_handled hspans hh

/-- Stores that overlap in an arena. The last two are refused. -/
def overlaps : List Arena.Request :=
  [.word 0 8 0x1122334455667788, .float 6 0x3f800000, .word 4090 8 1, .word 0 3 1]

/-- Stores that overlap across the ports of a core. The last one is out of range. -/
def crossings : List Bank.Request :=
  [.store 0x0a 8 0x1122334455667788, .write Port.stringCommand 2 0x3aabb, .float 0x10 0x3f800000,
    .write 0xff 2 1]

/-- Reads that meet what several stores left behind, and a write that a handler takes. -/
theorem memories_are_little_endian_wired :
    (∃ v, Arena.fullPage.read (overlaps.foldl Arena.fullPage.serve {}) 4 4 = .ok v ∧
      v.toNat = 0x3344) ∧
    (∃ v, (crossings.foldl (Attended.serve fun _ _ _ b => (b, none))
     ⟨Proc.wiredPorts, []⟩).bank.read Port.fileCommand 4 = .ok v ∧ v.toNat = 0x33aabb66) ∧
    ∃ value : UInt64, value.toNat = 0x41 ∧
      (Attended.perform (fun _ _ _ b => (b, none)) ⟨Proc.wiredPorts, []⟩
        (.write Port.keyboard 1 0x141)).1.calls = [(.keyboard, 1, value)] := by
  have hlatch : Proc.wiredPorts.handler Port.stringCommand = some .latch := by decide +kernel
  have hcall : Proc.wiredPorts.handler Port.keyboard = some (.call .keyboard) := by decide +kernel
  have hnone : Proc.wiredPorts.handler 0xff = none := by decide +kernel
  have hplain : ∀ q ∈ crossings, q.IsPlain Proc.wiredPorts := by
    simp only [crossings, List.forall_mem_cons, Bank.Request.IsPlain, hlatch, hnone]
    exact ⟨trivial, fun _ _ => nofun, trivial, fun _ _ => nofun, nofun⟩
  obtain ⟨⟨-, harena⟩, ⟨hserved, -, hbank⟩, -⟩ :=
    memories_are_little_endian Arena.fullPage {} (by decide) overlaps (fun _ _ _ b => (b, none))
      ⟨Proc.wiredPorts, []⟩ crossings hplain
  obtain ⟨v, hv, hnumber⟩ := harena 4 4 (by decide) ⟨by decide, by decide, by decide⟩
  obtain ⟨w, hw, hnumber'⟩ := hbank Port.fileCommand 4 (by decide)
  obtain ⟨value, hvalue, hcalled⟩ := (hserved ⟨Proc.wiredPorts, []⟩
    (.write Port.keyboard 1 0x141)).handled _ _ _ _ rfl (by decide) hcall
  refine ⟨⟨v, hv, hnumber.trans (by decide +kernel)⟩, ⟨w, hw, hnumber'.trans (by decide +kernel)⟩,
    value, hvalue, ?_⟩
  rw [hcalled]
  rfl

end BlockVM
