import BlockVM.Command.Pack
import BlockVM.Proofs.Image.Truncation
import BlockVM.Proofs.Isa.Sweep

/-!
# What a description says

`info` prints one field after the other. The number of instructions is that of the longest partition
of the code from its start on, and the address where that partition ends is printed if it is neither
the end of the code nor 0.

The printer of outlines is a parameter. `Yaml.Prints` is all that is used of it, and `Yaml.render`
is such a printer (`Yaml.prints_render`).
-/

namespace BlockVM

namespace Yaml

/-! ## Printers -/

def field (key value : String) : String := key ++ ": " ++ value

def IsName (key : String) : Prop := key.toList ≠ [] ∧ ∀ c ∈ key.toList, c.isAlpha = true

/-- What is expected of a printer: it prints an outline of named fields as lines, and the line of a
field with a number stands there if and only if the outline has that field. -/
structure Prints (print : Yaml → String) : Prop where
  lines : ∀ entries : List (String × Yaml), entries ≠ [] → (∀ e ∈ entries, IsName e.1) →
    ∃ lines : List String, print (.fields entries) = String.join (lines.map (· ++ "\n")) ∧
      ∀ key value, IsName key → (∀ e ∈ entries, e.1 = key → ∃ i : Int, e.2 = .int i) →
        (field key value ∈ lines ↔ ∃ i : Int, (key, .int i) ∈ entries ∧ value = toString i)

variable {key key' value value' : String} {entries : List (String × Yaml)}

/-- The colon is no letter. -/
theorem IsName.not_colon (h : IsName key) : ':' ∉ key.toList :=
  fun hc => absurd (h.2 ':' hc) (by decide)

/-- A name ends at the first colon of its line. -/
theorem IsName.eq_of_append (h : IsName key) (h' : IsName key') {t t' : List Char}
    (same : key.toList ++ ':' :: t = key'.toList ++ ':' :: t') : key = key' ∧ t = t' := by
  have before (k : String) (hk : IsName k) (u : List Char) :
      (k.toList ++ ':' :: u).takeWhile (· != ':') = k.toList := by
    rw [List.takeWhile_append_of_pos]
    · rw [List.takeWhile_cons_of_neg (by decide), List.append_nil]
    · intro c hc
      exact bne_iff_ne.mpr fun colon => hk.not_colon (colon ▸ hc)
  have hkey : key.toList = key'.toList := by
    rw [← before key h t, same, before key' h' t']
  rw [hkey, List.append_cancel_left_eq, List.cons.injEq] at same
  exact ⟨String.toList_inj.mp hkey, same.2⟩

/-- A line names its field and shows its value: the first colon of the line ends the name. -/
theorem field_eq_iff (h : IsName key) (h' : IsName key') :
    field key value = field key' value' ↔ key = key' ∧ value = value' := by
  constructor
  · intro same
    have chars := congrArg String.toList same
    simp only [field, String.toList_append, List.append_assoc] at chars
    obtain ⟨hkey, rest⟩ := h.eq_of_append h' chars
    exact ⟨hkey, String.toList_inj.mp (List.cons.inj rest).2⟩
  · rintro ⟨rfl, rfl⟩
    rfl

/-- A field whose value follows on other lines has no value on its own. -/
theorem field_ne_heading (h : IsName key) (h' : IsName key') : field key value ≠ key' ++ ":" := by
  intro same
  have chars := congrArg String.toList same
  simp only [field, String.toList_append, List.append_assoc] at chars
  cases (h.eq_of_append h' chars).2

/-- Lines of a value are indented, fields are not. -/
theorem field_ne_indented (h : IsName key) (line : String) : field key value ≠ "  " ++ line := by
  intro same
  have chars := congrArg String.toList same
  simp only [field, String.toList_append, List.append_assoc] at chars
  cases hkey : key.toList with
  | nil => exact h.1 hkey
  | cons c rest =>
    rw [hkey, List.cons_append] at chars
    have blank : c = ' ' := (List.cons.inj chars).1
    exact absurd (h.2 c (hkey ▸ .head _)) (by rw [blank]; decide)

/-- The lines of the entries are printed one entry after the other. -/
theorem entryLines_cons (key : String) (y : Yaml) (entries : List (String × Yaml)) :
    entryLines ((key, y) :: entries) = entryLines [(key, y)] ++ entryLines entries := by
  have last : entryLines [] = [] := by rw [entryLines]
  conv_lhs => unfold entryLines
  conv_rhs =>
    lhs
    unfold entryLines
  rw [last, List.append_nil]

theorem entryLines_int (key : String) (i : Int) :
    entryLines [(key, .int i)] = [field key (toString i)] := by
  simp [entryLines, lines, int, field]

/-- What is printed under one name is not printed under another. -/
theorem field_not_mem_entryLines (hkey : IsName key) (hkey' : IsName key') (hne : key ≠ key')
    (y : Yaml) : field key value ∉ entryLines [(key', y)] := by
  have sameLine (s : String) : field key value ≠ field key' s :=
    fun same => hne ((field_eq_iff hkey hkey').mp same).1
  have oneLine (s : String) : field key value ∉ [s].map ((key' ++ ": ") ++ ·) ++ entryLines [] := by
    rw [entryLines, List.append_nil]
    exact fun hmem => sameLine s (List.mem_singleton.mp hmem)
  have ownLines (ls : List String) :
      field key value ∉ (key' ++ ":") :: ls.map ("  " ++ ·) ++ entryLines [] := by
    rw [entryLines, List.append_nil, List.mem_cons, not_or]
    refine ⟨field_ne_heading hkey hkey', fun hmem => ?_⟩
    obtain ⟨line, -, same⟩ := List.mem_map.mp hmem
    exact field_ne_indented hkey line same.symm
  -- A value is printed behind its key when it fits on one line, and on lines of its own otherwise.
  cases y with
  | word s => exact oneLine s
  | text s => exact oneLine (scalar s)
  | list items =>
    cases items with
    | nil => exact oneLine "[]"
    | cons x rest => exact ownLines _
  | fields entries =>
    cases entries with
    | nil => exact oneLine "{}"
    | cons e rest => exact ownLines _

/-- Numbers are printed in lines of their own, name and value. -/
theorem field_mem_entryLines (hkey : IsName key) (names : ∀ e ∈ entries, IsName e.1)
    (numbers : ∀ e ∈ entries, e.1 = key → ∃ i : Int, e.2 = .int i) :
    field key value ∈ entryLines entries ↔ ∃ i : Int, (key, .int i) ∈ entries ∧
    value = toString i := by
  induction entries with
  | nil =>
    rw [entryLines]
    exact ⟨nofun, fun ⟨_, hmem, _⟩ => nomatch hmem⟩
  | cons e entries ih =>
    obtain ⟨key', y⟩ := e
    obtain ⟨hkey', names⟩ := List.forall_mem_cons.mp names
    obtain ⟨number, numbers⟩ := List.forall_mem_cons.mp numbers
    rw [entryLines_cons, List.mem_append, ih names numbers]
    simp only [List.mem_cons, or_and_right, exists_or]
    refine or_congr_left ?_
    -- Only an entry of the key itself can print the line, and such an entry is a number.
    by_cases same : key' = key
    · obtain ⟨i, hy⟩ := number same
      obtain rfl : key' = key := same
      obtain rfl : y = .int i := hy
      rw [entryLines_int, List.mem_singleton, field_eq_iff hkey hkey, and_iff_right rfl]
      constructor
      · rintro rfl
        exact ⟨i, rfl, rfl⟩
      · rintro ⟨j, hentry, rfl⟩
        exact Yaml.word.inj (Prod.mk.inj hentry).2
    · refine iff_of_false (field_not_mem_entryLines hkey hkey' (Ne.symm same) y) ?_
      rintro ⟨i, hentry, -⟩
      exact same (congrArg Prod.fst hentry).symm

/-- Outlines are rendered by such a printer. -/
theorem prints_render : Prints render where
  lines entries some names := by
    obtain ⟨e, rest, rfl⟩ := List.exists_cons_of_ne_nil some
    refine ⟨entryLines (e :: rest), ?_, fun key value hkey => field_mem_entryLines hkey names⟩
    rw [render, lines]
    exact List.cons_ne_nil e rest

end Yaml

namespace Command

open Isa (Complete Longest Partition Stuck Swept Sweeps)
open Yaml (IsName Prints field)

variable {c : Image.Codec} {print : Yaml → String} {w : World} {g : Given} {path : String}
  {p : Program}

/-! ## Fields -/

/-- The fields of a description that always stand there. -/
def summary (c : Image.Codec) (p : Program) (count : Nat) : List (String × Yaml) := [
  ("id", .text (Image.id c p)),
  ("header", .fields [
    ("stackSize", .nat p.header.stackSize.toNat),
    ("dataSize", .nat p.header.dataSize.toNat),
    ("codeStart", .nat p.header.codeStart.toNat),
    ("param", .nat p.header.param.toNat)]),
  ("codeBytes", .nat p.code.size),
  ("globalBytes", .nat p.global.length),
  ("instructions", .nat count)]

def mention (p : Program) (last : Int) : List (String × Yaml) :=
  if last = p.code.size ∨ last = 0 then [] else [("firstUndecodable", .int last)]

/-- What is told about an image: its summary and then, where the decodable code ends early, the
place. -/
theorem describe_eq {last : Int}
    (h : Swept p.code 0 (Isa.sweep p.code 0).1 (Isa.sweep p.code 0).2 last) :
    describe c p = .fields (summary c p (Isa.sweep p.code 0).1.length ++ mention p last) := by
  unfold describe
  generalize Isa.sweep p.code 0 = swept at h ⊢
  obtain ⟨is, stop⟩ := swept
  cases stop with
  | none =>
    rw [mention, if_pos (.inl (h.done.mp rfl))]
    rfl
  | some e =>
    have hend : last ≠ p.code.size := fun hlast => nomatch h.done.mpr hlast
    dsimp only
    cases hi : is.getLast? with
    | none =>
      -- Without an instruction the partition ends where it begins.
      obtain rfl := List.getLast?_eq_none_iff.mp hi
      have hzero : last = 0 := h.longest.partition.last_unique .nil
      have unsaid : mention p last = [] := if_pos (.inr hzero)
      rw [unsaid]
      rfl
    | some i =>
      show Yaml.fields (summary c p is.length ++
        if i.next.toInt = 0 then [] else [("firstUndecodable", .int i.next.toInt)]) = _
      rw [h.next i hi, mention]
      by_cases hzero : last = 0
      · rw [if_pos hzero, if_pos (.inr hzero)]
      · rw [if_neg hzero, if_neg (not_or.mpr ⟨hend, hzero⟩)]

/-- All names of the fields are names that can be read back from their lines. -/
theorem isName_of_mem {count : Nat} {last : Int} {e : String × Yaml}
    (he : e ∈ summary c p count ++ mention p last) : IsName e.1 := by
  have mentioned : ∀ e ∈ mention p last, e.1 = "firstUndecodable" := by
    intro e he
    unfold mention at he
    split at he
    · cases he
    · exact congrArg Prod.fst (List.mem_singleton.mp he)
  rcases List.mem_append.mp he with he | he
  · simp only [summary, List.mem_cons, List.not_mem_nil, or_false] at he
    rcases he with rfl | rfl | rfl | rfl | rfl <;> simp [IsName]
  · rw [mentioned e he]
    simp [IsName]

/-- The only number of instructions in the summary is the one that was counted. -/
theorem instructions_mem {count : Nat} {last : Int} {y : Yaml} :
    ("instructions", y) ∈ summary c p count ++ mention p last ↔ y = .nat count := by
  have absent : ("instructions", y) ∉ mention p last := by
    unfold mention
    split <;> simp
  rw [List.mem_append, or_iff_left absent]
  simp [summary]

/-- A place is mentioned exactly if it is neither the end of the code nor its start. -/
theorem firstUndecodable_mem {count : Nat} {last : Int} {y : Yaml} :
    ("firstUndecodable", y) ∈ summary c p count ++ mention p last ↔
      last ≠ p.code.size ∧ last ≠ 0 ∧ y = .int last := by
  have absent : ("firstUndecodable", y) ∉ summary c p count := by simp [summary]
  rw [List.mem_append, or_iff_right absent]
  unfold mention
  split
  next h => exact ⟨nofun, fun ⟨hend, hzero, _⟩ => absurd h (not_or.mpr ⟨hend, hzero⟩)⟩
  next h =>
    obtain ⟨hend, hzero⟩ := not_or.mp h
    rw [List.mem_singleton, Prod.mk.injEq]
    exact ⟨fun hy => ⟨hend, hzero, hy.2⟩, fun hy => ⟨rfl, hy.2.2⟩⟩

/-- The lines of a description: the numbers under the names that matter. -/
theorem lines_describe (prints : Prints print) {last : Int}
    (h : Swept p.code 0 (Isa.sweep p.code 0).1 (Isa.sweep p.code 0).2 last) :
    ∃ lines : List String, print (describe c p) = String.join (lines.map (· ++ "\n")) ∧
      (∀ value, field "instructions" value ∈ lines ↔
        value = toString (Isa.sweep p.code 0).1.length) ∧
      ∀ value, field "firstUndecodable" value ∈ lines ↔
        last ≠ p.code.size ∧ last ≠ 0 ∧ value = toString last := by
  rw [describe_eq h]
  obtain ⟨lines, printed, spec⟩ := prints.lines _ (List.cons_ne_nil _ _) fun _ => isName_of_mem
  refine ⟨lines, printed, fun value => ?_, fun value => ?_⟩
  · rw [spec "instructions" value (by simp [IsName])]
    · constructor
      · rintro ⟨i, he, rfl⟩
        exact Yaml.word.inj (instructions_mem.mp he)
      · rintro rfl
        exact ⟨((Isa.sweep p.code 0).1.length : Int), instructions_mem.mpr rfl, rfl⟩
    · rintro ⟨_, y⟩ he rfl
      exact ⟨((Isa.sweep p.code 0).1.length : Int), instructions_mem.mp he⟩
  · rw [spec "firstUndecodable" value (by simp [IsName])]
    · constructor
      · rintro ⟨i, he, rfl⟩
        obtain ⟨hend, hzero, same⟩ := firstUndecodable_mem.mp he
        exact ⟨hend, hzero, Yaml.word.inj same⟩
      · rintro ⟨hend, hzero, rfl⟩
        exact ⟨last, firstUndecodable_mem.mpr ⟨hend, hzero, rfl⟩, rfl⟩
    · rintro ⟨_, y⟩ he rfl
      exact ⟨_, (firstUndecodable_mem.mp he).2.2⟩

/-! ## Programs from files -/

/-- An image is loaded exactly if the file is there and decodes. -/
theorem load_eq_ok : load c w path = .ok p ↔
    ∃ b, w.read path = .ok b ∧ Image.decode c b = .ok p := by
  unfold load
  rw [bind_eq_ok]
  refine exists_congr fun b => and_congr_right fun _ => ?_
  cases Image.decode c b with
  | ok q => simp only [pure, Except.pure, Except.ok.injEq]
  | error f => exact ⟨nofun, nofun⟩

/-- A program in a file has less code than fits a field of four bytes. -/
theorem size_lt_of_load (h : load c w path = .ok p) : p.code.size < 2 ^ 32 := by
  obtain ⟨b, -, hdecode⟩ := load_eq_ok.mp h
  obtain ⟨_, _, _, hof⟩ := Image.decode_eq_ok.mp hdecode
  exact Image.size_lt_of_ofPayload _ hof

/-- The report is the printed description of the program that was loaded. -/
theorem info_eq (hpath : g.rest = [path]) (hload : load c w path = .ok p) :
    info c print w g = .ok (print (describe c p)) := by
  unfold info
  rw [hpath]
  dsimp only
  rw [hload]
  rfl

/-- The sweep of a program from a file ends at the end of its longest partition. -/
theorem swept_of_load (h : load c w path = .ok p) :
    Sweeps p.code 0 (Isa.sweep p.code 0).1 (Isa.sweep p.code 0).2 ∧
      ∃ last, Swept p.code 0 (Isa.sweep p.code 0).1 (Isa.sweep p.code 0).2 last := by
  have hsize := size_lt_of_load h
  have hsweeps : Sweeps p.code 0 _ _ := Isa.sweep_sweeps (by omega)
  exact ⟨hsweeps, hsweeps.swept (by omega) (Int.le_refl 0) (Int.natCast_nonneg _)⟩

/-- A world with the image of a program in a file. -/
def imageWorld (p : Program) : World := { files := [("image", Image.encode .standard p)] }

def imageGiven : Given := { rest := ["image"] }

/-- The world that has the image of a program gives the program back. -/
theorem load_imageWorld (laws : Image.Codec.standard.Restores p) (hcode : p.code.size < 2 ^ 32)
    (hglobal : p.global.length < 2 ^ 32)
    (hsize : (Zstd.compress (Image.payload p)).length < 2 ^ 32) :
    load .standard (imageWorld p) "image" = .ok p :=
  load_eq_ok.mpr ⟨_, rfl, Image.decode_encode laws hcode hglobal hsize⟩

/-- The return of a subroutine, and a byte behind it. -/
def trailing : Program where
  header := ⟨64, 64, 0, 0⟩
  code := #[0x86, 0x01, 0xff]
  global := []

theorem compress_trailing : Zstd.compress (Image.payload trailing) =
    [40, 181, 47, 253, 4, 0, 89, 0, 0, 3, 0, 0, 0, 0, 0, 0, 0, 134, 1, 255, 231, 244, 72, 226] := by
  unfold Zstd.compress
  rw [Zstd.storedBlocks, dif_pos (by decide)]
  decide +kernel

theorem load_trailing : load .standard (imageWorld trailing) "image" = .ok trailing := by
  apply load_imageWorld _ (by decide) (by decide)
  · rw [compress_trailing]
    decide
  · apply Image.standard_restores
    rw [compress_trailing]
    decide +kernel

def ret : Isa.Info := ⟨390, "RET", .ret, [], 0⟩

theorem partition_trailing : Partition trailing.code 0 [ret] 2 := by
  have named : Isa.lookup 390 = some ret := @Isa.lookup_eq_some 390 _ rfl
  exact .cons ⟨⟨390, ⟨by decide, by decide, by decide, by decide⟩, named⟩, by decide⟩ .nil

theorem stuck_trailing : Stuck trailing.code 2 :=
  fun _ h => absurd h.1.bounds.2 (by decide)

/-- Two bytes that are no opcode, and a program that starts behind them. -/
def leading : Program where
  header := ⟨64, 64, 2, 0⟩
  code := #[0xff, 0xff, 0x86, 0x01]
  global := []

theorem compress_leading : Zstd.compress (Image.payload leading) =
    [40, 181, 47, 253, 4, 0, 97, 0, 0, 4, 0, 0, 0, 0, 0, 0, 0, 255, 255, 134, 1, 179, 98, 195,
      28] := by
  unfold Zstd.compress
  rw [Zstd.storedBlocks, dif_pos (by decide)]
  decide +kernel

theorem load_leading : load .standard (imageWorld leading) "image" = .ok leading := by
  apply load_imageWorld _ (by decide) (by decide)
  · rw [compress_leading]
    decide
  · apply Image.standard_restores
    rw [compress_leading]
    decide +kernel

/-- Code that starts with an unknown opcode is stuck at 0. -/
theorem stuck_leading : Stuck leading.code 0 := by
  have unknown : Isa.Unknown leading.code 0 :=
    ⟨0xffff, ⟨by decide, by decide, by decide, by decide⟩, Isa.lookup_eq_none (by decide +kernel)⟩
  exact fun _ h => h.1.not_unknown unknown

end Command

end BlockVM
