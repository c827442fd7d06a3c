import BlockVM.Proofs.Isa.Decoded
import Mathlib.Data.List.Nodup

/-!
# Mnemonics

A mnemonic is a family's name and the tokens of its operands, joined by `_`. No name and no token
has a `_` of its own, so a mnemonic can be taken apart in one way only, and no family has two
entries with the same tokens. `byName_name` follows: a mnemonic finds the opcode that it belongs to
and no other.
-/

namespace BlockVM.Isa

/-! ## Families and tokens -/

theorem Family.mem_all (f : Family) : f ∈ Family.all := by
  cases f <;> decide

theorem Family.name_inj {f g : Family} (h : f.name = g.name) : f = g := by
  have distinct : (Family.all.map Family.name).Nodup := by decide
  exact List.inj_on_of_nodup_map distinct f.mem_all g.mem_all h

def Definition.parts (d : Definition) : List String := d.family.name :: d.slots.map (·.token)

/-- The entries of one family, by the tokens of their operands. -/
def tokensOf (f : Family) : List (List String) :=
  (definitions.filter fun d => d.family.ctorIdx == f.ctorIdx).map fun d => d.slots.map (·.token)

theorem nodup_tokensOf (f : Family) : (tokensOf f).Nodup := by
  have all : ∀ g ∈ Family.all, (tokensOf g).Nodup := by decide +kernel
  exact all f f.mem_all

set_option maxRecDepth 4000 in
theorem unjoined_tokens : ∀ d ∈ definitions, ∀ s ∈ d.slots, '_' ∉ s.token.toList := by
  decide

/-- Neither a token nor the name of a family has the sign that joins them, so the parts of a
mnemonic can be told apart. -/
theorem unjoined_parts {d : Definition} (h : d ∈ definitions) :
    ∀ p ∈ d.parts.map String.toList, '_' ∉ p := by
  have families : ∀ f ∈ Family.all, '_' ∉ f.name.toList := by decide
  simp only [Definition.parts, List.map_cons, List.map_map, List.forall_mem_cons,
    List.forall_mem_map]
  exact ⟨families _ d.family.mem_all, unjoined_tokens d h⟩

/-! ## Mnemonics -/

/-- A mnemonic has only one reading. -/
theorem parts_eq_of_name {d d' : Definition} {op op' : Nat} (h : d ∈ definitions)
    (h' : d' ∈ definitions) (hname : (d.info op).name = (d'.info op').name) :
    d.parts = d'.parts := by
  -- No part of a mnemonic holds the character that joins the parts.
  have split : ∀ {d : Definition} {op : Nat}, d ∈ definitions →
      (d.info op).name.toList.splitOn '_' = d.parts.map String.toList := by
    intro d op h
    show ("_".intercalate d.parts).toList.splitOn '_' = _
    rw [String.toList_intercalate]
    exact List.splitOn_intercalate '_' (unjoined_parts h) (by simp [Definition.parts])
  have heq : d.parts.map String.toList = d'.parts.map String.toList := by
    rw [← split h, hname, split h']
  exact List.map_injective_iff.mpr (fun _ _ => String.toList_inj.mp) heq

theorem nodup_definitions : definitions.Nodup := by
  rw [List.nodup_iff_count_le_one]
  intro d
  -- A second copy would stand in the same family, and there the tokens differ.
  have hcount := List.count_filter (p := fun x : Definition => x.family.ctorIdx == d.family.ctorIdx)
    (a := d) (l := definitions) (beq_self_eq_true _)
  rw [← hcount]
  exact List.nodup_iff_count_le_one.mp (List.Nodup.of_map _ (nodup_tokensOf d.family)) d

theorem definition_inj {d d' : Definition} {op op' : Nat} (h : d ∈ definitions)
    (h' : d' ∈ definitions) (hname : (d.info op).name = (d'.info op').name) : d = d' := by
  obtain ⟨hfamily, htokens⟩ := List.cons.inj (parts_eq_of_name h h' hname)
  have hfamily := Family.name_inj hfamily
  refine List.inj_on_of_nodup_map (nodup_tokensOf d.family) ?_ ?_ htokens
  · exact List.mem_filter.mpr ⟨h, beq_self_eq_true _⟩
  · exact List.mem_filter.mpr ⟨h', by rw [hfamily]; exact beq_self_eq_true _⟩

/-- Two opcodes with one mnemonic are the same. -/
theorem info_inj {info info' : Info} (h : info ∈ table) (h' : info' ∈ table)
    (hname : info.name = info'.name) : info = info' := by
  obtain ⟨op, d, hd, rfl⟩ := mem_table_iff.mp h
  obtain ⟨op', d', hd', rfl⟩ := mem_table_iff.mp h'
  have heq := definition_inj (List.mem_of_getElem? hd) (List.mem_of_getElem? hd') hname
  subst heq
  have hop : op = op' := by
    obtain ⟨hlt, hget⟩ := List.getElem?_eq_some_iff.mp hd
    obtain ⟨hlt', hget'⟩ := List.getElem?_eq_some_iff.mp hd'
    exact (List.Nodup.getElem_inj_iff nodup_definitions).mp (hget.trans hget'.symm)
  rw [hop]

/-- What is found under a name is an entry of the table with that name. -/
theorem byName_eq_some {name : String} {info : Info} (h : byName name = some info) :
    info ∈ table ∧ info.name = name := by
  unfold byName at h
  exact ⟨Array.mem_of_find?_eq_some h, by simpa using Array.find?_some h⟩

/-- A mnemonic of the table finds its own opcode. -/
theorem byName_name {info : Info} (h : info ∈ table) : byName info.name = some info := by
  cases hfound : byName info.name with
  | none =>
    unfold byName at hfound
    rw [Array.find?_eq_none] at hfound
    exact absurd (beq_self_eq_true _) (hfound info h)
  | some found =>
    obtain ⟨hmem, hname⟩ := byName_eq_some hfound
    rw [info_inj hmem h hname]

end BlockVM.Isa
