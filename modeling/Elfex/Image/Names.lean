import Elfex.Image.Built

/-!
# The rebuilt name table

The serializer numbers every section name by its offset in one blob of
NUL-terminated names. Looking a number up in the blob gives the name back, and
the table the header points at is the one that carries the blob.
-/

namespace Elfex

open Foundation

/-- The name table of a list of sections: an empty name, then every section's. -/
def nameTable (sections : List Section) : List UInt8 :=
  0 :: sections.flatMap fun sec => strBytes sec.name ++ [0]

theorem nameOffsets_snd (blob : List UInt8) (sections : List Section) :
    (nameOffsets blob sections).2 =
      blob ++ sections.flatMap fun sec => strBytes sec.name ++ [0] := by
  induction sections generalizing blob with
  | nil => simp [nameOffsets]
  | cons sec rest ih => simp [nameOffsets, ih, List.append_assoc]

theorem length_nameOffsets_fst (blob : List UInt8) (sections : List Section) :
    (nameOffsets blob sections).1.length = sections.length := by
  induction sections generalizing blob with
  | nil => rfl
  | cons sec rest ih => simp [nameOffsets, ih]

/-- The `i`-th offset points at the `i`-th name in the finished blob. -/
theorem nameOffsets_getElem? (blob : List UInt8) {sections : List Section} {i : ℕ}
    {sec : Section} (h : sections[i]? = some sec) :
    ∃ o rest, (nameOffsets blob sections).1[i]? = some (low32 (UInt64.ofNat o)) ∧
      (nameOffsets blob sections).2.drop o = strBytes sec.name ++ 0 :: rest := by
  induction sections generalizing blob i with
  | nil => exact absurd h (by simp)
  | cons first rest ih =>
      cases i with
      | zero =>
          obtain rfl : first = sec := by simpa using h
          refine ⟨blob.length, rest.flatMap fun sec => strBytes sec.name ++ [0], by
            simp [nameOffsets], ?_⟩
          rw [nameOffsets_snd, List.flatMap_cons, List.drop_left]
          simp
      | succ i =>
          rw [List.getElem?_cons_succ] at h
          exact ih (blob ++ strBytes first.name ++ [0]) h

/-- The sections in the rebuilt table: a section-name string table carries the blob,
every section carries its offset. -/
def Section.named (sec : Section) (offset : UInt32) (blob : List UInt8) : Section :=
  let named : Section := { sec with header := { sec.header with nameIndex := offset } }
  if sec.isShstrtab then
    { named with
      header := { named.header with size := UInt64.ofNat blob.length }
      data := blob }
  else named

theorem Section.header_named (sec : Section) (offset : UInt32) (blob : List UInt8) :
    (sec.named offset blob).header = { sec.header with
      nameIndex := offset
      size := if sec.isShstrtab then UInt64.ofNat blob.length else sec.header.size } := by
  rw [Section.named]
  split <;> rfl

@[simp] theorem Section.named_type (sec : Section) (offset : UInt32) (blob : List UInt8) :
    (sec.named offset blob).header.type = sec.header.type := by
  rw [Section.named]
  split <;> rfl

@[simp] theorem Section.named_name (sec : Section) (offset : UInt32) (blob : List UInt8) :
    (sec.named offset blob).name = sec.name := by
  rw [Section.named]
  split <;> rfl

@[simp] theorem Section.named_nameIndex (sec : Section) (offset : UInt32)
    (blob : List UInt8) : (sec.named offset blob).header.nameIndex = offset := by
  rw [Section.named]
  split <;> rfl

theorem Section.type_of_isShstrtab {sec : Section} (h : sec.isShstrtab = true) :
    sec.header.type = SectionType.strtab := by
  rw [Section.isShstrtab, Bool.and_eq_true] at h
  exact beq_iff_eq.1 h.2

theorem Section.isNobits_of_isShstrtab {sec : Section} (h : sec.isShstrtab = true) :
    sec.header.isNobits = false := by
  rw [SectionHeader.isNobits, Section.type_of_isShstrtab h]
  rfl

theorem Section.written_named {sec : Section} (h : sec.isShstrtab = true)
    (offset : UInt32) (blob : List UInt8) : (sec.named offset blob).written = blob := by
  have hnobits := Section.isNobits_of_isShstrtab h
  simp only [Section.named, if_pos h, Section.written, SectionHeader.isNobits] at hnobits ⊢
  rw [hnobits]
  rfl

theorem Section.written_named_of_not {sec : Section} (h : sec.isShstrtab = false)
    (offset : UInt32) (blob : List UInt8) :
    (sec.named offset blob).written = sec.written := by
  simp only [Section.named, h, Section.written, SectionHeader.isNobits]
  rfl

theorem assignNameOffsets_getElem? {sections : List Section} {i : ℕ} {sec : Section}
    (h : sections[i]? = some sec) :
    ∃ o rest, (nameOffsets [0] sections).1[i]? = some (low32 (UInt64.ofNat o)) ∧
      (assignNameOffsets sections)[i]? =
        some (sec.named (low32 (UInt64.ofNat o)) (nameTable sections)) ∧
      (nameTable sections).drop o = strBytes sec.name ++ 0 :: rest := by
  obtain ⟨o, rest, hoffset, hdrop⟩ := nameOffsets_getElem? [0] h
  rw [nameOffsets_snd] at hdrop
  refine ⟨o, rest, hoffset, ?_, hdrop⟩
  simp only [assignNameOffsets, List.getElem?_zipWith, h, hoffset, nameOffsets_snd]
  rfl

theorem nameOffsets_congr {sections sections' : List Section}
    (h : sections'.map Section.name = sections.map Section.name) (blob : List UInt8) :
    nameOffsets blob sections' = nameOffsets blob sections := by
  induction sections generalizing sections' blob with
  | nil => rw [List.map_eq_nil_iff.1 h]
  | cons sec rest ih =>
      cases sections' with
      | nil => cases h
      | cons sec' rest' =>
          rw [List.map_cons, List.map_cons, List.cons.injEq] at h
          rw [nameOffsets, nameOffsets, h.1, ih h.2]

theorem nameTable_congr {sections sections' : List Section}
    (h : sections'.map Section.name = sections.map Section.name) :
    nameTable sections' = nameTable sections := by
  have hblob := congrArg Prod.snd (nameOffsets_congr h [0])
  rwa [nameOffsets_snd, nameOffsets_snd] at hblob

@[simp] theorem length_assignNameOffsets (sections : List Section) :
    (assignNameOffsets sections).length = sections.length := by
  simp [assignNameOffsets, length_nameOffsets_fst]

/-- The offset of a name resolves to what a reader finds of the name. -/
theorem readName_of_drop {table rest : List UInt8} {name : String} {o : ℕ}
    (hdrop : table.drop o = strBytes name ++ 0 :: rest) (htable : table.length < 2 ^ 32) :
    StringTable.name table (low32 (UInt64.ofNat o)).toNat = StringTable.readName name := by
  have ho : o < table.length := by
    by_contra hle
    rw [List.drop_eq_nil_of_le (Nat.le_of_not_lt hle)] at hdrop
    simp at hdrop
  have hindex : (low32 (UInt64.ofNat o)).toNat = o := by
    rw [low32, UInt64.toNat_toUInt32, toNat_ofNat_of_lt (by omega), Nat.mod_eq_of_lt (by omega)]
  rw [hindex, StringTable.name, StringTable.get, if_neg (by omega), hdrop,
    StringTable.untilNul_append_nul, StringTable.readName]

/-! ## The index of the table -/

/-- The index of the table is that of the first section-name string table. -/
theorem findIdx?_ensureShstrtab (sections : List Section) :
    ∃ k, (ensureShstrtab sections).1 = u16OrZero k ∧
      (ensureShstrtab sections).2.findIdx? Section.isShstrtab = some k := by
  rw [ensureShstrtab]
  split <;> rename_i h
  · exact ⟨_, rfl, h⟩
  · have htable : Section.shstrtab.isShstrtab = true := by decide +kernel
    refine ⟨sections.length, rfl, ?_⟩
    simp [List.findIdx?_append, h, List.findIdx?_cons, htable]

/-- The table index names a section-name string table; the list is the given one,
extended by a new table when it has none. -/
theorem ensureShstrtab_spec (sections : List Section) :
    ∃ k sec, (ensureShstrtab sections).1 = u16OrZero k ∧
      (ensureShstrtab sections).2[k]? = some sec ∧ sec.isShstrtab = true ∧
      ((ensureShstrtab sections).2 = sections ∨
        (ensureShstrtab sections).2 = sections ++ [Section.shstrtab]) := by
  obtain ⟨k, hindex, hfind⟩ := findIdx?_ensureShstrtab sections
  rcases List.findIdx?_eq_some_iff_getElem.1 hfind with ⟨hlt, hsec, -⟩
  refine ⟨k, _, hindex, List.getElem?_eq_getElem hlt, hsec, ?_⟩
  rw [ensureShstrtab]
  split
  · exact Or.inl rfl
  · exact Or.inr rfl

theorem ne_nil_of_mem_namedSections {sections : List Section} {sec : Section}
    (h : sec ∈ namedSections sections) : sections ≠ [] := by
  rintro rfl
  exact absurd h (by simp [namedSections])

theorem mem_ensureShstrtab {sections : List Section} {sec : Section}
    (h : sec ∈ (ensureShstrtab sections).2) : sec ∈ sections ∨ sec = Section.shstrtab := by
  obtain ⟨-, -, -, -, -, heq | heq⟩ := ensureShstrtab_spec sections
  · rw [heq] at h
    exact Or.inl h
  · rw [heq] at h
    simpa using h

/-- A section with its rebuilt name is a given one, or the new table. -/
theorem mem_namedSections {sections : List Section} {sec : Section}
    (h : sec ∈ namedSections sections) :
    ∃ given o rest, (given ∈ sections ∨ given = Section.shstrtab) ∧
      sec = given.named (low32 (UInt64.ofNat o)) (nameTable (ensureShstrtab sections).2) ∧
      (nameTable (ensureShstrtab sections).2).drop o = strBytes given.name ++ 0 :: rest := by
  rw [namedSections] at h
  split at h
  · exact absurd h (by simp)
  · rcases List.mem_iff_getElem?.1 h with ⟨i, hi⟩
    have hlt : i < (ensureShstrtab sections).2.length := by
      rw [← length_assignNameOffsets]
      exact (List.getElem?_eq_some_iff.1 hi).1
    have hgiven := List.getElem?_eq_getElem hlt
    obtain ⟨o, rest, -, hnamed, hdrop⟩ := assignNameOffsets_getElem? hgiven
    exact ⟨_, o, rest, mem_ensureShstrtab (List.getElem_mem hlt),
      Option.some.inj (hi.symm.trans hnamed), hdrop⟩

end Elfex
