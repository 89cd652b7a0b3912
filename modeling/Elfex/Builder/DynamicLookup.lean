import Elfex.Builder.DynamicCodec

/-!
# Lookups in a dynamic table

A lookup finds the first record with its tag in front of the first terminator, and a name
it resolves is the NUL-terminated string at the record's value. Both are properties of the
bytes of the two tables.
-/

namespace Elfex

open Foundation

namespace StringTable

/-- The bytes of the name, without a NUL, start at the offset and end at a NUL or with the
table. -/
structure NamedAt (strtab : List UInt8) (offset : ℕ) (name : String) : Prop where
  offset_le : offset ≤ strtab.length
  plain : 0 ∉ strBytes name
  ends : strtab.drop offset = strBytes name ∨
    ∃ rest, strtab.drop offset = strBytes name ++ 0 :: rest

/-- The bytes up to the first NUL are the ones a NUL or the end follows. -/
theorem untilNul_eq_iff_ends {tail bytes : List UInt8} :
    untilNul tail = bytes ↔ 0 ∉ bytes ∧ (tail = bytes ∨ ∃ rest, tail = bytes ++ 0 :: rest) := by
  constructor
  · rintro rfl
    refine ⟨zero_notMem_untilNul tail, ?_⟩
    rw [untilNul_eq_takeWhile]
    have hsplit := List.takeWhile_append_dropWhile (p := fun byte : UInt8 => byte != 0) (l := tail)
    cases hrest : tail.dropWhile (· != 0) with
    | nil =>
        rw [hrest, List.append_nil] at hsplit
        exact Or.inl hsplit.symm
    | cons byte rest =>
        have hstop := List.head?_dropWhile_not (fun byte : UInt8 => byte != 0) tail
        rw [hrest] at hstop
        obtain rfl : byte = 0 := by simpa using hstop
        rw [hrest] at hsplit
        exact Or.inr ⟨rest, hsplit.symm⟩
  · rintro ⟨hplain, rfl | ⟨rest, rfl⟩⟩
    · exact untilNul_of_notMem hplain
    · rw [untilNul_append_nul, untilNul_of_notMem hplain]

/-- A string is resolved exactly where it is named. -/
theorem get_eq_some_iff {strtab : List UInt8} {offset : ℕ} {name : String} :
    get strtab offset = some name ↔ NamedAt strtab offset name := by
  have hbytes : fromUtf8 (untilNul (strtab.drop offset)) = some name ↔
      untilNul (strtab.drop offset) = strBytes name := by
    constructor
    · exact fun h => (strBytes_of_fromUtf8 h).symm
    · exact fun h => by rw [h, fromUtf8_strBytes]
  rw [get]
  split
  · rename_i hout
    simp only [reduceCtorEq, false_iff]
    exact fun h => absurd h.offset_le (by omega)
  · rename_i hin
    rw [hbytes, untilNul_eq_iff_ends]
    exact ⟨fun h => ⟨Nat.le_of_not_lt hin, h.1, h.2⟩, fun h => ⟨h.plain, h.ends⟩⟩

end StringTable

namespace DynamicTable

/-- The bytes are a table with the record, and no terminator is in front of it. -/
def Tagged (data : List UInt8) (endian : Endian) (elfClass : ElfClass) (tag : DynTag)
    (value : UInt64) (before : List DynamicEntry) : Prop :=
  (∀ entry ∈ before, entry.tag ≠ DynTag.null) ∧
    ∃ after, (∀ entry ∈ before ++ ⟨tag, value⟩ :: after, entry.FitsDynamic elfClass) ∧
      (before ++ ⟨tag, value⟩ :: after).flatMap (fun entry => entry.write endian elfClass) = data

section Parsed

variable {data : List UInt8} {endian : Endian} {elfClass : ElfClass} {table : DynamicTable}
  (hparse : DynamicTable.parse data endian elfClass = .ok table)

include hparse

/-- The entries of a parsed table, split at one of them, are the records split there. -/
theorem entries_eq_append_iff {tag : DynTag} (htag : tag ≠ DynTag.null) {value : UInt64}
    {before : List DynamicEntry} :
    (∃ after, table.entries = before ++ ⟨tag, value⟩ :: after) ↔
      Tagged data endian elfClass tag value before := by
  constructor
  · rintro ⟨after, hentries⟩
    obtain ⟨entries, hfits, hdata⟩ :=
      (dynamicCodec endian elfClass).exists_table (whole_of_parse_dynamic hparse)
    have hwritten : entries.flatMap (fun entry => entry.write endian elfClass) = data := hdata
    have htable := parse_writeTable endian elfClass hfits
    rw [hwritten, hparse] at htable
    obtain rfl := Except.ok.inj htable
    have hsplit := List.takeWhile_append_dropWhile
      (p := fun entry : DynamicEntry => entry.tag != DynTag.null) (l := entries)
    dsimp only at hentries
    have hkept : ∀ entry ∈ entries.takeWhile fun entry => entry.tag != DynTag.null,
        entry.tag ≠ DynTag.null := fun entry hmem => by simpa using List.mem_takeWhile_imp hmem
    rw [hentries] at hsplit hkept
    rw [List.append_assoc, List.cons_append] at hsplit
    rw [← hsplit] at hfits hwritten
    exact ⟨fun entry hmem => hkept entry (List.mem_append_left _ hmem), _, hfits, hwritten⟩
  · rintro ⟨hbefore, after, hfits, rfl⟩
    have htable := parse_writeTable endian elfClass hfits
    rw [hparse] at htable
    obtain rfl := Except.ok.inj htable
    dsimp only
    rw [List.takeWhile_append_of_pos fun entry hmem => by simpa using hbefore entry hmem,
      List.takeWhile_cons_of_pos (by simpa using htag)]
    exact ⟨_, rfl⟩

/-- A tag is found at the first record that has it. -/
theorem find_eq_some_iff {tag : DynTag} (htag : tag ≠ DynTag.null) {value : UInt64} :
    table.find tag = some value ↔ ∃ before, Tagged data endian elfClass tag value before ∧
      ∀ entry ∈ before, entry.tag ≠ tag := by
  rw [find, Option.map_eq_some_iff]
  simp only [List.find?_eq_some_iff_append, beq_iff_eq, ← entries_eq_append_iff hparse htag,
    Bool.not_eq_true', beq_eq_false_iff_ne, ne_eq]
  constructor
  · rintro ⟨entry, ⟨rfl, before, after, hentries, hfirst⟩, rfl⟩
    exact ⟨before, ⟨after, hentries⟩, hfirst⟩
  · rintro ⟨before, ⟨after, hentries⟩, hfirst⟩
    exact ⟨⟨tag, value⟩, ⟨rfl, before, after, hentries, hfirst⟩, rfl⟩

theorem stringValue_eq_some_iff {tag : DynTag} (htag : tag ≠ DynTag.null) {strtab : List UInt8}
    {name : String} : table.stringValue tag strtab = some name ↔
      ∃ value before, Tagged data endian elfClass tag value before ∧
        (∀ entry ∈ before, entry.tag ≠ tag) ∧ StringTable.NamedAt strtab value.toNat name := by
  rw [stringValue]
  simp only [Option.bind_eq_bind, Option.bind_eq_some_iff, find_eq_some_iff hparse htag, stringAt,
    StringTable.get_eq_some_iff]
  constructor
  · rintro ⟨value, ⟨before, htagged, hfirst⟩, hnamed⟩
    exact ⟨value, before, htagged, hfirst, hnamed⟩
  · rintro ⟨value, before, htagged, hfirst, hnamed⟩
    exact ⟨value, ⟨before, htagged, hfirst⟩, hnamed⟩

theorem mem_needed_iff {strtab : List UInt8} {name : String} :
    name ∈ table.needed strtab ↔ ∃ value before,
      Tagged data endian elfClass DynTag.needed value before ∧
        StringTable.NamedAt strtab value.toNat name := by
  rw [needed]
  simp only [List.mem_filterMap, List.mem_filter, beq_iff_eq, stringAt,
    StringTable.get_eq_some_iff, ← entries_eq_append_iff hparse
      (show DynTag.needed ≠ DynTag.null by decide)]
  constructor
  · rintro ⟨entry, ⟨hmem, htag⟩, hnamed⟩
    obtain ⟨before, after, hentries⟩ := List.append_of_mem hmem
    rw [← htag]
    exact ⟨entry.value, before, ⟨after, hentries⟩, hnamed⟩
  · rintro ⟨value, before, ⟨after, hentries⟩, hnamed⟩
    refine ⟨⟨DynTag.needed, value⟩, ⟨?_, rfl⟩, hnamed⟩
    rw [hentries]
    exact List.mem_append_right _ List.mem_cons_self

end Parsed

/-- What the lookups of a parsed table return, in terms of the bytes of the table and of the
string table. -/
theorem lookups_exact {data : List UInt8} {endian : Endian} {elfClass : ElfClass}
    {table : DynamicTable} (hparse : DynamicTable.parse data endian elfClass = .ok table)
    (strtab : List UInt8) (name : String) :
    (name ∈ table.needed strtab ↔ ∃ value before,
      Tagged data endian elfClass DynTag.needed value before ∧
        StringTable.NamedAt strtab value.toNat name) ∧
    (table.soname strtab = some name ↔ ∃ value before,
      Tagged data endian elfClass DynTag.soname value before ∧
        (∀ entry ∈ before, entry.tag ≠ DynTag.soname) ∧
          StringTable.NamedAt strtab value.toNat name) ∧
    (table.runpath strtab = some name ↔ ∃ value before,
      Tagged data endian elfClass DynTag.runpath value before ∧
        (∀ entry ∈ before, entry.tag ≠ DynTag.runpath) ∧
          StringTable.NamedAt strtab value.toNat name) ∧
    (table.rpath strtab = some name ↔ ∃ value before,
      Tagged data endian elfClass DynTag.rpath value before ∧
        (∀ entry ∈ before, entry.tag ≠ DynTag.rpath) ∧
          StringTable.NamedAt strtab value.toNat name) :=
  ⟨mem_needed_iff hparse, stringValue_eq_some_iff hparse (by decide),
    stringValue_eq_some_iff hparse (by decide), stringValue_eq_some_iff hparse (by decide)⟩

/-- A second name in front of the terminator, and one behind it. -/
def namedEntries : List DynamicEntry :=
  [⟨DynTag.soname, 1⟩, ⟨DynTag.soname, 3⟩, ⟨DynTag.null, 0⟩, ⟨DynTag.runpath, 1⟩]

/-- The first name is the one found, and none behind the terminator. -/
theorem namedEntries_lookups :
    ∃ table, DynamicTable.parse (namedEntries.flatMap fun entry => entry.write .little .elf64)
        .little .elf64 = .ok table ∧ table.soname [0, 97, 0, 98, 0] = some "a" ∧
      table.runpath [0, 97, 0, 98, 0] = none := by
  obtain ⟨table, hparse⟩ := Outcome.exists_of_isOk
    (show (DynamicTable.parse (namedEntries.flatMap fun entry => entry.write .little .elf64)
      .little .elf64).isOk = true by decide +kernel)
  have hrunpath : (DynamicTable.parse (namedEntries.flatMap fun entry =>
      entry.write .little .elf64) .little .elf64).map
        (fun table => table.runpath [0, 97, 0, 98, 0]) = .ok none := by decide +kernel
  rw [hparse] at hrunpath
  refine ⟨table, hparse, ?_, Except.ok.inj hrunpath⟩
  refine (lookups_exact hparse [0, 97, 0, 98, 0] "a").2.1.2 ⟨1, [], ⟨by simp, ?_⟩, by simp, ?_⟩
  · exact ⟨namedEntries.tail, fun entry _ => ⟨rfl, rfl⟩, rfl⟩
  · exact ⟨by decide, by decide +kernel, Or.inr ⟨[98, 0], by decide +kernel⟩⟩

end DynamicTable

end Elfex
