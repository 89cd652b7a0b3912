import Elfex.Format.HeaderCodec
import Elfex.Image.Edits

/-!
# What a narrow class keeps of an image

A build of the 32-bit class writes the low half of every address field. The tables are
written in the byte order of the image and read back in the one the file header announces.
The fields of the file are those of the image exactly when none of them had a high half
and, where the two byte orders differ, those of the tables read the same in both.
-/

namespace Elfex

open Foundation

/-- What becomes of a field of the narrow class that is written in one byte order and read
in another. -/
def Endian.reread (written read : Endian) (value : UInt64) : UInt64 :=
  (read.u32 (written.u32Bytes (low32 value))).toUInt64

theorem Endian.reread_self (endian : Endian) (value : UInt64) :
    endian.reread endian value = ElfClass.elf32.keep value := by
  rw [reread, u32_u32Bytes, ElfClass.keep_elf32]

theorem Endian.lt_of_reread {written read : Endian} {value : UInt64}
    (h : written.reread read value = value) : value.toNat < 2 ^ 32 := by
  rw [← h, reread, UInt32.toNat_toUInt64]
  exact UInt32.toNat_lt _

/-- The fields of a program header that a build does not compute. -/
def ProgramHeader.placement (header : ProgramHeader) : List UInt64 :=
  [header.vaddr, header.paddr, header.memsz, header.align]

/-- The fields of a section header that a build does not compute. -/
def SectionHeader.attributes (header : SectionHeader) : List UInt64 :=
  [header.flags, header.addr, header.addralign, header.entsize]

theorem ProgramHeader.placement_reread (header : ProgramHeader) (written read : Endian) :
    (decode read .elf32 (header.write written .elf32)).placement =
      header.placement.map (written.reread read) := by
  simp [placement, decode, write, Endian.reread, window_append_left, window_append_of_le,
    window_eq_self]

theorem SectionHeader.attributes_reread (header : SectionHeader) (written read : Endian) :
    (decode read .elf32 (header.write written .elf32)).attributes =
      header.attributes.map (written.reread read) := by
  simp [attributes, decode, write, Endian.reread, window_append_left, window_append_of_le,
    window_eq_self]

theorem map_eq_self_iff {α : Type*} (f : α → α) (l : List α) :
    l.map f = l ↔ ∀ a ∈ l, f a = a := by
  induction l with
  | nil => simp
  | cons a l ih => rw [List.map_cons, List.cons.injEq, ih, List.forall_mem_cons]

namespace ElfImage

/-- The wide fields that a build copies, those of each header in a list of its own. -/
def wideFields (image : ElfImage) : List UInt64 :=
  image.header.entry :: (image.segments.flatMap fun segment => segment.header.placement) ++
    image.sections.flatMap fun sec => sec.header.attributes

/-- Every copied field fits 32 bits. -/
def Fits32 (image : ElfImage) : Prop := ∀ value ∈ image.wideFields, value.toNat < 2 ^ 32

instance (image : ElfImage) : Decidable image.Fits32 := List.decidableBAll _ image.wideFields

/-- The fields of the image that its tables hold. -/
def tableFields (image : ElfImage) : List UInt64 :=
  (image.segments.flatMap fun segment => segment.header.placement) ++
    image.sections.flatMap fun sec => sec.header.attributes

/-- Every field of the tables is read as it was written, in the byte order that the file
header announces. -/
def ReadAlike (image : ElfImage) : Prop :=
  ∀ value ∈ image.tableFields, image.ident.data.reread image.header.ident.data value = value

instance (image : ElfImage) : Decidable image.ReadAlike := List.decidableBAll _ image.tableFields

/-- In one byte order every field that fits is read as it was written. -/
theorem Fits32.readAlike {image : ElfImage} (h : image.Fits32)
    (hdata : image.header.ident.data = image.ident.data) : image.ReadAlike := by
  intro value hvalue
  rw [hdata, Endian.reread_self]
  exact ElfClass.keep_of_lt .elf32 (h value (List.mem_cons_of_mem _ hvalue))

/-- The image `image'` has the entry of `image`, the placement of each of its segments
and the attributes of each of its sections. -/
structure CarriedBy (image image' : ElfImage) : Prop where
  entry : image'.header.entry = image.header.entry
  segments : (image'.segments.map fun segment => segment.header.placement) =
    image.segments.map fun segment => segment.header.placement
  sections : (image.sections.map fun sec => sec.header.attributes) <+:
    image'.sections.map fun sec => sec.header.attributes

end ElfImage

/-! ## The built headers -/

theorem placement_recordAt (segment : Segment) (place : Option UInt64) :
    (recordAt Segment.skippedHeader Segment.placedHeader segment place).placement =
      segment.header.placement := by
  cases place <;> rfl

theorem attributes_recordAt (sec : Section) (place : Option UInt64) :
    (recordAt Section.skipped Section.placed sec place).header.attributes =
      sec.header.attributes := by
  obtain ⟨offset, size, hheader⟩ := Section.header_recordAt sec place
  rw [hheader]
  rfl

/-- Placing items keeps whatever is kept of each record. -/
theorem map_recordsOf {α β γ : Type} {payload : α → List UInt8}
    {position : α → UInt64 → UInt64} {skipped : α → β} {placed : α → UInt64 → β}
    (f : β → γ) (g : α → γ) (h : ∀ item place, f (recordAt skipped placed item place) = g item)
    (items : List α) (cursor : UInt64) :
    (recordsOf payload position skipped placed items cursor).map f = items.map g := by
  have hzip : (items.zip (placements payload position items cursor)).map Prod.fst = items :=
    List.map_fst_zip (by rw [length_placements])
  conv_rhs => rw [← hzip]
  rw [recordsOf, List.map_map, List.map_map]
  exact List.map_congr_left fun entry _ => h entry.1 entry.2

theorem attributes_named (sec : Section) (offset : UInt32) (blob : List UInt8) :
    (sec.named offset blob).header.attributes = sec.header.attributes := by
  rw [Section.header_named]
  split <;> rfl

theorem attributes_assignNameOffsets (sections : List Section) :
    ((assignNameOffsets sections).map fun sec => sec.header.attributes) =
      sections.map fun sec => sec.header.attributes := by
  apply List.ext_getElem?
  intro i
  rw [List.getElem?_map, List.getElem?_map]
  cases hi : sections[i]? with
  | none =>
      have hnone : (assignNameOffsets sections)[i]? = none := by
        rw [List.getElem?_eq_none_iff, length_assignNameOffsets]
        exact List.getElem?_eq_none_iff.1 hi
      rw [hnone]
  | some sec =>
      obtain ⟨o, -, -, hnamed, -⟩ := assignNameOffsets_getElem? hi
      rw [hnamed, Option.map_some, Option.map_some, attributes_named]

/-- Naming the sections keeps their attributes, and may add a name table behind them. -/
theorem attributes_namedSections (sections : List Section) :
    (sections.map fun sec => sec.header.attributes) <+:
      (namedSections sections).map fun sec => sec.header.attributes := by
  rw [namedSections]
  split
  · next hempty => rw [hempty]
  · rw [attributes_assignNameOffsets, ensureShstrtab]
    split
    · exact List.prefix_refl _
    · rw [List.map_append]
      exact List.prefix_append _ _

namespace ElfImage

variable {image image' : ElfImage} {b : List UInt8}

theorem fits32_and_readAlike_iff : image.Fits32 ∧ image.ReadAlike ↔
    ElfClass.elf32.keep image.header.entry = image.header.entry ∧
      (∀ segment ∈ image.segments, segment.header.placement.map
        (image.ident.data.reread image.header.ident.data) = segment.header.placement) ∧
      ∀ sec ∈ image.sections, sec.header.attributes.map
        (image.ident.data.reread image.header.ident.data) = sec.header.attributes := by
  have hfits : image.Fits32 ↔ image.header.entry.toNat < 2 ^ 32 ∧
      ∀ value ∈ image.tableFields, value.toNat < 2 ^ 32 := List.forall_mem_cons
  have halike : image.ReadAlike ↔
      (∀ segment ∈ image.segments, segment.header.placement.map
        (image.ident.data.reread image.header.ident.data) = segment.header.placement) ∧
      ∀ sec ∈ image.sections, sec.header.attributes.map
        (image.ident.data.reread image.header.ident.data) = sec.header.attributes := by
    simp only [map_eq_self_iff, ReadAlike, tableFields, List.forall_mem_append,
      List.forall_mem_flatMap]
  rw [hfits, ← halike, ElfClass.keep_elf32_eq_iff, and_assoc]
  refine and_congr_right fun _ => and_iff_right_of_imp fun h value hvalue => ?_
  exact Endian.lt_of_reread (h value hvalue)

theorem placements_laidOut (h : image.LaidOut b) (hclass : image.ident.elfClass = .elf32) :
    (programHeadersOf b).map ProgramHeader.placement = image.segments.map fun segment =>
      segment.header.placement.map (image.ident.data.reread image.header.ident.data) := by
  rw [h.programHeadersOf_eq.2, hclass, builtProgramHeaders, List.map_map]
  exact map_recordsOf _ _ (fun segment place => by
    rw [Function.comp_apply, ProgramHeader.placement_reread, placement_recordAt]) _ _

theorem attributes_laidOut (h : image.LaidOut b) (hclass : image.ident.elfClass = .elf32) :
    (image.sections.map fun sec =>
        sec.header.attributes.map (image.ident.data.reread image.header.ident.data)) <+:
      (sectionHeadersOf b).map SectionHeader.attributes := by
  have hbuilt : (image.builtSections.map fun sec => sec.header.attributes) =
      (namedSections image.sections).map fun sec => sec.header.attributes :=
    map_recordsOf _ _ attributes_recordAt _ _
  have hnamed := (attributes_namedSections image.sections).map
    (List.map (image.ident.data.reread image.header.ident.data))
  rw [← hbuilt, List.map_map, List.map_map] at hnamed
  rw [h.sectionHeadersOf_eq.2, hclass, List.map_map]
  simpa only [Function.comp_def, SectionHeader.attributes_reread] using hnamed

/-- A build of the narrow class carries the fields of the image exactly when they fit and
those of the tables are read as they were written. -/
theorem carriedBy_iff (h : image.LaidOut b) (hclass : image.ident.elfClass = .elf32)
    (hb : b.length ≤ isizeMax) (hparse : ElfImage.parse b = .ok image') :
    image.CarriedBy image' ↔ image.Fits32 ∧ image.ReadAlike := by
  obtain ⟨-, rfl⟩ := (parse_eq_ok hb).1 hparse
  have hentry : (imageOf b).header.entry = ElfClass.elf32.keep image.header.entry := by
    change (headerOf b).entry = _
    rw [h.headerOf_eq, ElfHeader.narrow, h.builtHeader_elfClass, hclass]
    rfl
  have hsegments : ((imageOf b).segments.map fun segment => segment.header.placement) =
      image.segments.map fun segment => segment.header.placement.map
        (image.ident.data.reread image.header.ident.data) := by
    rw [← placements_laidOut h hclass, imageOf, List.map_map]
    rfl
  have hsections : (image.sections.map fun sec => sec.header.attributes.map
        (image.ident.data.reread image.header.ident.data)) <+:
      (imageOf b).sections.map fun sec => sec.header.attributes := by
    rw [imageOf, List.map_map]
    exact attributes_laidOut h hclass
  rw [fits32_and_readAlike_iff, ← List.map_inj_left, ← List.map_inj_left]
  constructor
  · rintro ⟨hkept, hplaced, hprefix⟩
    refine ⟨hentry.symm.trans hkept, hsegments.symm.trans hplaced, ?_⟩
    exact (List.prefix_of_prefix_length_le hsections hprefix (by simp)).eq_of_length (by simp)
  · rintro ⟨hkept, hplaced, hattributes⟩
    rw [hattributes] at hsections
    exact ⟨hentry.trans hkept, hsegments.trans hplaced, hsections⟩

end ElfImage

end Elfex
