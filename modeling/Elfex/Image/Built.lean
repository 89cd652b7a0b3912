import Elfex.Image.Placement

/-!
# The layout of a built file

The pieces of a serialized image as functions of the image: the two header
tables, the file header, and the extents they and the payloads occupy. A
successful build holds every extent of the layout, the extents are stacked from
the start of the file to its end, and the file stays inside the size limit.
-/

namespace Elfex

open Foundation

/-- The sections a build writes, with their names in the rebuilt name table. -/
def namedSections (sections : List Section) : List Section :=
  if sections = [] then [] else assignNameOffsets (ensureShstrtab sections).2

namespace ElfImage

def tableEnd (image : ElfImage) : UInt64 :=
  ElfHeader.size image.ident.elfClass +
    ProgramHeader.size image.ident.elfClass * clampWord image.segments.length

def builtProgramHeaders (image : ElfImage) : List ProgramHeader :=
  recordsOf Segment.written Segment.position Segment.skippedHeader Segment.placedHeader
    image.segments image.tableEnd

def segmentsEnd (image : ElfImage) : UInt64 :=
  cursorAfter Segment.written Segment.position image.segments image.tableEnd

def builtSections (image : ElfImage) : List Section :=
  recordsOf Section.written Section.position Section.skipped Section.placed
    (namedSections image.sections) image.segmentsEnd

def sectionsEnd (image : ElfImage) : UInt64 :=
  cursorAfter Section.written Section.position (namedSections image.sections)
    image.segmentsEnd

def builtShoff (image : ElfImage) : UInt64 :=
  if image.builtSections = [] then 0 else alignUp image.sectionsEnd 8

def builtHeader (image : ElfImage) : ElfHeader :=
  { image.header with
    phoff := ElfHeader.size image.ident.elfClass
    shoff := image.builtShoff
    ehsize := (ElfHeader.size image.ident.elfClass).toUInt16
    phentsize := (ProgramHeader.size image.ident.elfClass).toUInt16
    phnum := UInt16.ofNat image.segments.length
    shentsize := (SectionHeader.entrySize image.ident.elfClass).toUInt16
    shnum := UInt16.ofNat image.builtSections.length
    shstrndx := if image.sections = [] then 0 else (ensureShstrtab image.sections).1 }

def headerExtent (image : ElfImage) : Extent UInt8 := ⟨0, image.builtHeader.write⟩

def programTable (image : ElfImage) : Extent UInt8 :=
  ⟨(ElfHeader.size image.ident.elfClass).toNat,
    image.builtProgramHeaders.flatMap fun phdr =>
      phdr.write image.ident.data image.ident.elfClass⟩

/-- The payloads of the segments as extents. -/
def segmentExtents (image : ElfImage) : List (Extent UInt8) :=
  extentsOf Segment.written Segment.position image.segments image.tableEnd

/-- The payloads of the sections as extents. -/
def sectionExtents (image : ElfImage) : List (Extent UInt8) :=
  extentsOf Section.written Section.position (namedSections image.sections)
    image.segmentsEnd

def sectionTable (image : ElfImage) : List (Extent UInt8) :=
  if image.builtSections = [] then []
  else [⟨image.builtShoff.toNat, image.builtSections.flatMap fun sec =>
    sec.header.write image.ident.data image.ident.elfClass⟩]

/-- The extents of a built file, in file order. -/
def layout (image : ElfImage) : List (Extent UInt8) :=
  image.headerExtent :: image.programTable ::
    (image.segmentExtents ++ image.sectionExtents ++ image.sectionTable)

/-- The same extents in the order the serializer writes them. -/
def paintOrder (image : ElfImage) : List (Extent UInt8) :=
  image.segmentExtents ++ image.sectionExtents ++ image.programTable ::
    image.sectionTable ++ [image.headerExtent]

/-- What a successful build guarantees about the file it returns. -/
structure Built (image : ElfImage) (b : List UInt8) : Prop where
  segmentCount : image.segments.length < 2 ^ 16
  sectionCount : image.builtSections.length < 2 ^ 16
  stacked : Extent.Stacked 0 image.layout b.length
  held : ∀ e ∈ image.layout, e.Held b
  limit : b.length ≤ maxImage

end ElfImage

/-! ## One lemma for each stage -/

theorem placeSections_eq_ok {sections sections' : List Section} {out out' : List UInt8}
    {cursor cursor' : UInt64} {shstrndx : UInt16}
    (h : placeSections sections out cursor = .ok (shstrndx, sections', out', cursor')) :
    shstrndx = (if sections = [] then 0 else (ensureShstrtab sections).1) ∧
      placeEach Section.written Section.position Section.skipped Section.placed
        (namedSections sections) out cursor = .ok (sections', out', cursor') := by
  unfold placeSections namedSections at *
  by_cases hempty : sections = []
  · rw [if_pos hempty] at h
    cases h
    rw [if_pos hempty, if_pos hempty]
    exact ⟨rfl, rfl⟩
  · rw [if_neg hempty, Outcome.bind_eq_ok] at h
    obtain ⟨⟨placed, out₁, cursor₁⟩, hplace, hret⟩ := h
    cases hret
    rw [if_neg hempty, if_neg hempty]
    exact ⟨rfl, hplace⟩

theorem writeSectionTable_eq_ok {endian : Endian} {elfClass : ElfClass}
    {sections : List Section} {out out' : List UInt8} {cursor shoff : UInt64}
    (h : writeSectionTable endian elfClass sections out cursor = .ok (shoff, out')) :
    shoff = (if sections = [] then 0 else alignUp cursor 8) ∧
      out' = Extent.paint 0 out (if sections = [] then [] else
        [⟨shoff.toNat, sections.flatMap fun sec => sec.header.write endian elfClass⟩]) ∧
      (sections ≠ [] → shoff.toNat + (sections.flatMap fun sec =>
        sec.header.write endian elfClass).length ≤ maxImage) := by
  rw [writeSectionTable] at h
  by_cases hempty : sections = []
  · rw [if_pos hempty] at h
    cases h
    rw [if_pos hempty, if_pos hempty]
    exact ⟨rfl, rfl, fun hne => absurd hempty hne⟩
  · rw [if_neg hempty, Outcome.bind_eq_ok] at h
    obtain ⟨out₁, hwrite, hret⟩ := h
    rcases writeAt_eq_ok.1 hwrite with ⟨hfit, rfl⟩
    cases hret
    rw [if_neg hempty, if_neg hempty]
    exact ⟨rfl, rfl, fun _ => hfit⟩

namespace ElfImage

variable {image : ElfImage} {b : List UInt8}

theorem layout_perm_paintOrder (image : ElfImage) :
    image.paintOrder.Perm image.layout := by
  unfold paintOrder layout
  refine (List.perm_append_singleton _ _).trans (List.Perm.cons _ ?_)
  exact List.perm_middle.trans (List.Perm.cons _ (by simp))

theorem builtProgramHeaders_getElem? {i : ℕ} {segment : Segment}
    (h : image.segments[i]? = some segment) :
    ∃ place, (segment, place) ∈ image.segments.zip
        (placements Segment.written Segment.position image.segments image.tableEnd) ∧
      place = (if segment.written = [] then none
        else some (segment.position (cursorAfter Segment.written Segment.position
          (image.segments.take i) image.tableEnd))) ∧
      image.builtProgramHeaders[i]? =
        some (recordAt Segment.skippedHeader Segment.placedHeader segment place) :=
  recordsOf_getElem? h

theorem builtSections_getElem? {i : ℕ} {sec : Section}
    (h : (namedSections image.sections)[i]? = some sec) :
    ∃ place, (sec, place) ∈ (namedSections image.sections).zip
        (placements Section.written Section.position (namedSections image.sections)
          image.segmentsEnd) ∧
      image.builtSections[i]? =
        some (recordAt Section.skipped Section.placed sec place) := by
  obtain ⟨place, hmem, -, hrecord⟩ := recordsOf_getElem? h
  exact ⟨place, hmem, hrecord⟩

theorem length_programTable (image : ElfImage) :
    image.programTable.bytes.length =
      image.segments.length * (ProgramHeader.size image.ident.elfClass).toNat := by
  rw [programTable, length_flatMap_of_width _ _ fun _ _ => ProgramHeader.length_write _ _ _,
    builtProgramHeaders, length_recordsOf]

/-- The sizes that the end of the program header table is computed from do not overflow. -/
theorem tableSize_fits (image : ElfImage) (h : 56 * image.segments.length + 64 < 2 ^ 64) :
    (clampWord image.segments.length).toNat = image.segments.length ∧
    (ProgramHeader.size image.ident.elfClass * clampWord image.segments.length).toNat =
      (ProgramHeader.size image.ident.elfClass).toNat * image.segments.length ∧
    (ElfHeader.size image.ident.elfClass).toNat +
      (ProgramHeader.size image.ident.elfClass).toNat * image.segments.length < 2 ^ 64 := by
  have hclamp : (clampWord image.segments.length).toNat = image.segments.length := by
    rw [clampWord, if_pos (by omega), toNat_ofNat_of_lt (by omega)]
  have hsize : (ProgramHeader.size image.ident.elfClass).toNat ≤ 56 := by
    cases image.ident.elfClass <;> decide
  have hheader : (ElfHeader.size image.ident.elfClass).toNat ≤ 64 := by
    cases image.ident.elfClass <;> decide
  have hprod : (ProgramHeader.size image.ident.elfClass).toNat * image.segments.length ≤
      56 * image.segments.length := Nat.mul_le_mul_right _ hsize
  refine ⟨hclamp, ?_, by omega⟩
  rw [toNat_mul_of_lt (by rw [hclamp]; omega), hclamp]

/-- The end of the program header table does not overflow. -/
theorem toNat_tableEnd (hcount : image.segments.length < 2 ^ 16) :
    image.tableEnd.toNat = (ElfHeader.size image.ident.elfClass).toNat +
      (ProgramHeader.size image.ident.elfClass).toNat * image.segments.length := by
  obtain ⟨-, hmul, hfits⟩ := image.tableSize_fits (by omega)
  rw [tableEnd, toNat_add_of_lt (by rw [hmul]; exact hfits), hmul]

theorem programTable_stop (hcount : image.segments.length < 2 ^ 16) :
    image.programTable.stop = image.tableEnd.toNat := by
  rw [Extent.stop, length_programTable, toNat_tableEnd hcount, Nat.mul_comm]
  rfl

/-- The layout is stacked as soon as its payloads are. -/
theorem stacked_layout (hclass : image.header.ident.elfClass = image.ident.elfClass)
    (hcount : image.segments.length < 2 ^ 16)
    (hsegments : Extent.Stacked image.tableEnd.toNat image.segmentExtents
      image.segmentsEnd.toNat)
    (hsections : Extent.Stacked image.segmentsEnd.toNat image.sectionExtents
      image.sectionsEnd.toNat) :
    ∃ hi, Extent.Stacked 0 image.layout hi := by
  have hheader : image.headerExtent.stop =
      (ElfHeader.size image.ident.elfClass).toNat := by
    simp [headerExtent, Extent.stop, builtHeader, hclass]
  obtain ⟨hi, hlast⟩ : ∃ hi, Extent.Stacked image.sectionsEnd.toNat
      image.sectionTable hi := by
    rw [sectionTable]
    split
    · exact ⟨_, rfl⟩
    · rename_i hne
      refine ⟨_, ?_, rfl⟩
      rw [builtShoff, if_neg hne]
      exact le_alignUp _ _
  refine ⟨hi, Nat.zero_le _, ?_⟩
  rw [hheader]
  refine ⟨le_refl _, ?_⟩
  rw [programTable_stop hcount]
  exact (hsegments.append hsections).append hlast

theorem headerExtent_stop (hclass : image.header.ident.elfClass = image.ident.elfClass) :
    image.headerExtent.stop = (ElfHeader.size image.ident.elfClass).toNat := by
  rw [Extent.stop, headerExtent, ElfHeader.length_write, builtHeader, hclass, Nat.zero_add]

/-- What a successful build does: it paints the payloads, the tables and the file header,
each inside the size limit. -/
structure Painted (image : ElfImage) (b : List UInt8) : Prop where
  segmentCount : image.segments.length < 2 ^ 16
  sectionCount : image.builtSections.length < 2 ^ 16
  segments : Extent.Stacked image.tableEnd.toNat image.segmentExtents
    image.segmentsEnd.toNat
  sections : Extent.Stacked image.segmentsEnd.toNat image.sectionExtents
    image.sectionsEnd.toNat
  limit : ∀ e ∈ image.paintOrder, e.stop ≤ maxImage
  painted : b = Extent.paint 0
    (List.replicate (ElfHeader.size image.ident.elfClass).toNat 0) image.paintOrder

/-- The file header fills the place reserved for it, so its class is that of the image. -/
theorem elfClass_of_tryBuild (h : image.tryBuild = .ok b) :
    image.header.ident.elfClass = image.ident.elfClass := by
  rw [tryBuild] at h
  simp only [Outcome.bind_eq_ok] at h
  obtain ⟨_, -, _, -, _, -, _, -, _, -, _, -, _, -, _, -, hheader⟩ := h
  have hlen := (copyFromSlice_eq_ok.1 hheader).1.2.2
  rw [ElfHeader.length_write, Nat.sub_zero] at hlen
  dsimp only at hlen
  cases hannounced : image.header.ident.elfClass <;> cases hown : image.ident.elfClass <;>
    simp [hannounced, hown, ElfHeader.size] at hlen ⊢

theorem tryBuild_paints (h : image.tryBuild = .ok b) : image.Painted b := by
  have hclass := elfClass_of_tryBuild h
  rw [tryBuild] at h
  simp only [Outcome.bind_eq_ok] at h
  obtain ⟨tableSize, htableSize, cursor₀, hcursor₀, ⟨phdrs, out₁, cursor₁⟩, hsegments,
    ⟨shstrndx, sections, out₂, cursor₂⟩, hsections, out₃, htable, phnum, hphnum, shnum,
    hshnum, ⟨shoff, out₄⟩, hsectionTable, hheader⟩ := h
  dsimp only at hsections htable hphnum hshnum hsectionTable hheader
  rcases placeSections_eq_ok hsections with ⟨hshstrndx, hplace⟩
  rcases placeEach_eq_ok hsegments with ⟨hphdrs, hcursor₁, hout₁, hfit₁⟩
  rcases placeEach_eq_ok hplace with ⟨hsecs, hcursor₂, hout₂, hfit₂⟩
  have hphnum := countU16_eq_ok.1 hphnum
  have hshnum := countU16_eq_ok.1 hshnum
  obtain rfl : cursor₀ = image.tableEnd := by
    have hsize := Outcome.eq_of_mul_eq_ok htableSize
    have hend := Outcome.eq_of_add_eq_ok hcursor₀
    rw [hend, hsize, tableEnd]
  -- every intermediate value is the one the layout names
  obtain rfl : phdrs = image.builtProgramHeaders := hphdrs
  obtain rfl : cursor₁ = image.segmentsEnd := hcursor₁
  obtain rfl : sections = image.builtSections := hsecs
  obtain rfl : cursor₂ = image.sectionsEnd := hcursor₂
  rcases writeSectionTable_eq_ok hsectionTable with ⟨hshoff, hout₄, hfit₄⟩
  obtain rfl : shoff = image.builtShoff := hshoff
  rcases writeAt_eq_ok.1 htable with ⟨hfit₃, hout₃⟩
  have hcount : image.builtProgramHeaders.length = image.segments.length :=
    length_recordsOf ..
  have hbuilt : ({ image.header with
      phoff := ElfHeader.size image.ident.elfClass
      shoff := image.builtShoff
      ehsize := (ElfHeader.size image.ident.elfClass).toUInt16
      phentsize := (ProgramHeader.size image.ident.elfClass).toUInt16
      phnum, shnum, shstrndx
      shentsize := (SectionHeader.entrySize image.ident.elfClass).toUInt16 } : ElfHeader) =
      image.builtHeader := by
    rw [builtHeader, hshstrndx, ← hshnum, ← hcount, ← hphnum, UInt16.ofNat_toNat,
      UInt16.ofNat_toNat]
  rw [hbuilt] at hheader
  rcases copyFromSlice_eq_ok.1 hheader with ⟨⟨-, hroom, -⟩, hb⟩
  have hheaderLen : image.builtHeader.write.length =
      (ElfHeader.size image.ident.elfClass).toNat := by
    rw [ElfHeader.length_write, builtHeader, hclass]
  have hsmall : (ElfHeader.size image.ident.elfClass).toNat ≤ maxImage := by
    cases image.ident.elfClass <;> decide
  constructor
  case segmentCount =>
    rw [← hcount, ← hphnum]
    exact phnum.toNat_lt
  case sectionCount => exact hshnum ▸ shnum.toNat_lt
  case segments => exact stacked_extentsOf Segment.le_position hfit₁
  case sections => exact stacked_extentsOf Section.le_position hfit₂
  case limit =>
    intro e he
    simp only [paintOrder, List.mem_append, List.mem_cons, List.not_mem_nil, or_false] at he
    rcases he with ((he | he) | rfl | he) | rfl
    · exact hfit₁ e he
    · exact hfit₂ e he
    · exact hfit₃
    · rw [sectionTable] at he
      split at he
      · exact absurd he (by simp)
      · rename_i hne
        obtain rfl := List.mem_singleton.1 he
        exact hfit₄ hne
    · rw [headerExtent_stop hclass]
      exact hsmall
  case painted =>
    rw [hb, ← overwrite_eq_splice 0 (by omega), hout₄, hout₃, hout₂, hout₁]
    rw [paintOrder]
    rw [Extent.paint_append, Extent.paint_append, Extent.paint_append]
    rfl

/-- A successful build is the painted layout. -/
theorem tryBuild_eq_ok (h : image.tryBuild = .ok b) : image.Built b := by
  have hclass := elfClass_of_tryBuild h
  have hpainted := tryBuild_paints h
  obtain ⟨hi, hstack⟩ := stacked_layout hclass hpainted.segmentCount hpainted.segments
    hpainted.sections
  have hroom : (List.replicate (ElfHeader.size image.ident.elfClass).toNat
      (0 : UInt8)).length ≤ hi := by
    rw [List.length_replicate, ← headerExtent_stop hclass]
    exact (hstack.bounds (by simp [layout])).2
  have hsmall : (ElfHeader.size image.ident.elfClass).toNat ≤ maxImage := by
    cases image.ident.elfClass <;> decide
  obtain ⟨hheld, hlen⟩ := hstack.held_paint image.layout_perm_paintOrder (by simp [layout]) 0
    hroom
  rw [← hpainted.painted] at hheld hlen
  refine ⟨hpainted.segmentCount, hpainted.sectionCount, hlen ▸ hstack, hheld, ?_⟩
  rw [hpainted.painted, Extent.length_paint_le_iff, List.length_replicate]
  exact ⟨hsmall, hpainted.limit⟩

end ElfImage

end Elfex
