import Elfex.Image.MappedGrammar

/-!
# What every parsed image satisfies

In either layout the headers fit the widths of the class, the payloads have the
sizes their headers declare, and no name holds a NUL. The one difference between
the layouts is the data of loadable segments, which has the file size in one and
the memory size in the other; `Regular` leaves it open.
-/

namespace Elfex

open Foundation

/-- What the parser of either layout guarantees about an image. -/
structure ElfImage.Regular (image : ElfImage) : Prop where
  ident : image.header.ident = image.ident
  header : image.header.Fits
  segmentHeader : ∀ segment ∈ image.segments, segment.header.Fits image.ident.elfClass
  segmentNull : ∀ segment ∈ image.segments, segment.header.type = SegmentType.null →
    segment.data = []
  segmentData : ∀ segment ∈ image.segments, segment.header.type ≠ SegmentType.null →
    segment.header.type ≠ SegmentType.load →
    segment.data.length = segment.header.filesz.toNat
  sectionHeader : ∀ sec ∈ image.sections, sec.header.Fits image.ident.elfClass
  sectionNobits : ∀ sec ∈ image.sections, sec.header.isNobits = true → sec.data = []
  sectionData : ∀ sec ∈ image.sections, sec.header.isNobits = false →
    sec.data.length = sec.header.size.toNat
  names : ∀ sec ∈ image.sections, 0 ∉ strBytes sec.name

/-! ## File layout -/

section File

variable {data : List UInt8}

theorem headerOf_fits (data : List UInt8) : (headerOf data).Fits :=
  ElfHeader.decode_fits _ _

theorem programHeadersOf_fits {header : ProgramHeader}
    (h : header ∈ programHeadersOf data) : header.Fits (identOf data).elfClass := by
  rcases List.mem_map.1 h with ⟨i, -, rfl⟩
  exact ProgramHeader.decode_fits _ _ _

theorem sectionHeadersOf_fits {header : SectionHeader}
    (h : header ∈ sectionHeadersOf data) : header.Fits (identOf data).elfClass := by
  rw [sectionHeadersOf] at h
  split at h
  · exact absurd h (by simp)
  · rcases List.mem_map.1 h with ⟨i, -, rfl⟩
    exact SectionHeader.decode_fits _ _ _

/-- A segment of a file in the grammar has as many bytes as its header declares. -/
theorem FileGrammar.length_segmentOf (h : FileGrammar data) {header : ProgramHeader}
    (hmem : header ∈ programHeadersOf data) (hnull : header.type ≠ SegmentType.null) :
    (segmentOf data header).data.length = header.filesz.toNat := by
  rw [segmentOf, if_neg hnull]
  by_cases hsize : 0 < header.filesz.toNat
  · exact length_window_of_le (h.segments header hmem hnull hsize).2
  · rw [Nat.eq_zero_of_not_pos hsize, window_zero_right]
    rfl

/-- A section of a file in the grammar has as many bytes as its header declares. -/
theorem FileGrammar.length_sectionOf (h : FileGrammar data) {header : SectionHeader}
    (hmem : header ∈ sectionHeadersOf data) (hnobits : header.isNobits = false) :
    (sectionOf data header).data.length = header.size.toNat := by
  have htype : header.type ≠ SectionType.nobits := by
    simpa [SectionHeader.isNobits] using hnobits
  rw [sectionOf, if_neg htype]
  by_cases hsize : 0 < header.size.toNat
  · exact length_window_of_le (h.sections header hmem htype hsize).2
  · rw [Nat.eq_zero_of_not_pos hsize, window_zero_right]
    rfl

theorem FileGrammar.regular (h : FileGrammar data) : (imageOf data).Regular where
  ident := headerOf_ident data
  header := headerOf_fits data
  segmentHeader segment hsegment := by
    rcases List.mem_map.1 hsegment with ⟨header, hmem, rfl⟩
    exact programHeadersOf_fits hmem
  segmentNull segment hsegment hnull := by
    rcases List.mem_map.1 hsegment with ⟨header, hmem, rfl⟩
    exact if_pos hnull
  segmentData segment hsegment hnull _ := by
    rcases List.mem_map.1 hsegment with ⟨header, hmem, rfl⟩
    exact h.length_segmentOf hmem hnull
  sectionHeader sec hsec := by
    rcases List.mem_map.1 hsec with ⟨header, hmem, rfl⟩
    exact sectionHeadersOf_fits hmem
  sectionNobits sec hsec hnobits := by
    rcases List.mem_map.1 hsec with ⟨header, hmem, rfl⟩
    exact if_pos (by simpa [sectionOf, SectionHeader.isNobits] using hnobits)
  sectionData sec hsec hnobits := by
    rcases List.mem_map.1 hsec with ⟨header, hmem, rfl⟩
    exact h.length_sectionOf hmem hnobits
  names sec hsec := by
    rcases List.mem_map.1 hsec with ⟨header, hmem, rfl⟩
    exact StringTable.zero_notMem_name _ _

theorem parse_eq_ok (hdata : data.length ≤ isizeMax) {image : ElfImage} :
    ElfImage.parse data = .ok image ↔ FileGrammar data ∧ imageOf data = image :=
  (parse_decides hdata).eq_ok_iff image

/-- A file that parses is parsed to the image of its bytes. -/
theorem parse_imageOf (hdata : data.length ≤ isizeMax) (h : (ElfImage.parse data).isOk = true) :
    ElfImage.parse data = .ok (imageOf data) := by
  obtain ⟨image, himage⟩ := Outcome.exists_of_isOk h
  obtain ⟨-, rfl⟩ := (parse_eq_ok hdata).1 himage
  exact himage

end File

/-! ## Mapped layout -/

section Mapped

variable {data : List UInt8}

theorem mappedSectionHeadersOf_fits {header : SectionHeader}
    (h : header ∈ mappedSectionHeadersOf data) : header.Fits (identOf data).elfClass := by
  rw [mappedSectionHeadersOf] at h
  split at h
  · rcases List.mem_map.1 h with ⟨i, -, rfl⟩
    exact SectionHeader.decode_fits _ _ _
  · exact absurd h (by simp)

/-- A segment of a mapped source has the mapped length of its header. -/
theorem length_mappedSegmentOf (imageBase : UInt64) {header : ProgramHeader}
    (hnull : header.type ≠ SegmentType.null) :
    (mappedSegmentOf data imageBase header).data.length = header.mappedLength.toNat := by
  rw [mappedSegmentOf, if_neg hnull]
  exact length_mappedBytes _ _ _

theorem mappedImageOf_regular (data : List UInt8) (base : UInt64) :
    { mappedImageOf data with runtimeBase := base }.Regular where
  ident := headerOf_ident data
  header := headerOf_fits data
  segmentHeader segment hsegment := by
    rcases List.mem_map.1 hsegment with ⟨header, hmem, rfl⟩
    exact programHeadersOf_fits hmem
  segmentNull segment hsegment hnull := by
    rcases List.mem_map.1 hsegment with ⟨header, hmem, rfl⟩
    exact if_pos hnull
  segmentData segment hsegment hnull hload := by
    rcases List.mem_map.1 hsegment with ⟨header, hmem, rfl⟩
    exact (length_mappedSegmentOf _ hnull).trans (congrArg _ (if_neg hload))
  sectionHeader sec hsec := by
    rcases List.mem_map.1 hsec with ⟨header, hmem, rfl⟩
    exact mappedSectionHeadersOf_fits (List.mem_filter.1 hmem).1
  sectionNobits sec hsec hnobits := by
    rcases List.mem_map.1 hsec with ⟨header, hmem, rfl⟩
    apply List.eq_nil_of_length_eq_zero
    exact (length_mappedBytes _ _ _).trans (congrArg _ (if_pos hnobits))
  sectionData sec hsec hnobits := by
    rcases List.mem_map.1 hsec with ⟨header, hmem, rfl⟩
    refine (length_mappedBytes _ _ _).trans (congrArg _ (if_neg ?_))
    rw [show header.isNobits = false from hnobits]
    decide
  names sec hsec := by
    rcases List.mem_map.1 hsec with ⟨header, hmem, rfl⟩
    exact StringTable.zero_notMem_name _ _

theorem parseMapped_eq_ok (hdata : data.length < 2 ^ 64) {image : ElfImage} :
    ElfImage.parseMapped data = .ok image ↔ MappedGrammar data ∧ mappedImageOf data = image :=
  (parseMapped_decides hdata).eq_ok_iff image

theorem parseMappedAt_eq_ok (hdata : data.length < 2 ^ 64) {loadBase : UInt64}
    {image : ElfImage} : ElfImage.parseMappedAt data loadBase = .ok image ↔
      MappedGrammar data ∧ { mappedImageOf data with runtimeBase := loadBase } = image :=
  (parseMappedAt_decides hdata loadBase).eq_ok_iff image

/-- A mapped image, parsed at its preferred base or at another, is regular and holds
the memory size of its loadable segments. -/
theorem regular_of_mapped (hdata : data.length ≤ isizeMax) {image : ElfImage}
    (h : ElfImage.parseMapped data = .ok image ∨
      ∃ loadBase, ElfImage.parseMappedAt data loadBase = .ok image) :
    image.Regular ∧ ∀ segment ∈ image.segments, segment.header.type = SegmentType.load →
      segment.data.length = segment.header.memsz.toNat := by
  have hmax : isizeMax < 2 ^ 64 := by decide
  obtain ⟨base, rfl⟩ : ∃ base, image = { mappedImageOf data with runtimeBase := base } := by
    rcases h with h | ⟨loadBase, h⟩
    · exact ⟨_, ((parseMapped_eq_ok (by omega)).1 h).2.symm⟩
    · exact ⟨_, ((parseMappedAt_eq_ok (by omega)).1 h).2.symm⟩
  refine ⟨mappedImageOf_regular data base, fun segment hsegment hload => ?_⟩
  rcases List.mem_map.1 hsegment with ⟨header, hmem, rfl⟩
  have hnull : header.type ≠ SegmentType.null := by
    rw [show header.type = SegmentType.load from hload]
    decide
  exact (length_mappedSegmentOf _ hnull).trans (congrArg _ (if_pos hload))

/-- A parsed file is regular, and its segments hold their file size. -/
theorem regular_of_parse (hdata : data.length ≤ isizeMax) {image : ElfImage}
    (h : ElfImage.parse data = .ok image) :
    image.Regular ∧ ∀ segment ∈ image.segments, segment.header.type ≠ SegmentType.null →
      segment.data.length = segment.header.filesz.toNat := by
  rcases (parse_eq_ok hdata).1 h with ⟨hgrammar, rfl⟩
  refine ⟨hgrammar.regular, fun segment hsegment hnull => ?_⟩
  rcases List.mem_map.1 hsegment with ⟨header, hmem, rfl⟩
  exact hgrammar.length_segmentOf hmem hnull

/-- A load of a parsed file whose file size is at most its memory size holds no more than
its memory. -/
theorem data_le_memsz_of_parse (hdata : data.length ≤ isizeMax) {image : ElfImage}
    (h : ElfImage.parse data = .ok image)
    (hsizes : ∀ segment ∈ image.segments, segment.header.type = SegmentType.load →
      segment.header.filesz ≤ segment.header.memsz) :
    ∀ segment ∈ image.segments, segment.header.type = SegmentType.load →
      segment.data.length ≤ segment.header.memsz.toNat := by
  intro segment hmem hload
  have hnull : segment.header.type ≠ SegmentType.null := by
    rw [hload]
    decide
  rw [(regular_of_parse hdata h).2 segment hmem hnull]
  exact UInt64.le_iff_toNat_le.1 (hsizes segment hmem hload)

end Mapped

end Elfex
