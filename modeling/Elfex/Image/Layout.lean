import Elfex.Image.Reparse

/-!
# Soundness of the serialized layout

The ranges a built file's own headers account for. They are the extents of the
layout, so they are pairwise disjoint and inside the file, and every loadable
segment sits at the least offset its alignment allows.
-/

namespace Elfex

open Foundation

/-- The file range of a program header that has file bytes. -/
def ProgramHeader.fileRange (header : ProgramHeader) : Option (ℕ × ℕ) :=
  if header.filesz = 0 then none
  else some (header.offset.toNat, header.offset.toNat + header.filesz.toNat)

/-- The file range of a section header that has file bytes. -/
def SectionHeader.fileRange (header : SectionHeader) : Option (ℕ × ℕ) :=
  if header.isNobits ∨ header.size = 0 then none
  else some (header.offset.toNat, header.offset.toNat + header.size.toNat)

def programTableRange (b : List UInt8) : ℕ × ℕ :=
  ((headerOf b).phoff.toNat, (headerOf b).phoff.toNat +
    (headerOf b).phnum.toNat * (ProgramHeader.size (identOf b).elfClass).toNat)

def sectionTableRange (b : List UInt8) : List (ℕ × ℕ) :=
  if (headerOf b).shnum = 0 then []
  else [((headerOf b).shoff.toNat, (headerOf b).shoff.toNat +
    (headerOf b).shnum.toNat * (SectionHeader.entrySize (identOf b).elfClass).toNat)]

/-- The ranges the headers of a file account for: the file header, the two tables and
every payload. -/
def fileRanges (b : List UInt8) : List (ℕ × ℕ) :=
  (0, (ElfHeader.size (identOf b).elfClass).toNat) :: programTableRange b ::
    ((programHeadersOf b).filterMap ProgramHeader.fileRange ++
      (sectionHeadersOf b).filterMap SectionHeader.fileRange ++ sectionTableRange b)

/-- The end of what precedes the `i`-th segment of a file: the program header table and
the payloads of the segments before it. -/
def placedBefore (b : List UInt8) (i : ℕ) : ℕ :=
  (((programHeadersOf b).take i).filterMap ProgramHeader.fileRange).foldl
    (fun stop range => max stop range.2) (programTableRange b).2

namespace ElfImage

variable {image : ElfImage} {b : List UInt8}

theorem extent_fits (h : image.Present b) {offset : UInt64} {bytes : List UInt8}
    (hmem : ⟨offset.toNat, bytes⟩ ∈ image.layout) :
    (image.ident.elfClass.keep offset).toNat = offset.toNat ∧
      (image.ident.elfClass.keep (UInt64.ofNat bytes.length)).toNat = bytes.length := by
  have hmax : maxImage < 2 ^ 32 := by decide
  have hstop : offset.toNat + bytes.length ≤ maxImage := h.limit _ hmem
  refine ⟨?_, (carries_of_mem_layout h hmem).size_eq⟩
  rw [ElfClass.keep_of_lt _ (by omega)]

/-- The file range of a written program header is the segment's extent. -/
theorem fileRange_segment (h : image.Present b) {segment : Segment} {place : Option UInt64}
    (hmem : (segment, place) ∈ image.segments.zip
      (placements Segment.written Segment.position image.segments image.tableEnd)) :
    ((recordAt Segment.skippedHeader Segment.placedHeader segment place).narrow
      image.ident.elfClass).fileRange =
        (extentAt Segment.written segment place).map Extent.range := by
  cases place with
  | none =>
      have hzero : image.ident.elfClass.keep 0 = 0 := ElfClass.keep_of_lt _ (by decide)
      simp [recordAt, Segment.skippedHeader, ProgramHeader.narrow, ProgramHeader.fileRange,
        extentAt, hzero]
  | some offset =>
      have hextent := segmentExtents_subset (mem_extentsOf_of_mem_zip hmem)
      obtain ⟨hoffset, hsize⟩ := extent_fits h hextent
      have hne : segment.written ≠ [] := fun hnil =>
        absurd ((eq_none_iff_of_mem_zip hmem).2 hnil) (by simp)
      have hpos : image.ident.elfClass.keep (UInt64.ofNat segment.written.length) ≠ 0 :=
        ne_zero_of_lt_toNat (hsize.symm ▸ List.length_pos_iff.2 hne)
      simp only [recordAt, Segment.placedHeader, ProgramHeader.narrow,
        ProgramHeader.fileRange, if_neg hpos, extentAt, Option.map_some, Extent.range,
        Extent.stop, hoffset, hsize]

/-- The file range of a written section header is the section's extent. -/
theorem fileRange_section (h : image.Present b) {sec : Section} {place : Option UInt64}
    (hmem : (sec, place) ∈ (namedSections image.sections).zip
      (placements Section.written Section.position (namedSections image.sections)
        image.segmentsEnd)) :
    ((recordAt Section.skipped Section.placed sec place).header.narrow
      image.ident.elfClass).fileRange =
        (extentAt Section.written sec place).map Extent.range := by
  have hzero : image.ident.elfClass.keep 0 = 0 := ElfClass.keep_of_lt _ (by decide)
  cases place with
  | none =>
      simp only [recordAt, Section.skipped, SectionHeader.fileRange, extentAt,
        Option.map_none, ite_eq_left_iff]
      by_cases hnobits : sec.header.isNobits = true
      · rw [if_pos hnobits]
        exact fun hnot => absurd (Or.inl hnobits) hnot
      · rw [if_neg hnobits]
        exact fun hnot => absurd (Or.inr hzero) hnot
  | some offset =>
      have hextent := sectionExtents_subset (mem_extentsOf_of_mem_zip hmem)
      obtain ⟨hoffset, hsize⟩ := extent_fits h hextent
      have hne : sec.written ≠ [] := fun hnil =>
        absurd ((eq_none_iff_of_mem_zip hmem).2 hnil) (by simp)
      have hnobits : ¬sec.header.isNobits = true := by
        intro hnobits
        exact hne (by rw [Section.written, if_pos hnobits])
      have hdata : sec.written = sec.data := by rw [Section.written, if_neg hnobits]
      rw [hdata] at hne hsize
      have hpos : image.ident.elfClass.keep (UInt64.ofNat sec.data.length) ≠ 0 :=
        ne_zero_of_lt_toNat (hsize.symm ▸ List.length_pos_iff.2 hne)
      have hnot : ¬((SectionHeader.narrow (sec.placed offset).header
          image.ident.elfClass).isNobits = true ∨
          (SectionHeader.narrow (sec.placed offset).header image.ident.elfClass).size = 0) :=
        not_or.2 ⟨hnobits, hpos⟩
      rw [recordAt, SectionHeader.fileRange, if_neg hnot, extentAt, Option.map_some,
        Option.map_some, Extent.range, Extent.stop, hdata]
      simp only [Section.placed, SectionHeader.narrow, hoffset, hsize]

/-- The ranges of the first program headers of a built file. -/
theorem segmentRanges_take (h : image.Present b) (i : ℕ) :
    ((programHeadersOf b).take i).filterMap ProgramHeader.fileRange =
      (extentsOf Segment.written Segment.position (image.segments.take i)
        image.tableEnd).map Extent.range := by
  rw [programHeadersOf_present h, builtProgramHeaders, recordsOf, extentsOf,
    zip_placements_take, List.map_map, ← List.map_take, List.filterMap_map,
    List.map_filterMap]
  refine List.filterMap_congr fun entry hentry => ?_
  obtain ⟨segment, place⟩ := entry
  exact fileRange_segment h (List.mem_of_mem_take hentry)

theorem sectionRanges (h : image.Present b) :
    (sectionHeadersOf b).filterMap SectionHeader.fileRange =
      image.sectionExtents.map Extent.range := by
  rw [sectionHeadersOf_present h, builtSections, recordsOf, sectionExtents, extentsOf,
    List.map_map, List.filterMap_map, List.map_filterMap]
  refine List.filterMap_congr fun entry hentry => ?_
  obtain ⟨sec, place⟩ := entry
  exact fileRange_section h hentry

theorem programTableRange_present (h : image.Present b) :
    programTableRange b = image.programTable.range := by
  obtain ⟨-, -, -, hident⟩ := ident_present h
  rw [programTableRange, h.laidOut.headerOf_phoff, h.laidOut.headerOf_phnum, hident, Extent.range,
    Extent.stop, length_programTable]
  rfl

theorem sectionTableRange_present (h : image.Present b) :
    sectionTableRange b = image.sectionTable.map Extent.range := by
  obtain ⟨-, -, -, hident⟩ := ident_present h
  have hcount := h.laidOut.headerOf_shnum
  unfold sectionTableRange sectionTable
  by_cases hne : image.builtSections = []
  · rw [if_pos hne, if_pos, List.map_nil]
    rw [← UInt16.toNat_inj, hcount, hne]
    rfl
  · have hpos : (headerOf b).shnum ≠ 0 := by
      intro hzero
      rw [hzero] at hcount
      exact hne (List.length_eq_zero_iff.1 hcount.symm)
    rw [if_neg hne, if_neg hpos, h.laidOut.headerOf_shoff, hcount, hident, List.map_singleton,
      Extent.range, Extent.stop,
      length_flatMap_of_width _ _ fun _ _ => SectionHeader.length_write _ _ _]

/-- The ranges a built file's headers account for are the extents of the layout. -/
theorem fileRanges_present (h : image.Present b) :
    fileRanges b = image.layout.map Extent.range := by
  obtain ⟨-, -, -, hident⟩ := ident_present h
  have hsegments := segmentRanges_take h (programHeadersOf b).length
  have hlen : (programHeadersOf b).length = image.segments.length := by
    rw [programHeadersOf_present h, List.length_map, length_builtProgramHeaders]
  rw [List.take_length, hlen, List.take_length] at hsegments
  have hheader : image.headerExtent.range =
      (0, (ElfHeader.size image.ident.elfClass).toNat) := by
    simp [headerExtent, Extent.range, Extent.stop, builtHeader, h.ident]
  rw [fileRanges, hsegments, sectionRanges h, programTableRange_present h,
    sectionTableRange_present h, hident, layout, List.map_cons, List.map_cons,
    List.map_append, List.map_append, hheader]
  rfl

/-- The end of what precedes a segment is where the serializer's cursor stands. -/
theorem placedBefore_eq (h : image.Built b) (hident : image.header.ident = image.ident)
    (i : ℕ) :
    placedBefore b i =
      (cursorAfter Segment.written Segment.position (image.segments.take i)
        image.tableEnd).toNat := by
  have hpresent : image.Present b := by simpa using h.present hident []
  have hfit : ∀ e ∈ extentsOf Segment.written Segment.position (image.segments.take i)
      image.tableEnd, e.stop ≤ maxImage := fun e he =>
    hpresent.limit e (segmentExtents_subset (mem_extentsOf_of_take he))
  rw [placedBefore, segmentRanges_take hpresent, programTableRange_present hpresent,
    List.foldl_map]
  simp only [Extent.range, programTable_stop h.segmentCount]
  exact (stacked_extentsOf Segment.le_position hfit).foldl_max_stop

/-- A loadable segment written at a position inside the size limit is written at the
least aligned position at or after the cursor. -/
theorem isLeast_position {segment : Segment} {cursor : UInt64}
    (hload : segment.header.isLoad = true) (halign : 1 < segment.header.align.toNat)
    (hfit : (segment.position cursor).toNat ≤ maxImage) :
    IsLeast {n | cursor.toNat ≤ n ∧
      n ≡ segment.header.vaddr.toNat [MOD segment.header.align.toNat]}
      (segment.position cursor).toNat := by
  have hmax : maxImage < 2 ^ 64 - 1 := by decide
  have hone : max segment.header.align 1 = segment.header.align := by
    rw [← UInt64.toNat_inj, toNat_max]
    exact Nat.max_eq_left halign.le
  have hposition : segment.position cursor =
      congruent cursor segment.header.vaddr segment.header.align := by
    rw [Segment.position, if_pos hload, hone]
  rw [hposition, toNat_congruent _ _ _ halign] at hfit ⊢
  rw [Nat.min_eq_left (by omega)]
  exact isLeast_nextCongruent _ _ (by omega)

/-- A loadable segment with bytes to write is written at the least aligned position at or
after the cursor. -/
theorem isLeast_offset (h : image.Present b) {i : ℕ} {segment : Segment}
    (hsegment : image.segments[i]? = some segment) (hload : segment.header.isLoad = true)
    (hne : segment.written ≠ []) (halign : 1 < segment.header.align.toNat)
    {header : ProgramHeader} (hheader : (programHeadersOf b)[i]? = some header) :
    IsLeast {n | (cursorAfter Segment.written Segment.position (image.segments.take i)
        image.tableEnd).toNat ≤ n ∧
      n ≡ segment.header.vaddr.toNat [MOD segment.header.align.toNat]}
      header.offset.toNat := by
  obtain ⟨place, hmem, hplace, hrecord⟩ := builtProgramHeaders_getElem? hsegment
  rw [programHeadersOf_present h, List.getElem?_map, hrecord, Option.map_some,
    Option.some_inj] at hheader
  rw [if_neg hne] at hplace
  subst hplace hheader
  have hextent := segmentExtents_subset (mem_extentsOf_of_mem_zip hmem)
  have hstop := h.limit _ hextent
  have hoffset := (extent_fits h hextent).1
  simp only [recordAt, Segment.placedHeader, ProgramHeader.narrow, hoffset]
  exact isLeast_position hload halign ((Nat.le_add_right _ _).trans hstop)

/-- A serialized image is laid out soundly: inside the size limit, in pairwise disjoint
ranges that hold the bytes written for them, every loadable segment at the least offset
its alignment allows. -/
theorem tryBuild_layout_sound (hident : image.header.ident = image.ident)
    (h : image.tryBuild = .ok b) :
    b.length ≤ 256 * 1024 * 1024 ∧
      (fileRanges b).Pairwise (fun r s => r.2 ≤ s.1 ∨ s.2 ≤ r.1) ∧
      (∀ r ∈ fileRanges b, r.1 ≤ r.2 ∧ r.2 ≤ b.length) ∧
      (programHeadersOf b).length = image.segments.length ∧
      (sectionHeadersOf b).length = (namedSections image.sections).length ∧
      (∀ (i : ℕ) (segment : Segment), image.segments[i]? = some segment →
        ∃ header : ProgramHeader, (programHeadersOf b)[i]? = some header ∧
          header.filesz.toNat = segment.written.length ∧
          window b header.offset.toNat header.filesz.toNat = segment.written ∧
          (segment.header.isLoad = true → segment.written ≠ [] →
            1 < segment.header.align.toNat →
            IsLeast {n | placedBefore b i ≤ n ∧
              n ≡ segment.header.vaddr.toNat [MOD segment.header.align.toNat]}
              header.offset.toNat)) ∧
      (∀ (i : ℕ) (sec : Section), (namedSections image.sections)[i]? = some sec →
        sec.header.isNobits = false →
        ∃ header : SectionHeader, (sectionHeadersOf b)[i]? = some header ∧
          header.size.toNat = sec.written.length ∧
          window b header.offset.toNat header.size.toNat = sec.written) := by
  have hbuilt := tryBuild_eq_ok h
  have hpresent : image.Present b := by simpa using hbuilt.present hident []
  have hprogram := programHeadersOf_present hpresent
  have hsection := sectionHeadersOf_present hpresent
  refine ⟨hbuilt.limit, ?_, ?_, ?_, ?_, ?_, ?_⟩
  · rw [fileRanges_present hpresent, List.pairwise_map]
    exact hbuilt.stacked.pairwise_disjoint
  · rw [fileRanges_present hpresent]
    intro r hr
    rcases List.mem_map.1 hr with ⟨e, he, rfl⟩
    exact ⟨e.start_le_stop, (hbuilt.held e he).1⟩
  · rw [hprogram, List.length_map, length_builtProgramHeaders]
  · rw [hsection, List.length_map, builtSections, length_recordsOf]
  · intro i segment hsegment
    obtain ⟨place, hmem, -, hrecord⟩ := builtProgramHeaders_getElem? hsegment
    obtain ⟨-, hcarries⟩ := segment_carries hpresent hmem
    have hheader : (programHeadersOf b)[i]? = some ((recordAt Segment.skippedHeader
        Segment.placedHeader segment place).narrow image.ident.elfClass) := by
      rw [hprogram, List.getElem?_map, hrecord, Option.map_some]
    refine ⟨_, hheader, hcarries.size_eq, hcarries.window_eq, fun hload hne halign => ?_⟩
    rw [placedBefore_eq hbuilt hident]
    exact isLeast_offset hpresent hsegment hload hne halign hheader
  · intro i sec hsec hnobits
    obtain ⟨place, hmem, hrecord⟩ := builtSections_getElem? hsec
    obtain ⟨-, -, -, -, hcarries⟩ := section_carries hpresent hmem
    refine ⟨_, ?_, (hcarries hnobits).size_eq, (hcarries hnobits).window_eq⟩
    rw [hsection, List.getElem?_map, hrecord, Option.map_some]

end ElfImage

theorem smallFile_layout_sound :
    ∃ b, (imageOf smallFile).tryBuild = .ok b ∧ b.length ≤ 256 * 1024 * 1024 ∧
      (fileRanges b).Pairwise fun r s => r.2 ≤ s.1 ∨ s.2 ≤ r.1 := by
  obtain ⟨b, hb⟩ := Outcome.exists_of_isOk smallFile_builds
  obtain ⟨hlen, hdisjoint, -⟩ :=
    ElfImage.tryBuild_layout_sound (headerOf_ident smallFile) hb
  exact ⟨b, hb, hlen, hdisjoint⟩

end Elfex
