import Elfex.Image.Rebuild

/-!
# What a built file describes

A segment whose header declares exactly the bytes it has is described again but for its
offset. A section is described again with its type, its bytes and the part of its name
before the first NUL. The derived views read no more than that.
-/

namespace Elfex

open Foundation

/-- The segment with its offset open. -/
def Segment.unplaced (segment : Segment) : Segment :=
  { segment with header := { segment.header with offset := 0 } }

/-- The header declares exactly the bytes of the segment and fits the class. -/
structure Segment.Whole (segment : Segment) (elfClass : ElfClass) : Prop where
  fits : segment.header.Fits elfClass
  type : segment.header.type ≠ SegmentType.null
  size : segment.header.filesz.toNat = segment.data.length

theorem Segment.Whole.written_eq {segment : Segment} {elfClass : ElfClass}
    (h : segment.Whole elfClass) : segment.written = segment.data := by
  rw [Segment.written, h.size, Nat.min_self, List.take_length]

/-- A whole segment is described again, wherever it is placed. -/
theorem Segment.Whole.unplaced_rebuilt {segment : Segment} {elfClass : ElfClass}
    (h : segment.Whole elfClass) {place : Option UInt64}
    (hplace : place = none ↔ segment.written = []) :
    (segment.rebuilt elfClass
      (recordAt Segment.skippedHeader Segment.placedHeader segment place)).unplaced =
        segment.unplaced := by
  obtain ⟨hvaddr, hpaddr, hfilesz, hmemsz, halign⟩ := h.fits.keeps
  have hwritten := h.written_eq
  have hrecord : (recordAt Segment.skippedHeader Segment.placedHeader segment place).filesz =
      segment.header.filesz := by
    rw [← UInt64.toNat_inj, h.size, ← hwritten]
    cases place with
    | none =>
        rw [hplace.1 rfl]
        rfl
    | some offset =>
        have hlt := segment.header.filesz.toNat_lt
        rw [h.size, ← hwritten] at hlt
        exact toNat_ofNat_of_lt hlt
  have hheader : recordAt Segment.skippedHeader Segment.placedHeader segment place =
      { segment.header with
        offset := (recordAt Segment.skippedHeader Segment.placedHeader segment place).offset
        filesz := segment.header.filesz } := by
    rw [← hrecord]
    cases place <;> rfl
  rw [Segment.rebuilt, if_neg h.type, hwritten, hheader, ProgramHeader.narrow]
  simp only [Segment.unplaced, hvaddr, hpaddr, hfilesz, hmemsz, halign]

/-- What is read of a section: its type, its bytes, and its name up to the first NUL. -/
structure SectionRead (sec sec' : Section) : Prop where
  type : sec'.header.type = sec.header.type
  name : sec'.name = StringTable.readName sec.name
  data : sec.isShstrtab = false → sec'.data = sec.written

/-- What is read of a section and of where it is: its flags and its address as far as the
class keeps them, and the size of what is written for it. -/
structure SectionPlaced (elfClass : ElfClass) (sec sec' : Section) : Prop
    extends SectionRead sec sec' where
  flags : sec'.header.flags = elfClass.keep sec.header.flags
  addr : sec'.header.addr = elfClass.keep sec.header.addr
  size : sec.isShstrtab = false → sec.header.isNobits = false →
    sec'.header.size.toNat = sec.written.length

/-- A built section has the flags and the address of the section it is built of. -/
theorem Section.recordAt_address (sec : Section) (place : Option UInt64) :
    (recordAt Section.skipped Section.placed sec place).header.flags = sec.header.flags ∧
      (recordAt Section.skipped Section.placed sec place).header.addr = sec.header.addr := by
  cases place with
  | some offset => exact ⟨rfl, rfl⟩
  | none =>
      simp only [recordAt, Section.skipped]
      split
      · exact ⟨rfl, rfl⟩
      · exact ⟨rfl, rfl⟩

theorem SectionRead.data_of_type_ne {sec sec' : Section} (h : SectionRead sec sec')
    (htype : sec.header.type ≠ SectionType.strtab) : sec'.data = sec.written := by
  refine h.data ?_
  rw [Section.isShstrtab, beq_eq_false_iff_ne.2 htype, Bool.and_false]

/-- A view that a new name table takes no part in. -/
theorem filterMap_ensureShstrtab {γ : Type} {f : Section → Option γ} (sections : List Section)
    (h : f Section.shstrtab = none) :
    (ensureShstrtab sections).2.filterMap f = sections.filterMap f := by
  obtain ⟨-, -, -, -, -, heq | heq⟩ := ensureShstrtab_spec sections
  · rw [heq]
  · rw [heq, List.filterMap_append, List.filterMap_cons, h, List.filterMap_nil, List.append_nil]

namespace ElfImage

/-! ## The views of the segments -/

theorem find?_unplaced (segments : List Segment) (type : SegmentType) :
    (segments.map Segment.unplaced).find? (fun segment => segment.header.type == type) =
      (segments.find? fun segment => segment.header.type == type).map Segment.unplaced := by
  rw [List.find?_map]
  rfl

theorem tls_eq (image : ElfImage) : image.tls =
    ((image.segments.map Segment.unplaced).find? fun segment =>
      segment.header.type == SegmentType.tls).map
        fun segment => TlsInfo.fromHeader segment.header := by
  rw [find?_unplaced, Option.map_map]
  rfl

/-- The dynamic table is read from the first of the segments of its type. -/
theorem dynamic_eq (image : ElfImage) : image.dynamic =
    ((image.segments.filter fun segment =>
      segment.header.type == SegmentType.dynamic).map Segment.data).head?.elim (.ok none)
        fun data => do
          let table ← DynamicTable.parse data image.ident.data image.ident.elfClass
          return some table := by
  rw [List.head?_map, List.head?_filter, dynamic]
  cases image.segments.find? fun segment => segment.header.type == SegmentType.dynamic <;> rfl

theorem filter_unplaced (segments : List Segment) (type : SegmentType) :
    (segments.map Segment.unplaced).filter (fun segment => segment.header.type == type) =
      (segments.filter fun segment => segment.header.type == type).map Segment.unplaced := by
  rw [List.filter_map]
  rfl

variable {image : ElfImage} {d : List UInt8}

theorem segments_read (h : image.Present d)
    (hwhole : ∀ segment ∈ image.segments, segment.Whole image.ident.elfClass) :
    (imageOf d).segments.map Segment.unplaced = image.segments.map Segment.unplaced := by
  have hsegments : (imageOf d).segments = image.rebuiltSegments := (segments_present h).2
  have hlen : image.rebuiltSegments.length = image.segments.length := length_recordsOf ..
  rw [hsegments]
  apply List.ext_getElem
  · rw [List.length_map, List.length_map, hlen]
  intro i _ hi
  rw [List.length_map] at hi
  obtain ⟨place, hmem, hrebuilt⟩ := rebuiltSegments_getElem? (List.getElem?_eq_getElem hi)
  rw [List.getElem?_eq_getElem (hlen ▸ hi), Option.some_inj] at hrebuilt
  rw [List.getElem_map, List.getElem_map, hrebuilt]
  exact (hwhole _ (List.getElem_mem hi)).unplaced_rebuilt (eq_none_iff_of_mem_zip hmem)

/-- Every segment is described with its type, and with the bytes written for it. -/
theorem segments_carried (h : image.Present d) :
    List.Forall₂ (fun segment segment' : Segment =>
        segment'.header.type = segment.header.type ∧
          (segment.header.type ≠ SegmentType.null → segment'.data = segment.written))
      image.segments (imageOf d).segments := by
  have hsegments : (imageOf d).segments = image.rebuiltSegments := (segments_present h).2
  have hlen : image.rebuiltSegments.length = image.segments.length := length_recordsOf ..
  rw [hsegments, List.forall₂_iff_zip]
  refine ⟨hlen.symm, fun {segment segment'} hmem => ?_⟩
  rcases List.mem_iff_getElem?.1 hmem with ⟨i, hi⟩
  obtain ⟨hsegment, hsegment'⟩ := List.getElem?_zip_eq_some.1 hi
  obtain ⟨place, hplace, hrebuilt⟩ := rebuiltSegments_getElem? hsegment
  rw [hsegment', Option.some_inj] at hrebuilt
  have htype : (recordAt Segment.skippedHeader Segment.placedHeader segment place).type =
      segment.header.type := by
    cases place <;> rfl
  dsimp only at hrebuilt
  subst hrebuilt
  exact ⟨htype, fun hnull => if_neg hnull⟩

/-- The bytes of the segments of one type are what is written for them. -/
theorem filter_carried (h : image.Present d) {type : SegmentType}
    (htype : type ≠ SegmentType.null) :
    ((imageOf d).segments.filter fun segment => segment.header.type == type).map Segment.data =
      (image.segments.filter fun segment => segment.header.type == type).map
        Segment.written := by
  rw [map_filter_eq_filterMap, map_filter_eq_filterMap]
  refine (filterMap_eq_of_forall₂ (segments_carried h) ?_).symm
  rintro segment segment' ⟨hsame, hdata⟩
  rw [hsame]
  split
  · rename_i hmatch
    rw [hdata (by rw [beq_iff_eq.1 hmatch]; exact htype)]
  · rfl

/-! ## The sizes of the payloads -/

theorem Carries.length_le {offset size : UInt64} {bytes : List UInt8}
    (h : Carries d offset size bytes) : bytes.length ≤ maxImage := by
  rw [← h.size_eq]
  by_cases hsize : 0 < size.toNat
  · exact (h.inside hsize).1
  · omega

/-- What is written for a segment is small. -/
theorem length_segment_le (h : image.Present d) {segment : Segment}
    (hmem : segment ∈ image.segments) : segment.written.length ≤ maxImage := by
  rcases List.mem_iff_getElem?.1 hmem with ⟨i, hi⟩
  obtain ⟨place, hplace, -⟩ := rebuiltSegments_getElem? hi
  exact (segment_carries h hplace).2.length_le

/-- What is written for a section other than a name table is small. -/
theorem length_section_le (h : image.Present d) {sec : Section} (hmem : sec ∈ image.sections)
    (hplain : sec.isShstrtab = false) : sec.written.length ≤ maxImage := by
  have hne : image.sections ≠ [] := List.ne_nil_of_mem hmem
  have hmem : sec ∈ (ensureShstrtab image.sections).2 := by
    obtain ⟨-, -, -, -, -, heq | heq⟩ := ensureShstrtab_spec image.sections
    · rwa [heq]
    · rw [heq]
      exact List.mem_append_left _ hmem
  rcases List.mem_iff_getElem?.1 hmem with ⟨i, hi⟩
  obtain ⟨index, place, -, -, hplace, -⟩ := rebuiltSections_getElem? hne hi
  obtain ⟨-, -, -, -, hcarries⟩ := section_carries h hplace
  rw [Section.written_named_of_not hplain] at hcarries
  by_cases hnobits : sec.header.isNobits = true
  · rw [Section.written, if_pos hnobits]
    exact Nat.zero_le _
  · refine (hcarries ?_).length_le
    rw [SectionHeader.isNobits, Section.named_type]
    exact Bool.eq_false_iff.2 hnobits

/-! ## The views of the sections -/

/-- Every section of the file, and the new name table, is placed at its own index. -/
theorem sections_placed (h : image.Present d) (hne : image.sections ≠ []) :
    List.Forall₂ (SectionPlaced image.ident.elfClass) (ensureShstrtab image.sections).2
      (imageOf d).sections := by
  have hsections : (imageOf d).sections = image.builtSections.map fun sec =>
      { sec.rebuilt image.ident.elfClass with name := StringTable.readName sec.name } :=
    (sections_present h).2
  have hnamed : namedSections image.sections =
      assignNameOffsets (ensureShstrtab image.sections).2 := if_neg hne
  have hlen : image.builtSections.length = (ensureShstrtab image.sections).2.length := by
    rw [builtSections, length_recordsOf, hnamed, length_assignNameOffsets]
  rw [hsections, List.forall₂_iff_zip]
  refine ⟨by rw [List.length_map, hlen], fun {sec sec'} hmem => ?_⟩
  rcases List.mem_iff_getElem?.1 hmem with ⟨i, hi⟩
  obtain ⟨hsec, hsec'⟩ := List.getElem?_zip_eq_some.1 hi
  dsimp only at hsec hsec'
  obtain ⟨o, -, -, hassigned, -⟩ := assignNameOffsets_getElem? hsec
  rw [← hnamed] at hassigned
  obtain ⟨place, hplace, hbuilt⟩ := builtSections_getElem? hassigned
  rw [List.getElem?_map, hbuilt, Option.map_some, Option.some_inj] at hsec'
  obtain ⟨htype, hname, -, hwritten, hcarries⟩ := section_carries h hplace
  obtain ⟨hflags, haddr⟩ := Section.recordAt_address (sec.named (low32 (UInt64.ofNat o)) _) place
  rw [Section.header_named] at hflags haddr
  subst hsec'
  refine ⟨⟨?_, ?_, fun hplain => ?_⟩, ?_, ?_, fun hplain hnobits => ?_⟩
  · rw [Section.rebuilt, SectionHeader.narrow]
    exact htype.trans (Section.named_type ..)
  · dsimp only
    rw [hname, Section.named_name]
  · exact hwritten.trans (Section.written_named_of_not hplain _ _)
  · exact congrArg image.ident.elfClass.keep hflags
  · exact congrArg image.ident.elfClass.keep haddr
  · rw [Section.written_named_of_not hplain] at hcarries
    refine (hcarries ?_).size_eq
    rw [SectionHeader.isNobits, Section.named_type]
    exact hnobits

/-- Every section of the file, and the new name table, is read at its own index. -/
theorem sections_read (h : image.Present d) (hne : image.sections ≠ []) :
    List.Forall₂ SectionRead (ensureShstrtab image.sections).2 (imageOf d).sections :=
  (sections_placed h hne).imp fun _ _ hplaced => hplaced.toSectionRead

/-- A view of the sections of a file through what is read of them. -/
theorem filterMap_read {γ : Type} (h : image.Present d) {f g : Section → Option γ}
    (hread : ∀ sec sec', SectionRead sec sec' → g sec = f sec')
    (hnone : g Section.shstrtab = none) :
    (imageOf d).sections.filterMap f = image.sections.filterMap g := by
  by_cases hne : image.sections = []
  · have hsections : (imageOf d).sections = image.builtSections.map _ := (sections_present h).2
    rw [hsections, builtSections, namedSections, if_pos hne, hne]
    rfl
  · rw [← filterMap_ensureShstrtab image.sections hnone,
      filterMap_eq_of_forall₂ (sections_read h hne) hread]

theorem relocations_read (h : image.Present d) : (imageOf d).relocations =
    (image.sections.filterMap fun sec =>
      (relocationForm sec.header).map fun isRela => (sec.written, isRela)).mapM fun entry =>
        RelocationSection.parse entry.1 entry.2 image.ident.data image.ident.elfClass := by
  have hident : (imageOf d).ident = image.ident := (ident_present h).2.2.2
  rw [relocations, hident]
  congr 1
  refine filterMap_read h (fun sec sec' hread => ?_) rfl
  by_cases htype : sec.header.type = SectionType.strtab
  · simp [relocationForm, hread.type, htype, SectionType.strtab, SectionType.rela,
      SectionType.rel]
  · simp only [relocationForm, hread.type, hread.data_of_type_ne htype]

theorem noteSections_read (h : image.Present d) :
    ((imageOf d).sections.filter fun sec => sec.header.type == SectionType.note).map
        Section.data =
      (image.sections.filter fun sec => sec.header.type == SectionType.note).map
        Section.written := by
  rw [map_filter_eq_filterMap, map_filter_eq_filterMap]
  refine filterMap_read h (fun sec sec' hread => ?_) rfl
  by_cases htype : sec.header.type = SectionType.strtab
  · simp [hread.type, htype, SectionType.strtab, SectionType.note]
  · rw [hread.type, hread.data_of_type_ne htype]

theorem sectionByName_read (h : image.Present d) {name : String} (hname : name ≠ ".shstrtab") :
    ((imageOf d).sectionByName name).map Section.data =
      (image.sections.find? fun sec => StringTable.readName sec.name == name).map
        Section.written := by
  have htable : StringTable.readName ".shstrtab" = ".shstrtab" :=
    StringTable.readName_of_notMem (by decide +kernel)
  rw [sectionByName, ← List.head?_filter, ← List.head?_filter, ← List.head?_map,
    ← List.head?_map, map_filter_eq_filterMap, map_filter_eq_filterMap, filterMap_read h]
  · intro sec sec' hread
    rw [hread.name]
    split
    · rename_i hmatch
      rw [hread.data ?_]
      by_contra hshstrtab
      have hsec := Bool.not_eq_false _ ▸ hshstrtab
      rw [Section.isShstrtab, Bool.and_eq_true] at hsec
      rw [beq_iff_eq.1 hsec.1, htable] at hmatch
      exact hname (beq_iff_eq.1 hmatch).symm
    · rfl
  · rw [show Section.shstrtab.name = ".shstrtab" from rfl, htable, if_neg]
    rw [beq_iff_eq]
    exact hname.symm

end ElfImage

end Elfex
