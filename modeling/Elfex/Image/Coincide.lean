import Elfex.Image.Regular

/-!
# Where the two layouts coincide

When every payload stands at its file offset and at its address relative to the base
alike, a mapped read finds the bytes of the file read. Both parsers are compared through
the images they describe: header by header, with the string table as one more payload.
-/

namespace Elfex

open Foundation

/-- Every address relative to the preferred base is the file offset, a load has no zero
fill, and there is a section header table when one is counted. -/
structure ElfImage.LayoutsCoincide (image : ElfImage) : Prop where
  segments : ∀ segment ∈ image.segments, segment.header.type ≠ SegmentType.null →
    0 < segment.header.filesz → image.imageBase ≤ segment.header.vaddr ∧
      segment.header.offset = segment.header.vaddr - image.imageBase
  loads : ∀ segment ∈ image.segments, segment.header.type = SegmentType.load →
    segment.header.filesz = segment.header.memsz
  sections : ∀ sec ∈ image.sections, sec.header.flags.isAlloc = true →
    sec.header.isNobits = false → 0 < sec.header.size →
      image.imageBase ≤ sec.header.addr ∧
        sec.header.offset = sec.header.addr - image.imageBase
  table : image.header.shoff ≠ 0 ∨ image.header.shnum = 0

instance (image : ElfImage) : Decidable image.LayoutsCoincide :=
  decidable_of_iff
    ((∀ segment ∈ image.segments, segment.header.type ≠ SegmentType.null →
        0 < segment.header.filesz → image.imageBase ≤ segment.header.vaddr ∧
          segment.header.offset = segment.header.vaddr - image.imageBase) ∧
      (∀ segment ∈ image.segments, segment.header.type = SegmentType.load →
        segment.header.filesz = segment.header.memsz) ∧
      (∀ sec ∈ image.sections, sec.header.flags.isAlloc = true →
        sec.header.isNobits = false → 0 < sec.header.size →
          image.imageBase ≤ sec.header.addr ∧
            sec.header.offset = sec.header.addr - image.imageBase) ∧
      (image.header.shoff ≠ 0 ∨ image.header.shnum = 0))
    ⟨fun h => ⟨h.1, h.2.1, h.2.2.1, h.2.2.2⟩,
      fun h => ⟨h.segments, h.loads, h.sections, h.table⟩⟩

section Coincide

variable {data : List UInt8}

theorem saturatingSub_of_le {a b : UInt64} (h : b ≤ a) : saturatingSub a b = a - b := by
  rw [← UInt64.toNat_inj, toNat_saturatingSub, UInt64.toNat_sub_of_le _ _ h]

/-- Inside the bytes a mapped read is a slice. -/
theorem mappedBytes_of_le {start n : ℕ} (hdata : data.length < 2 ^ 64)
    (h : start + n ≤ data.length) : mappedBytes data start n = window data start n := by
  apply List.ext_getElem?
  intro i
  rw [getElem?_mappedBytes hdata, getElem?_window]
  by_cases hi : i < n
  · rw [if_pos hi, if_pos hi, List.getD_eq_getElem?_getD,
      List.getElem?_eq_getElem (by omega), Option.getD_some]
  · rw [if_neg hi, if_neg hi]

/-- A payload of the file is allocated by the mapped read and found at its offset. -/
theorem mapped_payload {offset size : UInt64} (start : UInt64) (hdata : data.length < 2 ^ 64)
    (h : 0 < size → PayloadInside data offset size)
    (hstart : 0 < size → start = offset) :
    Allocatable data size ∧
      mappedBytes data start.toNat size.toNat = window data offset.toNat size.toNat := by
  by_cases hsize : 0 < size
  · obtain ⟨hcap, hinside⟩ := h hsize
    rw [hstart hsize]
    exact ⟨⟨hcap, by omega⟩, mappedBytes_of_le hdata hinside⟩
  · have hzero : size.toNat = 0 := by
      rw [UInt64.lt_iff_toNat_lt] at hsize
      exact Nat.eq_zero_of_not_pos hsize
    rw [Allocatable, hzero, window_zero_right]
    exact ⟨⟨by omega, by omega⟩, List.eq_nil_of_length_eq_zero (length_mappedBytes _ _ _)⟩

theorem imageBase_of_image (data : List UInt8) :
    (imageOf data).imageBase = computeImageBase (programHeadersOf data) :=
  imageBase_imageOf data (computeImageBase (programHeadersOf data))

variable (hdata : data.length < 2 ^ 64) (hgrammar : FileGrammar data)
  (hcoincide : (imageOf data).LayoutsCoincide)

include hdata hgrammar hcoincide

/-- The mapped layout allocates and reads the segment of a file that coincides. -/
theorem mappedSegmentOf_coincide {header : ProgramHeader}
    (hmem : header ∈ programHeadersOf data) :
    (header.type ≠ SegmentType.null → Allocatable data header.mappedLength) ∧
      mappedSegmentOf data (computeImageBase (programHeadersOf data)) header =
        segmentOf data header := by
  have hsegment : segmentOf data header ∈ (imageOf data).segments :=
    List.mem_map_of_mem hmem
  by_cases hnull : header.type = SegmentType.null
  · exact ⟨fun h => absurd hnull h, by rw [mappedSegmentOf, segmentOf, if_pos hnull, if_pos hnull]⟩
  have hlength : header.mappedLength = header.filesz := by
    rw [ProgramHeader.mappedLength]
    split
    · next hload => exact (hcoincide.loads _ hsegment hload).symm
    · rfl
  have hplace := hcoincide.segments _ hsegment hnull
  rw [imageBase_of_image] at hplace
  change 0 < header.filesz → _ ≤ header.vaddr ∧ header.offset = header.vaddr - _ at hplace
  have hpayload := mapped_payload
    (saturatingSub header.vaddr (computeImageBase (programHeadersOf data))) hdata
    (fun hsize => hgrammar.segments header hmem hnull (UInt64.lt_iff_toNat_lt.1 hsize))
    (fun hsize => by
      obtain ⟨hbase, hoffset⟩ := hplace hsize
      rw [saturatingSub_of_le hbase]
      exact hoffset.symm)
  rw [mappedSegmentOf, segmentOf, if_neg hnull, if_neg hnull, hlength, hpayload.2]
  exact ⟨fun _ => hpayload.1, rfl⟩

omit hdata in
/-- Both layouts read the same section header table. -/
theorem mappedSectionHeadersOf_coincide :
    mappedSectionHeadersOf data = sectionHeadersOf data := by
  rw [mappedSectionHeadersOf, sectionHeadersOf]
  by_cases hnum : (headerOf data).shnum = 0
  · have hnone : List.range (headerOf data).shnum.toNat = [] := by rw [hnum]; rfl
    rw [if_pos (Or.inr hnum), hnone, List.map_nil, ite_self]
  · have hoff : (headerOf data).shoff ≠ 0 := hcoincide.table.resolve_right hnum
    have htable : SectionTableInside data := hgrammar.sectionHeaders hoff hnum
    rw [if_pos htable, if_neg (not_or.2 ⟨hoff, hnum⟩)]

/-- The bytes of a section that occupies file space are the same in both layouts. -/
theorem mapped_section_payload {header : SectionHeader} (hmem : header ∈ sectionHeadersOf data)
    (hbits : header.isNobits = false) :
    Allocatable data header.size ∧
      mappedBytes data (mappedSectionStart header
        (computeImageBase (programHeadersOf data))).toNat header.size.toNat =
        window data header.offset.toNat header.size.toNat := by
  have hsection : sectionOf data header ∈ (imageOf data).sections := List.mem_map_of_mem hmem
  have htype : header.type ≠ SectionType.nobits := by
    simpa [SectionHeader.isNobits] using hbits
  refine mapped_payload _ hdata (fun hsize =>
    hgrammar.sections header hmem htype (UInt64.lt_iff_toNat_lt.1 hsize)) fun hsize => ?_
  rw [mappedSectionStart]
  split
  · next halloc =>
    have hplace := hcoincide.sections _ hsection halloc hbits hsize
    rw [imageBase_of_image] at hplace
    change _ ≤ header.addr ∧ header.offset = header.addr - _ at hplace
    rw [saturatingSub_of_le hplace.1]
    exact hplace.2.symm
  · rfl

theorem mappedStrtabOf_coincide :
    mappedStrtabOf data (computeImageBase (programHeadersOf data)) = shstrtabOf data := by
  rw [mappedStrtabOf, shstrtabOf, mappedSectionHeadersOf_coincide hgrammar hcoincide]
  cases hindex : (sectionHeadersOf data)[(headerOf data).shstrndx.toNat]? with
  | none => rfl
  | some header =>
      dsimp only
      by_cases htype : header.type = SectionType.strtab
      · have hbits : header.isNobits = false := by
          rw [SectionHeader.isNobits, htype]
          decide
        obtain ⟨halloc, hbytes⟩ := mapped_section_payload hdata hgrammar hcoincide
          (List.mem_of_getElem? hindex) hbits
        rw [if_pos ⟨htype, halloc⟩, if_pos htype, hbytes]
      · rw [if_neg fun h => htype h.1, if_neg htype]

/-- The mapped layout keeps every section of the file and reads the same bytes. -/
theorem mappedSectionOf_coincide {header : SectionHeader}
    (hmem : header ∈ sectionHeadersOf data) :
    Allocatable data header.mappedLength ∧
      mappedSectionOf data (computeImageBase (programHeadersOf data)) header =
        sectionOf data header := by
  rw [mappedSectionOf, sectionOf, mappedStrtabOf_coincide hdata hgrammar hcoincide,
    SectionHeader.mappedLength]
  cases hbits : header.isNobits with
  | true =>
      have htype : header.type = SectionType.nobits := by
        simpa [SectionHeader.isNobits] using hbits
      have hnone : mappedBytes data (mappedSectionStart header
          (computeImageBase (programHeadersOf data))).toNat (0 : UInt64).toNat = [] :=
        List.eq_nil_of_length_eq_zero (length_mappedBytes _ _ _)
      rw [if_pos rfl, if_pos htype, hnone]
      exact ⟨⟨Nat.zero_le _, Nat.zero_le _⟩, rfl⟩
  | false =>
      have htype : header.type ≠ SectionType.nobits := by
        simpa [SectionHeader.isNobits] using hbits
      obtain ⟨halloc, hbytes⟩ := mapped_section_payload hdata hgrammar hcoincide hmem hbits
      rw [if_neg (by decide), if_neg htype, hbytes]
      exact ⟨halloc, rfl⟩

theorem mappedGrammar_of_coincide : MappedGrammar data :=
  ⟨⟨hgrammar.magic, hgrammar.classByte, hgrammar.dataByte, hgrammar.header,
    hgrammar.programHeaders⟩, fun _ hmem =>
      (mappedSegmentOf_coincide hdata hgrammar hcoincide hmem).1⟩

theorem mappedImageOf_coincide : mappedImageOf data = imageOf data := by
  have hsegments : (programHeadersOf data).map (mappedSegmentOf data
      (computeImageBase (programHeadersOf data))) =
      (programHeadersOf data).map (segmentOf data) :=
    List.map_congr_left fun _ hmem =>
      (mappedSegmentOf_coincide hdata hgrammar hcoincide hmem).2
  have hkept : (sectionHeadersOf data).filter (fun header =>
      Allocatable data header.mappedLength) = sectionHeadersOf data :=
    List.filter_eq_self.2 fun _ hmem =>
      decide_eq_true (mappedSectionOf_coincide hdata hgrammar hcoincide hmem).1
  have hsections : mappedSectionsOf data (computeImageBase (programHeadersOf data)) =
      (sectionHeadersOf data).map (sectionOf data) := by
    rw [mappedSectionsOf, mappedSectionHeadersOf_coincide hgrammar hcoincide, hkept]
    exact List.map_congr_left fun _ hmem =>
      (mappedSectionOf_coincide hdata hgrammar hcoincide hmem).2
  rw [mappedImageOf, hsegments, hsections]
  rfl

end Coincide

/-- A file whose layouts coincide is parsed to one image in both of them. -/
theorem parseMapped_of_coincide {data : List UInt8} (hdata : data.length ≤ isizeMax)
    {image : ElfImage} (hparse : ElfImage.parse data = .ok image)
    (hcoincide : image.LayoutsCoincide) : ElfImage.parseMapped data = .ok image := by
  have hlen : data.length < 2 ^ 64 := hdata.trans_lt (by decide)
  obtain ⟨hgrammar, rfl⟩ := (parse_eq_ok hdata).1 hparse
  exact (parseMapped_eq_ok hlen).2 ⟨mappedGrammar_of_coincide hlen hgrammar hcoincide,
    mappedImageOf_coincide hlen hgrammar hcoincide⟩

/-- The small executable, linked at an address with its file offset behind the base. -/
def coincidentFile : List UInt8 :=
  smallHeader.write ++ { smallLoad with vaddr := 0x1078 }.write .little .elf64 ++
    [0x90, 0xc3] ++ (0 :: strBytes ".text" ++ 0 :: strBytes ".shstrtab" ++ [0]) ++
    { smallText with addr := 0x1078 }.write .little .elf64 ++
    smallShstrtab.write .little .elf64

theorem coincidentFile_parses : (ElfImage.parse coincidentFile).isOk = true := by
  decide +kernel

theorem coincidentFile_mapped :
    ElfImage.parseMapped coincidentFile = .ok (imageOf coincidentFile) := by
  have hdata : coincidentFile.length ≤ isizeMax := by decide +kernel
  obtain ⟨image, himage⟩ := Outcome.exists_of_isOk coincidentFile_parses
  obtain ⟨hgrammar, -⟩ := (parse_eq_ok hdata).1 himage
  exact parseMapped_of_coincide hdata ((parse_eq_ok hdata).2 ⟨hgrammar, rfl⟩)
    (by decide +kernel)

end Elfex
