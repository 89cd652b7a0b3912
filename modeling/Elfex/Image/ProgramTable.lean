import Elfex.Image.Regular
import Elfex.Image.Reparse

/-!
# The segment that describes the program header table

A `PT_PHDR` segment has no bytes of its own: its file range is the program header table.
The serializer gives it a payload like any other, behind the table, so the segment of a
built file never describes the table of that file.
-/

namespace Elfex

open Foundation

/-- The file range of the header is the program header table of the file. -/
def DescribesProgramTable (data : List UInt8) (header : ProgramHeader) : Prop :=
  header.offset = (headerOf data).phoff ∧
    header.filesz.toNat = (headerOf data).phnum.toNat * (headerOf data).phentsize.toNat

instance (data : List UInt8) (header : ProgramHeader) :
    Decidable (DescribesProgramTable data header) :=
  inferInstanceAs (Decidable (_ ∧ _))

/-- Every `PT_PHDR` segment of the file describes its program header table. -/
def PhdrConsistent (data : List UInt8) : Prop :=
  ∀ header ∈ programHeadersOf data, header.type = SegmentType.phdr →
    DescribesProgramTable data header

instance (data : List UInt8) : Decidable (PhdrConsistent data) :=
  inferInstanceAs (Decidable (∀ _ ∈ _, _))

namespace ElfImage

variable {image : ElfImage} {b : List UInt8}

/-- The offset of a written segment lies behind the program header table, and that of an
empty one has no size. -/
theorem builtProgramHeaders_outside (h : image.tryBuild = .ok b) {header : ProgramHeader}
    (hmem : header ∈ image.builtProgramHeaders) :
    header.filesz = 0 ∨
      image.tableEnd.toNat ≤ header.offset.toNat ∧ header.offset.toNat ≤ maxImage := by
  have hpainted := tryBuild_paints h
  rcases mem_recordsOf.1 hmem with ⟨segment, place, hplace, rfl⟩
  cases place with
  | none => exact Or.inl rfl
  | some offset =>
      have hextent := mem_extentsOf_of_mem_zip hplace
      have hbounds := hpainted.segments.bounds hextent
      have hlimit := hpainted.limit ⟨offset.toNat, segment.written⟩ (by
        simp only [paintOrder, List.mem_append]
        exact Or.inl (Or.inl (Or.inl hextent)))
      exact Or.inr ⟨hbounds.1, (Extent.start_le_stop _).trans hlimit⟩

/-- No program header of a built file describes the program header table. -/
theorem not_describesProgramTable (hident : image.header.ident = image.ident)
    (h : image.tryBuild = .ok b) {header : ProgramHeader}
    (hmem : header ∈ programHeadersOf b) : ¬DescribesProgramTable b header := by
  have hpresent := (tryBuild_eq_ok h).present hident []
  rw [List.append_nil] at hpresent
  have hphnum := hpresent.laidOut.headerOf_phnum
  have hcount := hpresent.segmentCount
  have hmax : maxImage < 2 ^ 32 := by decide
  rintro ⟨hoffset, hfilesz⟩
  rw [programHeadersOf_present hpresent] at hmem
  rcases List.mem_map.1 hmem with ⟨built, hbuilt, rfl⟩
  have hpos : 0 < image.segments.length := by
    rw [← length_builtProgramHeaders]
    exact List.length_pos_of_mem hbuilt
  have hphentsize : 0 < (headerOf b).phentsize.toNat := by
    rw [hpresent.laidOut.headerOf_eq]
    cases hc : image.ident.elfClass <;> simp [ElfHeader.narrow, builtHeader, hc, ProgramHeader.size]
  have hend := toNat_tableEnd hcount
  have hsize : 0 < (ProgramHeader.size image.ident.elfClass).toNat * image.segments.length :=
    Nat.mul_pos (by cases image.ident.elfClass <;> decide) hpos
  rcases builtProgramHeaders_outside h hbuilt with hempty | ⟨hbehind, hlimit⟩
  · have hzero : (built.narrow image.ident.elfClass).filesz = 0 := by
      rw [ProgramHeader.narrow, hempty]
      exact ElfClass.keep_of_lt _ (by decide)
    rw [hzero, hphnum] at hfilesz
    exact absurd hfilesz (Nat.mul_pos hpos hphentsize).ne
  · have hkept : (built.narrow image.ident.elfClass).offset = built.offset :=
      ElfClass.keep_of_lt _ (by omega)
    rw [hkept, hpresent.laidOut.headerOf_phoff] at hoffset
    rw [hoffset] at hbehind
    omega

end ElfImage

/-- A build keeps the types of the program headers. -/
theorem exists_built_type {image : ElfImage} {b : List UInt8}
    (hident : image.header.ident = image.ident) (h : image.tryBuild = .ok b)
    (type : SegmentType) :
    (∃ header ∈ programHeadersOf b, header.type = type) ↔
      ∃ segment ∈ image.segments, segment.header.type = type := by
  have hpresent := (ElfImage.tryBuild_eq_ok h).present hident []
  rw [List.append_nil] at hpresent
  have hrecord : ∀ (segment : Segment) (place : Option UInt64),
      (recordAt Segment.skippedHeader Segment.placedHeader segment place).type =
        segment.header.type := by
    intro segment place
    cases place <;> rfl
  rw [ElfImage.programHeadersOf_present hpresent]
  constructor
  · rintro ⟨header, hmem, rfl⟩
    rcases List.mem_map.1 hmem with ⟨built, hbuilt, rfl⟩
    rcases mem_recordsOf.1 hbuilt with ⟨segment, place, hplace, rfl⟩
    exact ⟨segment, (List.of_mem_zip hplace).1, (hrecord segment place).symm⟩
  · rintro ⟨segment, hmem, rfl⟩
    obtain ⟨i, hi⟩ := List.mem_iff_getElem?.1 hmem
    obtain ⟨place, -, -, hbuilt⟩ := ElfImage.builtProgramHeaders_getElem? hi
    exact ⟨_, List.mem_map_of_mem (List.mem_of_getElem? hbuilt), hrecord segment place⟩

/-- A rebuilt file keeps its `PT_PHDR` segments consistent exactly when it has none. -/
theorem rebuilt_phdrConsistent_iff {data b : List UInt8} (hdata : data.length ≤ isizeMax)
    {image : ElfImage} (hparse : ElfImage.parse data = .ok image)
    (hbuild : image.tryBuild = .ok b) :
    PhdrConsistent b ↔ ∀ header ∈ programHeadersOf data, header.type ≠ SegmentType.phdr := by
  have hident := (regular_of_parse hdata hparse).1.ident
  have htypes := exists_built_type hident hbuild SegmentType.phdr
  obtain ⟨-, rfl⟩ := (parse_eq_ok hdata).1 hparse
  constructor
  · intro hconsistent header hmem hphdr
    obtain ⟨built, hbuilt, htype⟩ :=
      htypes.2 ⟨segmentOf data header, List.mem_map_of_mem hmem, hphdr⟩
    exact ElfImage.not_describesProgramTable hident hbuild hbuilt
      (hconsistent built hbuilt htype)
  · intro hnone built hbuilt htype
    obtain ⟨segment, hmem, hphdr⟩ := htypes.1 ⟨built, hbuilt, htype⟩
    rcases List.mem_map.1 hmem with ⟨header, hheader, rfl⟩
    exact absurd hphdr (hnone header hheader)

/-- The small executable without sections. -/
def segmentFile : List UInt8 :=
  { smallHeader with shoff := 0, shnum := 0, shstrndx := 0 }.write ++
    smallLoad.write .little .elf64 ++ [0x90, 0xc3]

theorem segmentFile_builds :
    (ElfImage.parse segmentFile >>= ElfImage.tryBuild).isOk = true := by decide +kernel

theorem segmentFile_phdrConsistent : ∃ image b, ElfImage.parse segmentFile = .ok image ∧
    image.tryBuild = .ok b ∧ PhdrConsistent b := by
  obtain ⟨b, hb⟩ := Outcome.exists_of_isOk segmentFile_builds
  obtain ⟨image, hparse, hbuild⟩ := Outcome.bind_eq_ok.1 hb
  exact ⟨image, b, hparse, hbuild,
    (rebuilt_phdrConsistent_iff (by decide +kernel) hparse hbuild).2 (by decide +kernel)⟩

/-- A rebuild of a file with consistent `PT_PHDR` segments is as consistent. -/
def KeepsPhdr (data : List UInt8) : Prop :=
  PhdrConsistent data → ∀ image b, ElfImage.parse data = .ok image →
    image.tryBuild = .ok b → PhdrConsistent b

/-- The small executable with a `PT_PHDR` segment. -/
def phdrFile : List UInt8 :=
  { smallHeader with phnum := 2, shoff := 0, shnum := 0, shstrndx := 0 }.write ++
    { smallLoad with
      type := SegmentType.phdr, offset := 64, vaddr := 0x2040, filesz := 112
      memsz := 112 }.write .little .elf64 ++
    { smallLoad with offset := 176 }.write .little .elf64 ++ [0x90, 0xc3]

theorem phdrFile_builds :
    (ElfImage.parse phdrFile >>= ElfImage.tryBuild).isOk = true := by decide +kernel

/-- The header table moves away from under the segment that describes it. -/
theorem not_keepsPhdr : ¬KeepsPhdr phdrFile := by
  intro hkeeps
  have hdata : phdrFile.length ≤ isizeMax := by decide +kernel
  obtain ⟨b, hb⟩ := Outcome.exists_of_isOk phdrFile_builds
  obtain ⟨image, hparse, hbuild⟩ := Outcome.bind_eq_ok.1 hb
  have hconsistent := hkeeps (by decide +kernel) image b hparse hbuild
  have hident := (regular_of_parse hdata hparse).1.ident
  have htypes := exists_built_type hident hbuild SegmentType.phdr
  obtain ⟨-, rfl⟩ := (parse_eq_ok hdata).1 hparse
  have hfirst : programHeaderAt phdrFile 0 ∈ programHeadersOf phdrFile ∧
      (programHeaderAt phdrFile 0).type = SegmentType.phdr := by decide +kernel
  obtain ⟨built, hbuilt, htype⟩ :=
    htypes.2 ⟨segmentOf phdrFile _, List.mem_map_of_mem hfirst.1, hfirst.2⟩
  exact ElfImage.not_describesProgramTable hident hbuild hbuilt (hconsistent built hbuilt htype)

end Elfex
