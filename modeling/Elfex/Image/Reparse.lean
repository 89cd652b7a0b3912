import Elfex.Image.Headers
import Elfex.Image.Names

/-!
# Parsing a built file

Bytes that hold the layout of an image are in the grammar, and the image they
describe is the one `rebuilt` computes from the image without going through the
bytes. What follows the layout does not matter.
-/

namespace Elfex

open Foundation

/-- The segment a built file describes for a segment written under `header`. -/
def Segment.rebuilt (elfClass : ElfClass) (segment : Segment) (header : ProgramHeader) :
    Segment where
  header := header.narrow elfClass
  data := if segment.header.type = SegmentType.null then [] else segment.written

/-- The section a built file describes for a section written as `sec`. -/
def Section.rebuilt (elfClass : ElfClass) (sec : Section) : Section where
  header := sec.header.narrow elfClass
  name := sec.name
  data := sec.written

namespace ElfImage

def rebuiltSegments (image : ElfImage) : List Segment :=
  recordsOf Segment.written Segment.position
    (fun segment => segment.rebuilt image.ident.elfClass segment.skippedHeader)
    (fun segment offset => segment.rebuilt image.ident.elfClass (segment.placedHeader offset))
    image.segments image.tableEnd

def rebuilt (image : ElfImage) : ElfImage where
  ident := image.ident
  header := image.builtHeader.narrow
  segments := image.rebuiltSegments
  sections := image.builtSections.map (Section.rebuilt image.ident.elfClass)
  runtimeBase := computeImageBase (image.rebuiltSegments.map Segment.header)

/-- The bytes `d` hold the layout of the image. -/
structure Present (image : ElfImage) (d : List UInt8) : Prop where
  ident : image.header.ident = image.ident
  segmentCount : image.segments.length < 2 ^ 16
  sectionCount : image.builtSections.length < 2 ^ 16
  held : ∀ e ∈ image.layout, e.Held d
  limit : ∀ e ∈ image.layout, e.stop ≤ maxImage
  shoff : image.builtSections ≠ [] → image.builtShoff ≠ 0

variable {image : ElfImage} {d : List UInt8}

theorem mem_sectionTable (hne : image.builtSections ≠ []) :
    ⟨image.builtShoff.toNat, image.builtSections.flatMap fun sec =>
      sec.header.write image.ident.data image.ident.elfClass⟩ ∈ image.sectionTable := by
  rw [sectionTable, if_neg hne]
  exact List.mem_singleton_self _

theorem sectionTable_mem (hne : image.builtSections ≠ []) :
    ⟨image.builtShoff.toNat, image.builtSections.flatMap fun sec =>
      sec.header.write image.ident.data image.ident.elfClass⟩ ∈ image.layout := by
  simp [layout, mem_sectionTable hne]

/-- The bytes `d` hold the layout of the image, whose file header may announce another
byte order than that of its tables. -/
structure LaidOut (image : ElfImage) (d : List UInt8) : Prop where
  elfClass : image.header.ident.elfClass = image.ident.elfClass
  segmentCount : image.segments.length < 2 ^ 16
  sectionCount : image.builtSections.length < 2 ^ 16
  held : ∀ e ∈ image.layout, e.Held d
  limit : ∀ e ∈ image.layout, e.stop ≤ maxImage
  shoff : image.builtSections ≠ [] → image.builtShoff ≠ 0

theorem Present.laidOut (h : image.Present d) : image.LaidOut d where
  elfClass := by rw [h.ident]
  segmentCount := h.segmentCount
  sectionCount := h.sectionCount
  held := h.held
  limit := h.limit
  shoff := h.shoff

theorem Built.laidOut {b : List UInt8} (h : image.Built b)
    (hclass : image.header.ident.elfClass = image.ident.elfClass) (t : List UInt8) :
    image.LaidOut (b ++ t) where
  elfClass := hclass
  segmentCount := h.segmentCount
  sectionCount := h.sectionCount
  held e he := (h.held e he).append t
  limit e he := (h.stacked.bounds he).2.trans h.limit
  shoff hne hzero := by
    -- the table starts after the file header
    have hle := (h.stacked.2.bounds (List.mem_cons_of_mem _
      (List.mem_append_right _ (mem_sectionTable hne)))).1
    have hpos : 0 < (ElfHeader.size image.ident.elfClass).toNat := by
      cases image.ident.elfClass <;> decide
    simp [Extent.stop, headerExtent, builtHeader, hclass, hzero] at hle
    omega

theorem Built.present {b : List UInt8} (h : image.Built b)
    (hident : image.header.ident = image.ident) (t : List UInt8) :
    image.Present (b ++ t) where
  ident := hident
  segmentCount := h.segmentCount
  sectionCount := h.sectionCount
  held := (h.laidOut (by rw [hident]) t).held
  limit := (h.laidOut (by rw [hident]) t).limit
  shoff := (h.laidOut (by rw [hident]) t).shoff

/-! ## The file header -/

namespace LaidOut

theorem builtHeader_elfClass (h : image.LaidOut d) :
    image.builtHeader.ident.elfClass = image.ident.elfClass := h.elfClass

theorem headerExtent_held (h : image.LaidOut d) :
    (ElfHeader.size image.ident.elfClass).toNat ≤ d.length ∧
      window d 0 (ElfHeader.size image.ident.elfClass).toNat = image.builtHeader.write := by
  have hheld := h.held image.headerExtent (by simp [layout])
  have hlen : image.builtHeader.write.length =
      (ElfHeader.size image.ident.elfClass).toNat := by
    rw [ElfHeader.length_write, h.builtHeader_elfClass]
  obtain ⟨hstop, hwindow⟩ := hheld
  simp only [headerExtent, Extent.stop, hlen, Nat.zero_add] at hstop hwindow
  exact ⟨hstop, hwindow⟩

theorem window_header (h : image.LaidOut d) :
    window d 0 (ElfHeader.size image.builtHeader.ident.elfClass).toNat =
      image.builtHeader.write := by
  rw [h.builtHeader_elfClass]
  exact h.headerExtent_held.2

/-- The bytes describe the identification of the file header. -/
theorem identOf_eq (h : image.LaidOut d) : identOf d = image.header.ident :=
  (identOf_written (window_ident_written h.window_header)).2.2.2

theorem headerOf_eq (h : image.LaidOut d) : headerOf d = image.builtHeader.narrow :=
  headerOf_written h.window_header

theorem headerOf_phoff (h : image.LaidOut d) :
    (headerOf d).phoff = ElfHeader.size image.ident.elfClass := by
  rw [h.headerOf_eq]
  apply ElfClass.keep_of_lt _
  cases hc : image.ident.elfClass <;> simp [builtHeader, hc, ElfHeader.size]

theorem headerOf_phnum (h : image.LaidOut d) :
    (headerOf d).phnum.toNat = image.segments.length := by
  rw [h.headerOf_eq]
  exact Nat.mod_eq_of_lt h.segmentCount

theorem headerOf_shnum (h : image.LaidOut d) :
    (headerOf d).shnum.toNat = image.builtSections.length := by
  rw [h.headerOf_eq]
  exact Nat.mod_eq_of_lt h.sectionCount

theorem headerOf_shentsize (h : image.LaidOut d) :
    (headerOf d).shentsize.toNat = (SectionHeader.entrySize image.ident.elfClass).toNat := by
  rw [h.headerOf_eq]
  cases hc : image.ident.elfClass <;>
    simp [ElfHeader.narrow, builtHeader, hc, SectionHeader.entrySize]

theorem headerOf_shoff (h : image.LaidOut d) :
    (headerOf d).shoff = image.builtShoff := by
  rw [h.headerOf_eq]
  apply ElfClass.keep_of_lt _
  have hmax : maxImage < 2 ^ 32 := by decide
  by_cases hne : image.builtSections = []
  · simp [builtHeader, builtShoff, hne]
  · have hstop := h.limit _ (sectionTable_mem hne)
    exact lt_of_le_of_lt ((Extent.start_le_stop _).trans hstop) hmax

end LaidOut

theorem ident_present (h : image.Present d) :
    d.take 4 = elfMagic ∧ (d.getD 4 0 = 1 ∨ d.getD 4 0 = 2) ∧
      (d.getD 5 0 = 1 ∨ d.getD 5 0 = 2) ∧ identOf d = image.ident := by
  obtain ⟨hmagic, hclass, hdata, hident⟩ :=
    identOf_written (window_ident_written h.laidOut.window_header)
  exact ⟨hmagic, hclass, hdata, hident.trans h.ident⟩

/-! ## The header tables -/

theorem length_builtProgramHeaders (image : ElfImage) :
    image.builtProgramHeaders.length = image.segments.length := length_recordsOf ..

/-- The program headers of the bytes are the built ones, written in the byte order of the
image and read in that of its file header. -/
theorem LaidOut.programHeadersOf_eq (h : image.LaidOut d) :
    (∀ i < (headerOf d).phnum.toNat,
      programHeaderStart d i + (ProgramHeader.size (identOf d).elfClass).toNat ≤ d.length) ∧
      programHeadersOf d = image.builtProgramHeaders.map fun phdr =>
        ProgramHeader.decode image.header.ident.data image.ident.elfClass
          (phdr.write image.ident.data image.ident.elfClass) := by
  have hcount : (headerOf d).phnum.toNat = image.builtProgramHeaders.length := by
    rw [h.headerOf_phnum, length_builtProgramHeaders]
  have hclass : (identOf d).elfClass = image.ident.elfClass := by rw [h.identOf_eq, h.elfClass]
  rw [← h.identOf_eq, ← hclass]
  apply programHeadersOf_encoded hcount
  rw [h.headerOf_phoff, hclass]
  exact h.held image.programTable (by simp [layout])

/-- The section headers of the bytes are the built ones, written in the byte order of the
image and read in that of its file header. -/
theorem LaidOut.sectionHeadersOf_eq (h : image.LaidOut d) :
    ((headerOf d).shoff ≠ 0 → (headerOf d).shnum ≠ 0 → ∀ i < (headerOf d).shnum.toNat,
      sectionHeaderStart d i + (SectionHeader.entrySize (identOf d).elfClass).toNat ≤
        d.length) ∧
      sectionHeadersOf d = image.builtSections.map fun sec =>
        SectionHeader.decode image.header.ident.data image.ident.elfClass
          (sec.header.write image.ident.data image.ident.elfClass) := by
  have hclass : (identOf d).elfClass = image.ident.elfClass := by rw [h.identOf_eq, h.elfClass]
  have hcount := h.headerOf_shnum
  by_cases hne : image.builtSections = []
  · have hzero : (headerOf d).shnum = 0 := by
      rw [← UInt16.toNat_inj, hcount, hne]
      rfl
    exact ⟨fun _ hnum => absurd hzero hnum, by rw [sectionHeadersOf, if_pos (Or.inr hzero), hne,
      List.map_nil]⟩
  · have hrecord := fun (i : ℕ) (hi : i < image.builtSections.length) =>
      Extent.Held.record (h.held _ (sectionTable_mem hne))
        (fun _ _ => SectionHeader.length_write _ _ _) hi
    have hstart : ∀ i, sectionHeaderStart d i = image.builtShoff.toNat +
        i * (SectionHeader.entrySize image.ident.elfClass).toNat := by
      intro i
      rw [sectionHeaderStart, h.headerOf_shoff, h.headerOf_shentsize, hclass, Nat.max_self]
    have htable : ¬((headerOf d).shoff = 0 ∨ (headerOf d).shnum = 0) := by
      rw [h.headerOf_shoff, not_or]
      refine ⟨h.shoff hne, fun hzero => ?_⟩
      rw [hzero] at hcount
      exact hne (List.length_eq_zero_iff.1 hcount.symm)
    simp only [hstart, hclass, hcount]
    refine ⟨fun _ _ i hi => (hrecord i hi).1, ?_⟩
    rw [sectionHeadersOf, if_neg htable]
    apply List.ext_getElem
    · simp [hcount]
    · intro i hi _
      have hi' : i < image.builtSections.length := by simpa [hcount] using hi
      simp only [List.getElem_map, List.getElem_range, sectionHeaderAt, hstart, hclass]
      rw [(hrecord i hi').2, h.identOf_eq]

theorem programHeadersOf_present (h : image.Present d) :
    programHeadersOf d =
      image.builtProgramHeaders.map fun phdr => phdr.narrow image.ident.elfClass := by
  simp only [h.laidOut.programHeadersOf_eq.2, h.ident, ProgramHeader.decode_write]

theorem sectionHeadersOf_present (h : image.Present d) :
    sectionHeadersOf d =
      image.builtSections.map fun sec => sec.header.narrow image.ident.elfClass := by
  simp only [h.laidOut.sectionHeadersOf_eq.2, h.ident, SectionHeader.decode_write]

/-! ## The payloads -/

/-- The range at `offset` of the bytes `d` is in the grammar and holds `bytes`. -/
structure Carries (d : List UInt8) (offset size : UInt64) (bytes : List UInt8) : Prop where
  size_eq : size.toNat = bytes.length
  inside : 0 < size.toNat → PayloadInside d offset size
  window_eq : window d offset.toNat size.toNat = bytes

theorem carries_nil (d : List UInt8) (offset : UInt64) (elfClass : ElfClass) :
    Carries d offset (elfClass.keep 0) [] := by
  have hzero : elfClass.keep 0 = 0 := ElfClass.keep_of_lt elfClass (by decide)
  rw [hzero]
  exact ⟨rfl, fun h => absurd h (by simp), window_zero_right d _⟩

/-- An extent of the layout is carried by the offset and size its header records. -/
theorem carries_of_mem_layout (h : image.Present d) {offset : UInt64} {bytes : List UInt8}
    (hmem : ⟨offset.toNat, bytes⟩ ∈ image.layout) :
    Carries d (image.ident.elfClass.keep offset)
      (image.ident.elfClass.keep (UInt64.ofNat bytes.length)) bytes := by
  have hmax : maxImage < 2 ^ 32 := by decide
  have hstop : offset.toNat + bytes.length ≤ maxImage := h.limit _ hmem
  have hlen : (UInt64.ofNat bytes.length).toNat = bytes.length :=
    toNat_ofNat_of_lt (by omega)
  obtain ⟨hfit, hwindow⟩ := h.held _ hmem
  rw [ElfClass.keep_of_lt _ (by omega), ElfClass.keep_of_lt _ (by omega)]
  refine ⟨hlen, fun _ => ⟨?_, ?_⟩, ?_⟩
  · rw [hlen]
    exact (Nat.le_add_left _ _).trans hstop
  · rw [hlen]
    exact hfit
  · rw [hlen]
    exact hwindow

theorem segmentExtents_subset {e : Extent UInt8} (he : e ∈ image.segmentExtents) :
    e ∈ image.layout := by
  simp [layout, he]

theorem sectionExtents_subset {e : Extent UInt8} (he : e ∈ image.sectionExtents) :
    e ∈ image.layout := by
  simp [layout, he]

/-- A segment's written header carries the bytes written for it. -/
theorem segment_carries (h : image.Present d) {segment : Segment} {place : Option UInt64}
    (hmem : (segment, place) ∈ image.segments.zip
      (placements Segment.written Segment.position image.segments image.tableEnd)) :
    let header := (recordAt Segment.skippedHeader Segment.placedHeader segment place).narrow
      image.ident.elfClass
    header.type = segment.header.type ∧
      Carries d header.offset header.filesz segment.written := by
  cases place with
  | none =>
      have hnone : segment.written = [] := (eq_none_iff_of_mem_zip hmem).1 rfl
      rw [hnone]
      exact ⟨rfl, carries_nil d _ _⟩
  | some offset =>
      have hextent := mem_extentsOf_of_mem_zip hmem
      exact ⟨rfl, carries_of_mem_layout h (segmentExtents_subset hextent)⟩

/-- A section's written header carries the bytes written for it. -/
theorem section_carries (h : image.Present d) {sec : Section} {place : Option UInt64}
    (hmem : (sec, place) ∈ (namedSections image.sections).zip
      (placements Section.written Section.position (namedSections image.sections)
        image.segmentsEnd)) :
    let built := recordAt Section.skipped Section.placed sec place
    built.header.type = sec.header.type ∧ built.name = sec.name ∧
      built.header.nameIndex = sec.header.nameIndex ∧ built.written = sec.written ∧
      (sec.header.isNobits = false →
        Carries d (built.header.narrow image.ident.elfClass).offset
          (built.header.narrow image.ident.elfClass).size sec.written) := by
  cases place with
  | none =>
      have hnone : sec.written = [] := (eq_none_iff_of_mem_zip hmem).1 rfl
      simp only [recordAt, Section.skipped]
      by_cases hnobits : sec.header.isNobits = true
      · rw [if_pos hnobits]
        exact ⟨rfl, rfl, rfl, rfl, fun hfalse => absurd hnobits (by simp [hfalse])⟩
      · rw [if_neg hnobits, hnone]
        refine ⟨rfl, rfl, rfl, ?_, fun _ => carries_nil d _ _⟩
        rw [← hnone]
        rfl
  | some offset =>
      have hextent := mem_extentsOf_of_mem_zip hmem
      refine ⟨rfl, rfl, rfl, rfl, fun hnobits => ?_⟩
      have hdata : sec.written = sec.data := by
        rw [Section.written, hnobits]
        rfl
      rw [hdata] at hextent ⊢
      exact carries_of_mem_layout h (sectionExtents_subset hextent)

/-! ## The names -/

/-- The table index of a built file is that of a section-name string table. -/
theorem shstrndx_present (h : image.Present d) (hne : image.sections ≠ []) :
    ∃ sec, (ensureShstrtab image.sections).2[(headerOf d).shstrndx.toNat]? = some sec ∧
      sec.isShstrtab = true := by
  obtain ⟨k, sec, hindex, hsec, hshstrtab, -⟩ := ensureShstrtab_spec image.sections
  have hlt : k < image.builtSections.length := by
    rw [builtSections, length_recordsOf, namedSections, if_neg hne, length_assignNameOffsets]
    exact (List.getElem?_eq_some_iff.1 hsec).1
  have hk : k < 2 ^ 16 := hlt.trans h.sectionCount
  have hshstrndx : (headerOf d).shstrndx.toNat = k := by
    rw [h.laidOut.headerOf_eq, ElfHeader.narrow, builtHeader, if_neg hne, hindex, u16OrZero,
      if_pos hk, UInt16.toNat_ofNat', Nat.mod_eq_of_lt hk]
  rw [hshstrndx]
  exact ⟨sec, hsec, hshstrtab⟩

/-- The name table of a built file is the rebuilt one, and it is small. -/
theorem shstrtabOf_present (h : image.Present d) (hne : image.sections ≠ []) :
    shstrtabOf d = nameTable (ensureShstrtab image.sections).2 ∧
      (nameTable (ensureShstrtab image.sections).2).length ≤ maxImage := by
  obtain ⟨sec, hsec, hshstrtab⟩ := shstrndx_present h hne
  obtain ⟨o, -, -, hnamed, -⟩ := assignNameOffsets_getElem? hsec
  have hnamed : (namedSections image.sections)[(headerOf d).shstrndx.toNat]? = some
      (sec.named (low32 (UInt64.ofNat o)) (nameTable (ensureShstrtab image.sections).2)) := by
    rw [namedSections, if_neg hne, hnamed]
  obtain ⟨place, hmem, hbuilt⟩ := builtSections_getElem? hnamed
  obtain ⟨htype, -, -, -, hcarries⟩ := section_carries h hmem
  rw [Section.named_type, Section.type_of_isShstrtab hshstrtab] at htype
  have hcarries := hcarries (by
    rw [SectionHeader.isNobits, Section.named_type, Section.type_of_isShstrtab hshstrtab]
    rfl)
  rw [Section.written_named hshstrtab] at hcarries
  have hheader := congrArg (fun l => l[(headerOf d).shstrndx.toNat]?)
    (sectionHeadersOf_present h)
  simp only [List.getElem?_map, hbuilt, Option.map_some] at hheader
  constructor
  · rw [shstrtabOf, hheader]
    simp only [SectionHeader.narrow, htype, if_true]
    exact hcarries.window_eq
  · have hinside := hcarries.inside (by rw [hcarries.size_eq, nameTable]; simp)
    rw [← hcarries.size_eq]
    exact hinside.1

/-- The name of a built section resolves in the rebuilt name table, up to its first NUL. -/
theorem readName_present (h : image.Present d) {sec : Section}
    (hsec : sec ∈ namedSections image.sections) :
    StringTable.name (shstrtabOf d) sec.header.nameIndex.toNat =
      StringTable.readName sec.name := by
  obtain ⟨htable, hlen⟩ := shstrtabOf_present h (ne_nil_of_mem_namedSections hsec)
  obtain ⟨given, o, rest, -, rfl, hdrop⟩ := mem_namedSections hsec
  have hmax : maxImage < 2 ^ 32 := by decide
  rw [htable, Section.named_nameIndex, Section.named_name]
  exact readName_of_drop hdrop (by omega)

/-- A built section has the name of a given one, or that of the new table. -/
theorem zero_notMem_builtName (hnames : ∀ sec ∈ image.sections, 0 ∉ strBytes sec.name)
    {sec : Section} (hsec : sec ∈ image.builtSections) : 0 ∉ strBytes sec.name := by
  rcases mem_recordsOf.1 hsec with ⟨named, place, hmem, rfl⟩
  obtain ⟨given, o, rest, hgiven, rfl, -⟩ := mem_namedSections (List.of_mem_zip hmem).1
  have hname : (recordAt Section.skipped Section.placed (given.named (low32 (UInt64.ofNat o))
      (nameTable (ensureShstrtab image.sections).2)) place).name = given.name := by
    rw [← Section.named_name given (low32 (UInt64.ofNat o))
      (nameTable (ensureShstrtab image.sections).2)]
    cases place with
    | none =>
        rw [recordAt, Section.skipped]
        split <;> rfl
    | some _ => rfl
  rw [hname]
  rcases hgiven with hgiven | rfl
  · exact hnames given hgiven
  · decide +kernel

/-! ## The described image -/

theorem recordAt_rebuilt (elfClass : ElfClass) (segment : Segment) (place : Option UInt64) :
    recordAt (fun segment => segment.rebuilt elfClass segment.skippedHeader)
        (fun segment offset => segment.rebuilt elfClass (segment.placedHeader offset))
        segment place =
      segment.rebuilt elfClass
        (recordAt Segment.skippedHeader Segment.placedHeader segment place) := by
  cases place <;> rfl

theorem rebuiltSegments_getElem? {i : ℕ} {segment : Segment}
    (h : image.segments[i]? = some segment) :
    ∃ place, (segment, place) ∈ image.segments.zip
        (placements Segment.written Segment.position image.segments image.tableEnd) ∧
      image.rebuiltSegments[i]? = some (segment.rebuilt image.ident.elfClass
        (recordAt Segment.skippedHeader Segment.placedHeader segment place)) := by
  obtain ⟨place, hmem, -, hrecord⟩ := recordsOf_getElem? h
  exact ⟨place, hmem, hrecord.trans (congrArg some (recordAt_rebuilt _ _ _))⟩

/-- Every program header of a built file is in the grammar and describes the rebuilt
segment. -/
theorem segments_present (h : image.Present d) :
    (∀ header ∈ programHeadersOf d, SegmentInside d header) ∧
      (programHeadersOf d).map (segmentOf d) = image.rebuiltSegments := by
  rw [programHeadersOf_present h, builtProgramHeaders, rebuiltSegments, recordsOf,
    recordsOf, List.map_map, List.map_map]
  constructor
  · simp only [List.mem_map]
    rintro header ⟨⟨segment, place⟩, hmem, rfl⟩ - hsize
    exact (segment_carries h hmem).2.inside hsize
  · refine List.map_congr_left fun entry hentry => ?_
    obtain ⟨segment, place⟩ := entry
    obtain ⟨htype, hcarries⟩ := segment_carries h hentry
    rw [recordAt_rebuilt]
    simp only [Function.comp, segmentOf, Segment.rebuilt, hcarries.window_eq, htype]

/-- A section header of a built file is in the grammar and describes the rebuilt section,
with the name a reader finds. -/
theorem section_present (h : image.Present d) {sec : Section}
    (hsec : sec ∈ image.builtSections) :
    SectionInside d (sec.header.narrow image.ident.elfClass) ∧
      sectionOf d (sec.header.narrow image.ident.elfClass) =
        { sec.rebuilt image.ident.elfClass with name := StringTable.readName sec.name } := by
  rcases mem_recordsOf.1 hsec with ⟨named, place, hmem, rfl⟩
  obtain ⟨htype, hname, hindex, hwritten, hcarries⟩ := section_carries h hmem
  have hlookup := readName_present h (List.of_mem_zip hmem).1
  by_cases hnobits : named.header.type = SectionType.nobits
  · have hempty : named.written = [] := by simp [Section.written, SectionHeader.isNobits, hnobits]
    refine ⟨fun hne => absurd (htype.trans hnobits) hne, ?_⟩
    simp only [sectionOf, Section.rebuilt, SectionHeader.narrow, htype, hnobits, if_true,
      hwritten, hempty, hname, hindex, hlookup]
  · have hcarries := hcarries (by simpa [SectionHeader.isNobits] using hnobits)
    refine ⟨fun _ hsize => hcarries.inside hsize, ?_⟩
    have hwindow := hcarries.window_eq
    simp only [SectionHeader.narrow] at hwindow
    simp only [sectionOf, Section.rebuilt, SectionHeader.narrow, htype, if_neg hnobits,
      hwritten, hname, hindex, hlookup, hwindow]

/-- Every section header of a built file is in the grammar and describes the rebuilt
section. -/
theorem sections_present (h : image.Present d) :
    (∀ header ∈ sectionHeadersOf d, SectionInside d header) ∧
      (sectionHeadersOf d).map (sectionOf d) = image.builtSections.map fun sec =>
        { sec.rebuilt image.ident.elfClass with name := StringTable.readName sec.name } := by
  rw [sectionHeadersOf_present h, List.map_map]
  constructor
  · intro header hheader
    rcases List.mem_map.1 hheader with ⟨sec, hsec, rfl⟩
    exact (section_present h hsec).1
  · exact List.map_congr_left fun sec hsec => (section_present h hsec).2

/-- Bytes that hold the layout of an image are in the grammar. -/
theorem grammar_present (h : image.Present d) : FileGrammar d := by
  obtain ⟨hmagic, hclass, hdata, hident⟩ := ident_present h
  refine ⟨hmagic, hclass, hdata, ?_, h.laidOut.programHeadersOf_eq.1, (segments_present h).1,
    h.laidOut.sectionHeadersOf_eq.1, (sections_present h).1⟩
  rw [hident]
  exact h.laidOut.headerExtent_held.1

/-- Bytes that hold the layout of an image with proper names are in the grammar and
describe the rebuilt image. -/
theorem imageOf_present (h : image.Present d)
    (hnames : ∀ sec ∈ image.sections, 0 ∉ strBytes sec.name) :
    FileGrammar d ∧ imageOf d = image.rebuilt := by
  obtain ⟨-, -, -, hident⟩ := ident_present h
  have hsegmentsOf := (segments_present h).2
  have hsectionsOf : (sectionHeadersOf d).map (sectionOf d) =
      image.builtSections.map (Section.rebuilt image.ident.elfClass) := by
    rw [(sections_present h).2]
    refine List.map_congr_left fun sec hsec => ?_
    rw [StringTable.readName_of_notMem (zero_notMem_builtName hnames hsec)]
    rfl
  have hheaders : image.rebuiltSegments.map Segment.header = programHeadersOf d := by
    rw [← hsegmentsOf, List.map_map]
    exact List.map_id _
  refine ⟨grammar_present h, ?_⟩
  rw [imageOf, rebuilt, hident, h.laidOut.headerOf_eq, hsegmentsOf, hsectionsOf, hheaders]

/-- Parsing a built file, with any bytes after it, gives the rebuilt image. -/
theorem parse_build {b : List UInt8} (hident : image.header.ident = image.ident)
    (hnames : ∀ sec ∈ image.sections, 0 ∉ strBytes sec.name) (h : image.tryBuild = .ok b)
    {t : List UInt8} (hlen : (b ++ t).length ≤ isizeMax) :
    parse (b ++ t) = .ok image.rebuilt := by
  have hpresent := (tryBuild_eq_ok h).present hident t
  obtain ⟨hgrammar, himage⟩ := imageOf_present hpresent hnames
  rw [(parse_decides hlen).ok hgrammar, himage]

end ElfImage

theorem smallFile_builds : (imageOf smallFile).tryBuild.isOk = true := by decide +kernel

end Elfex
