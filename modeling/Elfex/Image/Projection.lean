import Elfex.Image.Rebuild

/-!
# Rebuilding is a projection

Serializing the rebuilt image runs through the same steps as serializing the
image itself: every payload, every aligned position and every final header is
the same, and so are the names and the index of the name table. One rebuild
therefore reaches a fixed point.
-/

namespace Elfex

open Foundation

namespace ElfImage

variable {image : ElfImage} {d : List UInt8}

/-- The placement loop treats a rebuilt segment like the segment it came from. -/
theorem segments_projection (h : image.Present d) (hregular : image.Regular)
    (out : List UInt8) (cursor : UInt64) :
    placeEach Segment.written Segment.position Segment.skippedHeader Segment.placedHeader
        image.rebuiltSegments out cursor =
      placeEach Segment.written Segment.position Segment.skippedHeader Segment.placedHeader
        image.segments out cursor := by
  have hkept := segments_kept hregular
  rw [List.forall₂_iff_zip] at hkept
  refine placeEach_congr (List.forall₂_iff_zip.2 ⟨hkept.1, fun {segment segment'} hmem => ?_⟩)
    out cursor
  have hsegment := hkept.2 hmem
  rcases List.mem_iff_getElem?.1 hmem with ⟨i, hi⟩
  rcases List.getElem?_zip_eq_some.1 hi with ⟨hgiven, hrebuilt⟩
  dsimp only at hgiven hrebuilt
  obtain ⟨place, hplace, hrecord⟩ := rebuiltSegments_getElem? hgiven
  obtain rfl : _ = segment' := Option.some.inj (hrecord.symm.trans hrebuilt)
  set segment' := segment.rebuilt image.ident.elfClass
    (recordAt Segment.skippedHeader Segment.placedHeader segment place) with hsegment'
  have hdata : segment'.data = segment.written := hsegment.data
  have hsize : segment'.header.filesz.toNat = segment.written.length :=
    (segment_carries h hplace).2.size_eq
  have hwritten : segment'.written = segment.written := by
    rw [Segment.written, hdata, hsize, Nat.min_self, List.take_length]
  have hheader : segment'.header = { segment.header with
      offset := segment'.header.offset, filesz := segment'.header.filesz } := by
    rw [ProgramHeader.mk.injEq]
    exact ⟨hsegment.type, hsegment.flags, rfl, hsegment.vaddr, hsegment.paddr, rfl,
      hsegment.memsz, hsegment.align⟩
  refine ⟨hwritten, fun cursor => ?_, fun _ => ?_, fun _ offset => ?_⟩
  · rw [Segment.position, Segment.position, ProgramHeader.isLoad, ProgramHeader.isLoad,
      hsegment.type, hsegment.align, hsegment.vaddr]
  · rw [Segment.skippedHeader, hheader]
    rfl
  · rw [Segment.placedHeader, hheader, hwritten]
    rfl

/-- Naming a rebuilt section gives the named section it came from, but for the offset. -/
theorem named_rebuilt {table : List UInt8} {index : UInt32} {sec sec' : Section}
    (h : SectionKept table sec sec') :
    sec'.named index table = { sec.named index table with
      header := { (sec.named index table).header with offset := sec'.header.offset } } := by
  have hheader : sec'.header = { sec.header with
      nameIndex := sec'.header.nameIndex
      offset := sec'.header.offset
      size := sec'.header.size } := by
    rw [SectionHeader.mk.injEq]
    exact ⟨rfl, h.type, h.flags, h.addr, rfl, rfl, h.link, h.info, h.addralign, h.entsize⟩
  have hkind := h.isShstrtab
  cases hshstrtab : sec.isShstrtab with
  | true =>
      simp only [Section.named, hkind, hshstrtab, if_true, h.name]
      rw [hheader]
  | false =>
      simp only [Section.named, hkind, hshstrtab, Bool.false_eq_true, if_false]
      rw [Section.mk.injEq]
      refine ⟨?_, h.name, (h.data hshstrtab).1⟩
      rw [hheader, (h.data hshstrtab).2]

theorem offset_skipped (sec : Section) : sec.skipped.header.offset = sec.header.offset := by
  rw [Section.skipped]
  split <;> rfl

/-- Serializing a rebuilt section repeats what serializing the section did. -/
theorem section_projection {table : List UInt8} {index : UInt32} {sec sec' : Section}
    (h : SectionKept table sec sec')
    (hoffset : (sec.named index table).written = [] →
      sec'.header.offset = sec.header.offset) :
    (sec'.named index table).written = (sec.named index table).written ∧
      (∀ cursor, (sec'.named index table).position cursor =
        (sec.named index table).position cursor) ∧
      ((sec.named index table).written = [] →
        (sec'.named index table).skipped = (sec.named index table).skipped) ∧
      ((sec.named index table).written ≠ [] → ∀ offset,
        (sec'.named index table).placed offset = (sec.named index table).placed offset) := by
  rw [named_rebuilt h]
  refine ⟨rfl, fun _ => rfl, fun hempty => ?_, fun _ _ => rfl⟩
  have hsame : (sec.named index table).header.offset = sec.header.offset := by
    rw [Section.header_named]
  rw [hoffset hempty, ← hsame]

/-- The name table of the rebuilt sections is found at the same index, and no new one is
added. -/
theorem ensureShstrtab_rebuilt (h : image.Present d) (hregular : image.Regular)
    (hne : image.sections ≠ []) :
    ensureShstrtab image.rebuilt.sections =
      ((ensureShstrtab image.sections).1, image.rebuilt.sections) := by
  obtain ⟨k, hindex, hfind⟩ := findIdx?_ensureShstrtab image.sections
  rw [findIdx?_eq_of_forall₂ (sections_kept h hregular hne)
    fun sec sec' hsec => hsec.isShstrtab.symm] at hfind
  rw [hindex]
  rw [ensureShstrtab]
  rw [hfind]

/-- The placement loop treats the rebuilt sections like the given ones. -/
theorem sections_projection (h : image.Present d) (hregular : image.Regular)
    (hne : image.sections ≠ []) (out : List UInt8) (cursor : UInt64) :
    placeEach Section.written Section.position Section.skipped Section.placed
        (assignNameOffsets image.rebuilt.sections) out cursor =
      placeEach Section.written Section.position Section.skipped Section.placed
        (assignNameOffsets (ensureShstrtab image.sections).2) out cursor := by
  have hkept := sections_kept h hregular hne
  have hlen := hkept.length_eq
  have hnames := map_name_eq_of_kept hkept
  rw [List.forall₂_iff_zip] at hkept
  refine placeEach_congr (List.forall₂_iff_zip.2 ⟨?_, fun {named named'} hmem => ?_⟩) out cursor
  · rw [length_assignNameOffsets, length_assignNameOffsets]
    exact hlen
  rcases List.mem_iff_getElem?.1 hmem with ⟨i, hi⟩
  rcases List.getElem?_zip_eq_some.1 hi with ⟨hnamed, hnamed'⟩
  dsimp only at hnamed hnamed'
  have hlt : i < (ensureShstrtab image.sections).2.length := by
    rw [← length_assignNameOffsets]
    exact (List.getElem?_eq_some_iff.1 hnamed).1
  obtain ⟨sec, hsec⟩ : ∃ sec, (ensureShstrtab image.sections).2[i]? = some sec :=
    ⟨_, List.getElem?_eq_getElem hlt⟩
  obtain ⟨index, place, hindex, hassigned, hplace, hrebuilt⟩ :=
    rebuiltSections_getElem? hne hsec
  obtain rfl := Option.some.inj (hassigned.symm.trans hnamed)
  obtain ⟨o, -, hindex', hassigned', -⟩ := assignNameOffsets_getElem? hrebuilt
  obtain rfl := Option.some.inj (hassigned'.symm.trans hnamed')
  -- the two sections are numbered alike
  rw [nameOffsets_congr hnames, hindex, Option.some_inj] at hindex'
  rw [nameTable_congr hnames, ← hindex']
  refine section_projection (hkept.2 (List.mem_of_getElem?
    (List.getElem?_zip_eq_some.2 ⟨hsec, hrebuilt⟩))) fun hempty => ?_
  have hnone : place = none := (eq_none_iff_of_mem_zip hplace).2 hempty
  obtain ⟨-, -, -, -, -, hoffset⟩ :=
    (sectionRegular_of_mem hregular (List.mem_of_getElem? hsec)).header.keeps
  rw [hnone, recordAt, Section.rebuilt, SectionHeader.narrow]
  dsimp only
  rw [offset_skipped, Section.header_named, hoffset]

/-- Serializing the rebuilt sections gives what serializing the sections gave. -/
theorem placeSections_rebuilt (h : image.Present d) (hregular : image.Regular)
    (out : List UInt8) (cursor : UInt64) :
    placeSections image.rebuilt.sections out cursor =
      placeSections image.sections out cursor := by
  by_cases hne : image.sections = []
  · have hnone : image.rebuilt.sections = [] := by
      simp [rebuilt, builtSections, namedSections, hne, recordsOf, placements]
    rw [hnone, hne]
  · have hsome : image.rebuilt.sections ≠ [] := by
      intro hnone
      have hlen := (sections_kept h hregular hne).length_eq
      obtain ⟨k, sec, -, hsec, -⟩ := ensureShstrtab_spec image.sections
      have hlt := (List.getElem?_eq_some_iff.1 hsec).1
      rw [hlen, hnone] at hlt
      exact absurd hlt (by simp)
    unfold placeSections
    rw [if_neg hne, if_neg hsome, ensureShstrtab_rebuilt h hregular hne]
    dsimp only
    rw [sections_projection h hregular hne]

/-- Serializing the rebuilt image gives the bytes that serializing the image gave. -/
theorem tryBuild_rebuilt (h : image.Present d) (hregular : image.Regular) :
    image.rebuilt.tryBuild = image.tryBuild := by
  obtain ⟨htype, hentry⟩ := hregular.header.keeps
  unfold tryBuild
  have hlen : image.rebuilt.segments.length = image.segments.length := length_recordsOf ..
  have hsegments := segments_projection h hregular
  have hsections := placeSections_rebuilt h hregular
  have hheader : ∀ phoff shoff ehsize phentsize phnum shentsize shnum shstrndx,
      ({ image.rebuilt.header with
        phoff, shoff, ehsize, phentsize, phnum, shentsize, shnum, shstrndx } : ElfHeader) =
      { image.header with
        phoff, shoff, ehsize, phentsize, phnum, shentsize, shnum, shstrndx } := by
    intros
    rw [ElfHeader.mk.injEq]
    exact ⟨rfl, htype, rfl, rfl, hentry, rfl, rfl, rfl, rfl, rfl, rfl, rfl, rfl, rfl⟩
  rw [show image.rebuilt.ident = image.ident from rfl,
    show image.rebuilt.segments = image.rebuiltSegments from rfl] at *
  simp only [hheader, hlen, hsections, hsegments]

end ElfImage

end Elfex
