import Elfex.Image.SavedTables
import Elfex.Image.PatchedFile

/-!
# An edit in every view

The accessors and the serializer each read a copy of their own. What they should show after
a write is said by the image in which every copy is edited. They show it exactly when every
copy that the write misses holds the written bytes already.
-/

namespace Elfex

open Foundation

/-- The segment with the bytes of a write at their addresses. -/
def Segment.edited (w : Extent UInt8) (segment : Segment) : Segment :=
  { segment with data := (segment.memory.overlaid w).bytes }

/-- The section with the bytes of a write at their addresses, when it is in memory. -/
def Section.edited (w : Extent UInt8) (sec : Section) : Section :=
  if sec.header.flags.isAlloc && !sec.header.isNobits then
    { sec with data := (sec.memory.overlaid w).bytes }
  else sec

theorem Segment.edited_eq_self_iff {w : Extent UInt8} {segment : Segment} :
    segment.edited w = segment ↔ w.Agree segment.memory := by
  rw [← Extent.overlaid_eq_self_iff]
  constructor
  · intro heq
    exact Extent.ext_get? rfl fun a => by
      rw [← congrArg (fun other : Segment => other.memory.get? a) heq]
      rfl
  · intro heq
    rw [edited, heq]
    rfl

theorem Segment.edited_eq_patch {w : Extent UInt8} {segment : Segment}
    (h : w.Within segment.memory) : segment.edited w = segment.patch w := by
  rw [edited, Extent.overlaid_eq_patch h]
  rfl

theorem Section.header_edited (w : Extent UInt8) (sec : Section) :
    (sec.edited w).header = sec.header := by
  rw [edited]
  split <;> rfl

theorem Section.data_edited {w : Extent UInt8} {sec : Section}
    (halloc : sec.header.flags.isAlloc = true) (hnobits : sec.header.isNobits = false) :
    (sec.edited w).data = (sec.memory.overlaid w).bytes := by
  rw [edited, halloc, hnobits]
  rfl

/-- The write leaves in a section what it should exactly when the section holds the whole
range, or the written bytes already. -/
theorem Section.writeAt_data_eq_iff {sec : Section} {vaddr : UInt64} {bytes : List UInt8}
    (hnobits : sec.header.isNobits = false) :
    (sec.writeAt vaddr bytes).data = (sec.edited ⟨vaddr.toNat, bytes⟩).data ↔
      (sec.header.flags.isAlloc = true →
        (sec.containsVaddr vaddr = true ∧
          (⟨vaddr.toNat, bytes⟩ : Extent UInt8).Within sec.memory) ∨
        (⟨vaddr.toNat, bytes⟩ : Extent UInt8).Agree sec.memory) := by
  have hself : sec.data = (sec.memory.overlaid ⟨vaddr.toNat, bytes⟩).bytes ↔
      (⟨vaddr.toNat, bytes⟩ : Extent UInt8).Agree sec.memory := by
    rw [← Extent.overlaid_eq_self_iff]
    exact ⟨fun heq => congrArg (Extent.mk _) heq.symm, fun heq => congrArg Extent.bytes heq.symm⟩
  by_cases hcovers : sec.containsVaddr vaddr = true
  · have halloc := ((sec.containsVaddr_iff vaddr).1 hcovers).1
    rw [writeAt_of_covers hnobits hcovers, data_edited halloc hnobits]
    by_cases hwithin : (⟨vaddr.toNat, bytes⟩ : Extent UInt8).Within sec.memory
    · rw [if_pos hwithin, Extent.overlaid_eq_patch hwithin]
      exact iff_of_true rfl fun _ => Or.inl ⟨hcovers, hwithin⟩
    · rw [if_neg hwithin, hself]
      simp only [halloc, hwithin, and_false, false_or, true_imp_iff]
  · rw [writeAt, Bool.eq_false_iff.2 hcovers, if_pos (by rfl)]
    cases halloc : sec.header.flags.isAlloc with
    | false =>
        rw [edited, halloc]
        exact iff_of_true rfl (by simp)
    | true =>
        rw [data_edited halloc hnobits, hself]
        simp

namespace ElfImage

/-- The image with every copy edited. -/
def edited (image : ElfImage) (w : Extent UInt8) : ElfImage :=
  { image with
    segments := image.segments.map (Segment.edited w)
    sections := image.sections.map (Section.edited w) }

/-- Every view of the written image shows the edit: the segments agree with the loadable
ones, the dynamic table, the notes and the build identifier are decoded from edited bytes,
and a built file holds the edited bytes of every segment where its header says. -/
structure ShowsEdit (image image' : ElfImage) (w : Extent UInt8) : Prop where
  segments : image'.SegmentsAgree
  dynamic : image'.dynamic = (image.edited w).dynamic
  noteSources : image'.noteSources = (image.edited w).noteSources
  notes : image'.notes = (image.edited w).notes
  buildId : image'.buildId = (image.edited w).buildId
  built : ∀ b, image'.tryBuild = .ok b →
    ∀ (i : ℕ) (segment : Segment) (phdr : ProgramHeader),
      (image.edited w).segments[i]? = some segment →
      image'.builtProgramHeaders[i]? = some phdr →
      window b phdr.offset.toNat phdr.filesz.toNat = segment.written

/-- When the notes are read from sections, a write at `vaddr` reaches every note section in
memory, or the section holds the written bytes already. -/
def NoteSectionsReached (image : ElfImage) (vaddr : UInt64) (w : Extent UInt8) : Prop :=
  (∀ segment ∈ image.segments, segment.header.type ≠ SegmentType.note) →
    ∀ sec ∈ image.sections, sec.header.type = SectionType.note →
      sec.header.flags.isAlloc = true →
      (sec.containsVaddr vaddr = true ∧ w.Within sec.memory) ∨ w.Agree sec.memory

variable {image image' : ElfImage} {ioff : UInt64} {bytes : List UInt8}

/-- A built file holds the bytes of a segment where its header says. -/
theorem Built.window_segment {b : List UInt8} (hbuilt : image.Built b) {i : ℕ}
    {segment : Segment} {phdr : ProgramHeader} (hsegment : image.segments[i]? = some segment)
    (hphdr : image.builtProgramHeaders[i]? = some phdr) :
    window b phdr.offset.toNat phdr.filesz.toNat = segment.written := by
  obtain ⟨place, hmem, hplace, hrecord⟩ := builtProgramHeaders_getElem? hsegment
  obtain rfl := Option.some.inj (hrecord.symm.trans hphdr)
  cases place with
  | none =>
      have hempty : segment.written = [] := by
        by_contra hne
        rw [if_neg hne] at hplace
        cases hplace
      rw [hempty]
      exact List.take_zero
  | some offset =>
      have he : (⟨offset.toNat, segment.written⟩ : Extent UInt8) ∈ image.layout := by
        rw [layout]
        exact List.mem_cons_of_mem _ (List.mem_cons_of_mem _ (List.mem_append_left _
          (List.mem_append_left _ (mem_extentsOf_of_mem_zip hmem))))
      have hstop : offset.toNat + segment.written.length ≤ b.length :=
        (hbuilt.stacked.bounds he).2
      have hlimit := hbuilt.limit
      have hmax : maxImage < 2 ^ 64 := by decide
      rw [recordAt, Segment.placedHeader, toNat_ofNat_of_lt (by omega)]
      exact (hbuilt.held _ he).2

/-- The copies that a write should leave, when it leaves the segments in agreement. -/
theorem WrittenAt.segments_eq {vaddr : UInt64} {index : ℕ} {segment : Segment}
    (h : image.WrittenAt ioff bytes image' vaddr index segment)
    (hholds : image.HoldsAlready (image.written ioff bytes) index) :
    image'.segments = (image.edited (image.written ioff bytes)).segments := by
  have hwithin : (image.written ioff bytes).Within segment.memory := by
    rw [h.written_eq]
    exact h.within
  rw [h.result, edited]
  apply List.ext_getElem?
  intro p
  dsimp only
  rw [List.getElem?_map, ← h.written_eq]
  by_cases hp : p = index
  · subst hp
    rw [List.getElem?_set_self (List.getElem?_eq_some_iff.1 h.found).1, h.found, Option.map_some,
      Segment.edited_eq_patch hwithin]
  · rw [List.getElem?_set_ne (Ne.symm hp)]
    cases hother : image.segments[p]? with
    | none => rfl
    | some other =>
        rw [Option.map_some, Segment.edited_eq_self_iff.2 (hholds.1 p other hp hother)]

theorem segmentData_eq_nil_iff (image : ElfImage) (type : SegmentType) :
    image.segmentData type = [] ↔ ∀ segment ∈ image.segments, segment.header.type ≠ type := by
  simp [segmentData]

/-- The note sections of an image whose sections are changed in place. -/
theorem noteSections_of_map {f : Section → Section}
    (hsections : image'.sections = image.sections.map f)
    (hheader : ∀ sec, (f sec).header = sec.header) :
    image'.noteSections = (image.sections.filter fun sec =>
      sec.header.type == SectionType.note).map fun sec => (f sec).data := by
  rw [noteSections, hsections, List.filter_map, List.map_map]
  simp only [Function.comp_def, hheader]

section Notes

variable {vaddr : UInt64} {index : ℕ} {segment : Segment}
  (h : image.WrittenAt ioff bytes image' vaddr index segment)

include h

theorem WrittenAt.forall_header_iff (P : ProgramHeader → Prop) :
    (∀ segment ∈ image'.segments, P segment.header) ↔
      ∀ segment ∈ image.segments, P segment.header := by
  rw [← List.forall_mem_map, h.headers, List.forall_mem_map]

/-- The note sections are read alike after the write and in the edited image exactly when
each of them is. -/
theorem WrittenAt.noteSections_eq_iff :
    image'.noteSections = (image.edited (image.written ioff bytes)).noteSections ↔
      ∀ sec ∈ image.sections, sec.header.type = SectionType.note →
        sec.header.flags.isAlloc = true →
        (sec.containsVaddr vaddr = true ∧ (image.written ioff bytes).Within sec.memory) ∨
          (image.written ioff bytes).Agree sec.memory := by
  have hsections : image'.sections = image.sections.map fun sec => sec.writeAt vaddr bytes := by
    rw [h.result]
  rw [noteSections_of_map hsections fun sec => sec.writeAt_header vaddr bytes,
    noteSections_of_map (f := Section.edited (image.written ioff bytes)) rfl
      fun sec => sec.header_edited _, List.map_inj_left, h.written_eq]
  simp only [List.mem_filter, beq_iff_eq, and_imp]
  refine forall₂_congr fun sec _ => forall_congr' fun htype => ?_
  have hnobits : sec.header.isNobits = false := by
    rw [SectionHeader.isNobits, htype]
    rfl
  exact Section.writeAt_data_eq_iff hnobits

theorem WrittenAt.noteSources_eq_iff
    (hholds : image.HoldsAlready (image.written ioff bytes) index) :
    image'.noteSources = (image.edited (image.written ioff bytes)).noteSources ↔
      image.NoteSectionsReached vaddr (image.written ioff bytes) := by
  have hdata : (image.edited (image.written ioff bytes)).segmentData SegmentType.note =
      image'.segmentData SegmentType.note := by
    rw [segmentData, segmentData, h.segments_eq hholds]
  have hnone : image'.segmentData SegmentType.note = [] ↔
      ∀ segment ∈ image.segments, segment.header.type ≠ SegmentType.note := by
    rw [segmentData_eq_nil_iff]
    exact h.forall_header_iff fun header => header.type ≠ SegmentType.note
  rw [noteSources_eq, noteSources_eq, hdata, NoteSectionsReached, ← hnone,
    ← h.noteSections_eq_iff]
  by_cases hempty : image'.segmentData SegmentType.note = []
  · rw [if_pos hempty, if_pos hempty, imp_iff_right hempty]
  · rw [if_neg hempty, if_neg hempty]
    exact iff_of_true rfl fun h => absurd h hempty

end Notes

/-- Every view shows a write exactly when the segments it misses hold the written bytes
already, loadable segments agree elsewhere, and, where the notes are read from sections, the
write reaches the note sections. -/
theorem showsEdit_iff (hbefore : image.OthersAgree)
    (hwrite : image.writeAtIoff ioff bytes = some image') :
    image.ShowsEdit image' (image.written ioff bytes) ↔
      (∃ index, image.loadIndex ioff = some index ∧
        image.HoldsAlready (image.written ioff bytes) index) ∧
      image.NoteSectionsReached (image.imageBase + ioff) (image.written ioff bytes) := by
  have hagree := segmentsAgree_write_iff hbefore hwrite
  obtain ⟨vaddr, index, segment, h⟩ := writeAtIoff_eq_some.1 hwrite
  have hident : image'.ident = (image.edited (image.written ioff bytes)).ident := by
    rw [h.result]
    rfl
  rw [imageBase_add_of_vaddrOf h.address]
  simp only [h.loadIndex_eq, Option.some_inj, exists_eq_left'] at hagree ⊢
  constructor
  · intro hshows
    have hholds := hagree.1 hshows.segments
    exact ⟨hholds, (h.noteSources_eq_iff hholds).1 hshows.noteSources⟩
  · rintro ⟨hholds, hreached⟩
    have hsegments := h.segments_eq hholds
    have hsources := (h.noteSources_eq_iff hholds).2 hreached
    have hnotes : image'.notes = (image.edited (image.written ioff bytes)).notes := by
      rw [notes, notes, hsources, hident]
    refine ⟨hagree.2 hholds, ?_, hsources, hnotes, ?_, ?_⟩
    · rw [dynamic, dynamic, hsegments, hident]
    · rw [buildId, buildId, hnotes]
    · intro b hbuild i other phdr hother hphdr
      rw [← hsegments] at hother
      exact (tryBuild_eq_ok hbuild).window_segment hother hphdr

end ElfImage

/-! ## Edits of files with notes -/

/-- An executable with a build identifier behind its first code byte, and code in a second
segment. -/
def buildIdFile : List UInt8 :=
  { smallHeader with phnum := 3, shoff := 0, shnum := 0, shstrndx := 0 }.write ++
    { smallLoad with offset := 232, filesz := 21, memsz := 21 }.write .little .elf64 ++
    { smallLoad with
      type := SegmentType.note, offset := 233, vaddr := 0x1001, filesz := 20, memsz := 20
      }.write .little .elf64 ++
    { smallLoad with offset := 253, vaddr := 0x2000 }.write .little .elf64 ++
    0x90 :: [4, 0, 0, 0, 4, 0, 0, 0, 3, 0, 0, 0, 0x47, 0x4e, 0x55, 0, 1, 2, 3, 4] ++ [0x90, 0xc3]

/-- A write over the code byte and the first byte of the note, which it does not change. -/
theorem buildIdFile_showsEdit :
    ElfImage.parse buildIdFile = .ok (imageOf buildIdFile) ∧
      ∃ image', (imageOf buildIdFile).writeAtIoff 0 [0xcc, 4] = some image' ∧
        (imageOf buildIdFile).ShowsEdit image' ((imageOf buildIdFile).written 0 [0xcc, 4]) ∧
        image'.buildId = .ok (some [1, 2, 3, 4]) := by
  have hparse : ElfImage.parse buildIdFile = .ok (imageOf buildIdFile) :=
    parse_imageOf (by decide +kernel) (by decide +kernel)
  obtain ⟨image', hwrite⟩ := Option.isSome_iff_exists.1
    (show ((imageOf buildIdFile).writeAtIoff 0 [0xcc, 4]).isSome = true by decide +kernel)
  have hindex : (imageOf buildIdFile).loadIndex 0 = some 0 := by decide +kernel
  have hagree : ∀ segment ∈ (imageOf buildIdFile).segments,
      ∀ load ∈ (imageOf buildIdFile).segments, segment.memory.Agree load.memory := by
    decide +kernel
  have hholds : ∀ p < (imageOf buildIdFile).segments.length, p ≠ 0 →
      ∀ segment ∈ (imageOf buildIdFile).segments[p]?,
        ((imageOf buildIdFile).written 0 [0xcc, 4]).Agree segment.memory := by decide +kernel
  have hnote : ∃ segment ∈ (imageOf buildIdFile).segments,
      segment.header.type = SegmentType.note := by decide +kernel
  have hbuildId : ((imageOf buildIdFile).edited
      ((imageOf buildIdFile).written 0 [0xcc, 4])).buildId = .ok (some [1, 2, 3, 4]) := by
    decide +kernel
  have hshows := (ElfImage.showsEdit_iff (fun segment hsegment _ load hload _ =>
    hagree segment hsegment load hload) hwrite).2 ⟨⟨0, hindex,
      fun p segment hp hsegment => hholds p (List.getElem?_eq_some_iff.1 hsegment).1 hp segment
        hsegment,
      fun load hload load' hload' _ _ => (hagree load hload load' hload').off _⟩,
    fun hnone => by
      obtain ⟨segment, hsegment, htype⟩ := hnote
      exact absurd htype (hnone segment hsegment)⟩
  exact ⟨hparse, image', hwrite, hshows, hshows.buildId.trans hbuildId⟩

theorem noteFile_othersAgree : (imageOf noteFile).OthersAgree := by
  have hsame : ∀ segment ∈ (imageOf noteFile).segments, ∀ load ∈ (imageOf noteFile).segments,
      segment.memory = load.memory := by decide +kernel
  intro segment hsegment _ load hload _
  rw [hsame segment hsegment load hload]
  exact Extent.Agree.refl _

/-- The loadable segment is edited and the note keeps its bytes. -/
theorem noteFile_disagrees :
    ∃ image image', ElfImage.parse noteFile = .ok image ∧ image.OthersAgree ∧
      image.writeAtIoff 0 [0xcc] = some image' ∧ ¬image'.SegmentsAgree := by
  obtain ⟨image, himage⟩ := Outcome.exists_of_isOk
    (show (ElfImage.parse noteFile).isOk = true by decide +kernel)
  have hdescribed := ((parse_decides (by decide +kernel)).eq_ok_iff image).1 himage
  obtain ⟨image', hwrite⟩ := Option.isSome_iff_exists.1
    (show ((imageOf noteFile).writeAtIoff 0 [0xcc]).isSome = true by decide +kernel)
  have hbytes : ((imageOf noteFile).writeAtIoff 0 [0xcc]).all (fun image' =>
      image'.segments.any fun segment => image'.segments.any fun load =>
        load.header.isLoad && segment.memory.get? 0x1000 == some 0x90 &&
          load.memory.get? 0x1000 == some 0xcc) = true := by decide +kernel
  rw [hwrite] at hbytes
  simp only [Option.all_some, List.any_eq_true, Bool.and_eq_true, beq_iff_eq] at hbytes
  obtain ⟨segment, hsegment, load, hload, ⟨hloads, hold⟩, hnew⟩ := hbytes
  refine ⟨image, image', himage, hdescribed.2 ▸ noteFile_othersAgree,
    hdescribed.2 ▸ hwrite, fun hagree => ?_⟩
  have heq := hagree segment hsegment load hload hloads 0x1000 _ _ hold hnew
  exact absurd heq (by decide)

end Elfex
