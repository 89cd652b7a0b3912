import Elfex.Image.Rebuild
import Elfex.Image.Views

/-!
# Saving an edit

The editor is bounded by the bytes a segment holds, the serializer by the file size of
its header. In a mapped image a loadable segment holds its whole memory, so an edit past
the file bytes succeeds and is lost when the image is saved.
-/

namespace Elfex

open Foundation

/-- The address after the last file byte of a segment. -/
def Segment.fileEnd (segment : Segment) : ℕ :=
  segment.header.vaddr.toNat + segment.header.filesz.toNat

/-- A saved edit: the bytes parse, and the segment at `index` is loadable and holds what
was written. -/
def SavedAt (b : List UInt8) (w : Extent UInt8) (index : ℕ) : Prop :=
  ∃ (saved : ElfImage) (segment : Segment), ElfImage.parse b = .ok saved ∧
    saved.segments[index]? = some segment ∧ segment.header.isLoad = true ∧
    ∀ a x, w.get? a = some x → segment.memory.get? a = some x

namespace ElfImage

variable {image image' : ElfImage} {ioff : UInt64} {bytes : List UInt8}

namespace WrittenAt

variable {vaddr : UInt64} {index : ℕ} {segment : Segment}

theorem mem_segments (h : image.WrittenAt ioff bytes image' vaddr index segment)
    {other : Segment} (hother : other ∈ image'.segments) :
    other ∈ image.segments ∨ other = segment.patch ⟨vaddr.toNat, bytes⟩ := by
  rw [h.result] at hother
  exact List.mem_or_eq_of_mem_set hother

/-- The section rounds keep headers, names and lengths. -/
theorem mem_sections (h : image.WrittenAt ioff bytes image' vaddr index segment)
    {sec : Section} (hsec : sec ∈ image'.sections) :
    ∃ before ∈ image.sections, sec.header = before.header ∧ sec.name = before.name ∧
      sec.data.length = before.data.length := by
  rw [h.result] at hsec
  rcases List.mem_map.1 hsec with ⟨before, hbefore, rfl⟩
  exact ⟨before, hbefore, before.writeAt_header vaddr bytes, before.writeAt_name vaddr bytes,
    before.length_writeAt vaddr bytes⟩

/-- An edit keeps what the parser guarantees. -/
theorem regular (h : image.WrittenAt ioff bytes image' vaddr index segment)
    (hregular : image.Regular) : image'.Regular := by
  have hload : segment.header.isLoad = true := (Bool.and_eq_true_iff.1 h.loads).1
  have htype : segment.header.type = SegmentType.load := by
    simpa [ProgramHeader.isLoad] using hload
  refine ⟨?_, ?_, ?_, ?_, ?_, ?_, ?_, ?_, ?_⟩
  · rw [h.result]
    exact hregular.ident
  · rw [h.result]
    exact hregular.header
  · intro other hother
    rw [h.result]
    rcases h.mem_segments hother with hsame | rfl
    · exact hregular.segmentHeader other hsame
    · exact hregular.segmentHeader segment (List.mem_of_getElem? h.found)
  · intro other hother hnull
    rcases h.mem_segments hother with hsame | rfl
    · exact hregular.segmentNull other hsame hnull
    · rw [Segment.patch_header, htype] at hnull
      exact absurd hnull (by decide)
  · intro other hother hnull hother'
    rcases h.mem_segments hother with hsame | rfl
    · exact hregular.segmentData other hsame hnull hother'
    · exact absurd htype hother'
  · intro sec hsec
    rcases h.mem_sections hsec with ⟨before, hbefore, hheader, -, -⟩
    rw [hheader, h.result]
    exact hregular.sectionHeader before hbefore
  · intro sec hsec hnobits
    rcases h.mem_sections hsec with ⟨before, hbefore, hheader, -, hlen⟩
    rw [hheader] at hnobits
    rw [hregular.sectionNobits before hbefore hnobits] at hlen
    exact List.length_eq_zero_iff.1 hlen
  · intro sec hsec hnobits
    rcases h.mem_sections hsec with ⟨before, hbefore, hheader, -, hlen⟩
    rw [hheader] at hnobits ⊢
    rw [hlen]
    exact hregular.sectionData before hbefore hnobits
  · intro sec hsec
    rcases h.mem_sections hsec with ⟨before, hbefore, -, hname, -⟩
    rw [hname]
    exact hregular.names before hbefore

/-- What a built file holds of an edited segment: the patched bytes up to the file size. -/
theorem exists_rebuilt (h : image.WrittenAt ioff bytes image' vaddr index segment)
    (hregular : image.Regular) {b : List UInt8} (hbuild : image'.tryBuild = .ok b) :
    ∃ rebuilt, parse b = .ok image'.rebuilt ∧
      image'.rebuilt.segments[index]? = some rebuilt ∧ rebuilt.header.isLoad = true ∧
      ∀ a, rebuilt.memory.get? a =
        if a < segment.header.vaddr.toNat +
            min segment.header.filesz.toNat segment.data.length then
          ((image.written ioff bytes).get? a).or (segment.memory.get? a) else none := by
  have hregular' := h.regular hregular
  have hbuilt := tryBuild_eq_ok hbuild
  have hmax : maxImage ≤ isizeMax := by decide
  have hparse := parse_build (t := []) hregular'.ident hregular'.names hbuild
    (by rw [List.append_nil]; exact hbuilt.limit.trans hmax)
  rw [List.append_nil] at hparse
  rcases exists_getElem?_of_forall₂ (segments_kept hregular') h.written_getElem?
    with ⟨rebuilt, hrebuilt, hkept⟩
  have hcut : rebuilt.memory = ⟨(segment.memory.patch ⟨vaddr.toNat, bytes⟩).start,
      (segment.memory.patch ⟨vaddr.toNat, bytes⟩).bytes.take
        (min segment.header.filesz.toNat segment.data.length)⟩ := by
    rw [Segment.memory, hkept.vaddr, hkept.data]
    congr 3
    exact Extent.length_patch h.within
  refine ⟨rebuilt, hparse, hrebuilt, ?_, fun a => ?_⟩
  · rw [ProgramHeader.isLoad, hkept.type]
    exact (Bool.and_eq_true_iff.1 h.loads).1
  · rw [hcut, Extent.get?_take, Extent.get?_patch h.within, h.written_eq]
    rfl

end WrittenAt

/-- The built file holds an edit exactly when the edit is empty or ends inside the file
bytes of the segment. -/
theorem savedAt_iff {index : ℕ} {segment : Segment} {b : List UInt8}
    (hregular : image.Regular) (hwrite : image.writeAtIoff ioff bytes = some image')
    (hindex : image.loadIndex ioff = some index)
    (hsegment : image.segments[index]? = some segment) (hbuild : image'.tryBuild = .ok b) :
    SavedAt b (image.written ioff bytes) index ↔
      bytes = [] ∨ (image.written ioff bytes).stop ≤ segment.fileEnd := by
  rcases writeAtIoff_eq_some.1 hwrite with ⟨vaddr, index', segment', h⟩
  obtain rfl : index = index' := Option.some.inj (hindex.symm.trans h.loadIndex_eq)
  obtain rfl : segment = segment' := Option.some.inj (hsegment.symm.trans h.found)
  have hstop : (image.written ioff bytes).stop ≤ segment.memory.stop := by
    rw [h.written_eq]
    exact h.within.2
  rcases h.exists_rebuilt hregular hbuild with ⟨rebuilt, hparse, hrebuilt, hload, hmemory⟩
  constructor
  · rintro ⟨saved, segment', hsaved, hsegment', -, hheld⟩
    obtain rfl : image'.rebuilt = saved := Except.ok.inj (hparse.symm.trans hsaved)
    obtain rfl : rebuilt = segment' := Option.some.inj (hrebuilt.symm.trans hsegment')
    by_cases hempty : bytes = []
    · exact Or.inl hempty
    · rcases Extent.exists_get?_last (e := image.written ioff bytes) hempty with ⟨x, hx⟩
      have hread := hheld _ x hx
      rw [hmemory] at hread
      split at hread
      · rename_i hlt
        rw [Segment.fileEnd]
        omega
      · cases hread
  · intro hinside
    refine ⟨image'.rebuilt, rebuilt, hparse, hrebuilt, hload, fun a x hx => ?_⟩
    rcases Extent.bounds_of_get? hx with ⟨hlow, hhigh⟩
    rw [hmemory, hx, Option.some_or, if_pos]
    rcases hinside with rfl | hinside
    · rw [written_stop, List.length_nil] at hhigh
      exact absurd hlow (Nat.not_le_of_lt hhigh)
    · rw [Segment.fileEnd] at hinside
      simp only [Segment.memory, Extent.stop] at hstop hinside hhigh
      omega

/-- What an edit does that survives: it starts at a file byte of its segment, writes over
file bytes only, and any built file holds it. -/
structure Survives (image image' : ElfImage) (ioff : UInt64) (bytes : List UInt8)
    (index : ℕ) (segment : Segment) : Prop where
  backed : (image.imageBase + ioff).toNat < segment.fileEnd
  backedAll : ∀ a x, (image.written ioff bytes).get? a = some x → a < segment.fileEnd
  saved : ∀ b, image'.tryBuild = .ok b → SavedAt b (image.written ioff bytes) index

/-- An edit of a parsed image survives saving exactly when it starts and ends inside the
file bytes of the covering loadable segment. -/
theorem edit_survives_iff {data : List UInt8} (hdata : data.length ≤ isizeMax)
    (hparse : parse data = .ok image ∨ parseMapped data = .ok image ∨
      ∃ loadBase, parseMappedAt data loadBase = .ok image)
    (hwrite : image.writeAtIoff ioff bytes = some image') {index : ℕ} {segment : Segment}
    (hindex : image.loadIndex ioff = some index)
    (hsegment : image.segments[index]? = some segment) :
    image.Survives image' ioff bytes index segment ↔
      (image.imageBase + ioff).toNat < segment.fileEnd ∧
        (image.imageBase + ioff).toNat + bytes.length ≤ segment.fileEnd := by
  have hregular : image.Regular := by
    rcases hparse with hparse | hparse
    · exact (regular_of_parse hdata hparse).1
    · exact (regular_of_mapped hdata hparse).1
  constructor
  · intro h
    refine ⟨h.backed, ?_⟩
    by_cases hempty : bytes = []
    · rw [hempty]
      exact h.backed.le
    · rcases Extent.exists_get?_last (e := image.written ioff bytes) hempty with ⟨x, hx⟩
      have hbacked := h.backedAll _ x hx
      rw [written_stop] at hbacked
      omega
  · rintro ⟨hstart, hstop⟩
    refine ⟨hstart, fun a x hx => ?_, fun b hbuild => ?_⟩
    · exact (Extent.bounds_of_get? hx).2.trans_le hstop
    · exact (savedAt_iff hregular hwrite hindex hsegment hbuild).2 (Or.inr hstop)

end ElfImage

theorem smallFile_saved :
    ∃ image' b, (imageOf smallFile).writeAtIoff 1 [0xcc] = some image' ∧
      image'.tryBuild = .ok b ∧ SavedAt b ((imageOf smallFile).written 1 [0xcc]) 0 := by
  obtain ⟨image', hwrite⟩ := Option.isSome_iff_exists.1
    (show ((imageOf smallFile).writeAtIoff 1 [0xcc]).isSome = true by decide +kernel)
  have hbuilds : ((imageOf smallFile).writeAtIoff 1 [0xcc]).all (fun image' =>
      image'.tryBuild.isOk) = true := by decide +kernel
  rw [hwrite] at hbuilds
  obtain ⟨b, hbuild⟩ := Outcome.exists_of_isOk (by simpa using hbuilds)
  have hparse := (parse_decides smallFile_length).ok smallFile_accepted
  have hindex : (imageOf smallFile).loadIndex 1 = some 0 := by decide +kernel
  have hfileEnd : ((imageOf smallFile).segments[0]?).map Segment.fileEnd = some 0x1002 := by
    decide +kernel
  rcases Option.map_eq_some_iff.1 hfileEnd with ⟨segment, hsegment, hend⟩
  have hsurvives := (ElfImage.edit_survives_iff smallFile_length (Or.inl hparse) hwrite hindex
    hsegment).2 (by rw [hend]; decide +kernel)
  exact ⟨image', b, hwrite, hbuild, hsurvives.saved b hbuild⟩

/-- A mapped image whose segment has more memory than file bytes. -/
def bssFile : List UInt8 :=
  { smallHeader with shoff := 0, shnum := 0, shstrndx := 0 }.write ++
    { smallLoad with offset := 0, filesz := 120, memsz := 256 }.write .little .elf64 ++
    List.replicate 136 0

/-- The edit succeeds past the file bytes, and the built file does not hold it. -/
theorem bssFile_lost :
    ∃ image image' b, ElfImage.parseMapped bssFile = .ok image ∧
      image.writeAtIoff 200 [0xcc] = some image' ∧ image'.tryBuild = .ok b ∧
      ¬SavedAt b (image.written 200 [0xcc]) 0 := by
  obtain ⟨image, hparse⟩ := Outcome.exists_of_isOk
    (show (ElfImage.parseMapped bssFile).isOk = true by decide +kernel)
  have hrun : (ElfImage.parseMapped bssFile).toOption.all (fun image =>
      image.imageBase == 0x1000 && image.loadIndex 200 == some 0 &&
        (image.segments[0]?).map Segment.fileEnd == some 0x1078 &&
        (image.writeAtIoff 200 [0xcc]).any fun image' => image'.tryBuild.isOk) = true := by
    decide +kernel
  rw [hparse] at hrun
  simp only [Except.toOption, Option.all_some, Bool.and_eq_true, beq_iff_eq,
    Option.any_eq_true] at hrun
  obtain ⟨⟨⟨hbase, hindex⟩, hfileEnd⟩, image', hwrite, hbuilds⟩ := hrun
  rcases Option.map_eq_some_iff.1 hfileEnd with ⟨segment, hsegment, hend⟩
  obtain ⟨b, hbuild⟩ := Outcome.exists_of_isOk hbuilds
  have hregular := (regular_of_mapped (by decide +kernel) (Or.inl hparse)).1
  refine ⟨image, image', b, hparse, hwrite, hbuild, fun hsaved => ?_⟩
  have hinside := (ElfImage.savedAt_iff hregular hwrite hindex hsegment hbuild).1 hsaved
  rw [hend, ElfImage.written, hbase] at hinside
  exact absurd hinside (by decide)

end Elfex
