import Elfex.Builder.Build
import Elfex.Image.Loaded
import Elfex.Image.Reparse

/-!
# The loads of a built image in the mapped image

A load of a built image has as many bytes in memory as in the file, so the mapped image
holds exactly its bytes at its address: all of them but those under the file header and
the program header table, which are written over the start of the mapped bytes.
-/

namespace Elfex

open Foundation

theorem length_take_u64OrZero (data : List UInt8) :
    UInt64.ofNat (data.take (min (u64OrZero data.length).toNat data.length)).length =
      u64OrZero data.length := by
  rw [u64OrZero]
  split
  · rename_i hlt
    rw [toNat_ofNat_of_lt hlt, Nat.min_self, List.take_length]
  · rw [UInt64.toNat_zero, Nat.zero_min, List.take_zero]
    rfl

/-- A load has in memory what is written for it. -/
theorem LoadSpec.memsz_segment (load : LoadSpec) :
    load.segment.header.memsz = UInt64.ofNat load.segment.written.length :=
  (length_take_u64OrZero load.data).symm

theorem addDynamic_eq (needed : List String) (endian : Endian) (elfClass : ElfClass)
    (segments : List Segment) (sections : List Section) :
    addDynamic needed endian elfClass segments sections =
      (segments ++ (addDynamic needed endian elfClass [] []).1,
        sections ++ (addDynamic needed endian elfClass [] []).2) := by
  by_cases hneeded : needed = []
  · simp [addDynamic, hneeded]
  · simp [addDynamic, hneeded]

namespace ElfBuilder

variable {builder : ElfBuilder} {image : ElfImage}

/-- The segments of the image: the loads, then the segments of the tables. -/
theorem segments_image (builder : ElfBuilder) :
    builder.image.segments = builder.loads.map LoadSpec.segment ++
      ((builder.tls.map TlsSpec.segment).toList ++
        (builder.notes.map (fun spec => spec.segment builder.endian) ++
          (addDynamic builder.needed builder.endian builder.elfClass [] []).1)) := by
  rw [image, addNotes]
  dsimp only
  rw [addDynamic_eq]
  dsimp only
  rw [List.append_assoc, List.append_assoc]

/-- A loadable segment of the image is the segment of a load. -/
theorem exists_load_of_mem {segment : Segment} (hmem : segment ∈ builder.image.segments)
    (hload : segment.header.type = SegmentType.load) :
    ∃ load ∈ builder.loads, load.segment = segment := by
  rw [segments_image, List.mem_append, List.mem_append, List.mem_append, List.mem_map] at hmem
  rcases hmem with hmem | hmem | hmem | hmem
  · exact hmem
  · obtain ⟨tls, -, rfl⟩ := Option.map_eq_some_iff.1 (Option.mem_toList.1 hmem)
    exact absurd hload (show SegmentType.tls ≠ SegmentType.load by decide)
  · obtain ⟨spec, -, rfl⟩ := List.mem_map.1 hmem
    exact absurd hload (show SegmentType.note ≠ SegmentType.load by decide)
  · unfold addDynamic at hmem
    split at hmem
    · exact absurd hmem (by simp)
    · obtain rfl := List.mem_singleton.1 hmem
      exact absurd hload (show SegmentType.dynamic ≠ SegmentType.load by decide)

theorem tryBuild_eq_ok (h : builder.tryBuild = .ok image) :
    ∃ bytes, builder.image.tryBuild = .ok bytes ∧ ElfImage.parse bytes = .ok image :=
  Outcome.bind_eq_ok.1 h

/-- What serializes parses again. -/
theorem exists_tryBuild (h : builder.image.tryBuild.isOk = true) :
    ∃ image, builder.tryBuild = .ok image := by
  obtain ⟨bytes, hbytes⟩ := Outcome.exists_of_isOk h
  have hident : builder.image.header.ident = builder.image.ident := rfl
  have hbuilt := ElfImage.tryBuild_eq_ok hbytes
  have hpresent : builder.image.Present bytes := by simpa using hbuilt.present hident []
  have hlen : bytes.length ≤ isizeMax := hbuilt.limit.trans (by decide)
  exact ⟨imageOf bytes, Outcome.bind_eq_ok.2
    ⟨bytes, hbytes, (parse_decides hlen).ok (ElfImage.grammar_present hpresent)⟩⟩

/-- The segments of the returned image are the rebuilt ones. -/
theorem segments_of_tryBuild (h : builder.tryBuild = .ok image) :
    ∃ bytes, bytes.length ≤ isizeMax ∧ ElfImage.parse bytes = .ok image ∧
      builder.image.Present bytes ∧ image.segments = builder.image.rebuiltSegments := by
  obtain ⟨bytes, hbytes, hparse⟩ := tryBuild_eq_ok h
  have hident : builder.image.header.ident = builder.image.ident := rfl
  have hbuilt := ElfImage.tryBuild_eq_ok hbytes
  have hpresent : builder.image.Present bytes := by simpa using hbuilt.present hident []
  have hmax : maxImage ≤ isizeMax := by decide
  have hlen := hbuilt.limit.trans hmax
  obtain ⟨-, rfl⟩ := (parse_eq_ok hlen).1 hparse
  exact ⟨bytes, hlen, hparse, hpresent, (ElfImage.segments_present hpresent).2⟩

/-- The returned image is the one its bytes describe. -/
theorem exists_present (h : builder.tryBuild = .ok image) :
    ∃ bytes, builder.image.Present bytes ∧ imageOf bytes = image := by
  obtain ⟨bytes, hlen, hparse, hpresent, -⟩ := segments_of_tryBuild h
  exact ⟨bytes, hpresent, ((parse_eq_ok hlen).1 hparse).2⟩

/-- A load of the returned image has as many bytes in memory as in the file. -/
theorem memsz_of_tryBuild (h : builder.tryBuild = .ok image) {segment : Segment}
    (hmem : segment ∈ image.segments) (hload : segment.header.type = SegmentType.load) :
    segment.header.memsz.toNat = segment.data.length := by
  obtain ⟨bytes, -, -, hpresent, hsegments⟩ := segments_of_tryBuild h
  rw [hsegments] at hmem
  obtain ⟨given, place, hplace, rfl⟩ := mem_recordsOf.1 hmem
  obtain ⟨htype, hcarries⟩ := ElfImage.segment_carries hpresent hplace
  rw [ElfImage.recordAt_rebuilt] at hload ⊢
  obtain ⟨load, -, rfl⟩ := exists_load_of_mem (List.of_mem_zip hplace).1 (htype.symm.trans hload)
  have hrecord : (recordAt Segment.skippedHeader Segment.placedHeader load.segment place).memsz =
      (recordAt Segment.skippedHeader Segment.placedHeader load.segment place).filesz := by
    cases place with
    | none =>
        have hnone := (eq_none_iff_of_mem_zip hplace).1 rfl
        exact load.memsz_segment.trans (by rw [hnone]; rfl)
    | some offset => exact load.memsz_segment
  have hdata : (load.segment.rebuilt builder.image.ident.elfClass (recordAt
      Segment.skippedHeader Segment.placedHeader load.segment place)).data =
        load.segment.written := by
    rw [Segment.rebuilt, if_neg]
    rw [show load.segment.header.type = SegmentType.load from rfl]
    decide
  rw [hdata, ← hcarries.size_eq, Segment.rebuilt, ProgramHeader.narrow, hrecord]

/-- The bytes a mapping of a built image holds: the headers at the start, and beyond
them the bytes of every load at its address. -/
theorem tryBuild_mapped (hbuild : builder.tryBuild = .ok image)
    (hdisjoint : image.LoadsDisjoint) {mapped : List UInt8}
    (hmapped : image.toMappedImage = .ok mapped) :
    mapped.take image.headerArea = image.mappedHeaders.take mapped.length ∧
    ∀ segment ∈ image.segments, segment.header.type = SegmentType.load →
      ∀ i < segment.data.length,
        let position := segment.header.vaddr.toNat - image.imageBase.toNat + i
        image.imageBase ≤ segment.header.vaddr ∧
        (segment.header.vaddr.toNat + i < 2 ^ 64 - 1 → position < mapped.length) ∧
        (position < mapped.length → mapped[position]? =
          if position < image.headerArea then image.mappedHeaders[position]?
          else segment.data[i]?) := by
  obtain ⟨bytes, hlen, hparse, -, -⟩ := segments_of_tryBuild hbuild
  obtain ⟨hregular, -⟩ := regular_of_parse hlen hparse
  obtain ⟨-, rfl⟩ := (ElfImage.toMappedImage_eq_ok image).1 hmapped
  have hheld : ∀ segment ∈ image.segments, segment.header.type = SegmentType.load →
      segment.data.length ≤ segment.header.memsz.toNat := fun segment hmem hload =>
    (memsz_of_tryBuild hbuild hmem hload).ge
  rw [ElfImage.length_mappedAtBase]
  refine ⟨ElfImage.take_mappedAtBase hregular.ident, fun segment hmem hload i hi => ?_⟩
  have hmemory : i < segment.header.memsz.toNat :=
    (memsz_of_tryBuild hbuild hmem hload).symm ▸ hi
  obtain ⟨hbase, hend⟩ := ElfImage.span_encloses hmem hload (ne_zero_of_lt_toNat hmemory)
  refine ⟨UInt64.le_iff_toNat_le.2 hbase, fun hfits => by omega, fun hin => ?_⟩
  split
  · rename_i hheaders
    exact ElfImage.mappedAtBase_of_lt hregular.ident hin hheaders
  · rename_i hbeyond
    have hshows := ElfImage.topmost_of_covered hheld hdisjoint hmem hload hmemory
    rw [Segment.mappedStart] at hshows
    rw [ElfImage.mappedAtBase_of_le hregular.ident hin (Nat.le_of_not_lt hbeyond), hshows,
      List.getElem?_eq_getElem hi, Option.getD_some]

end ElfBuilder

/-- A builder with two bytes of code at `vaddr`. -/
def codeBuilder (vaddr : UInt64) : ElfBuilder :=
  ElfBuilder.new.addLoadAligned vaddr (SegmentFlags.read ||| SegmentFlags.execute) 16 [0xf4, 0xc3]

theorem codeBuilder_segments {vaddr : UInt64} {image : ElfImage}
    (h : (codeBuilder vaddr).tryBuild = .ok image) :
    ∃ segment, image.segments = [segment] ∧ segment.header.type = SegmentType.load ∧
      segment.header.vaddr = vaddr ∧ segment.data = [0xf4, 0xc3] := by
  obtain ⟨-, -, -, -, hsegments⟩ := ElfBuilder.segments_of_tryBuild h
  exact ⟨_, hsegments, rfl, rfl, rfl⟩

theorem codeBuilder_disjoint {vaddr : UInt64} {image : ElfImage}
    (h : (codeBuilder vaddr).tryBuild = .ok image) : image.LoadsDisjoint := by
  obtain ⟨segment, hsegments, -⟩ := codeBuilder_segments h
  rw [ElfImage.LoadsDisjoint, hsegments]
  exact List.Pairwise.filter _ (List.pairwise_singleton _ _)

/-- A builder with two bytes of code and one in a load behind them. -/
def twoLoadsBuilder : ElfBuilder :=
  (codeBuilder 0x401100).addLoadAligned 0x401200 SegmentFlags.read 16 [0x90]

/-- Beyond the headers the loads are mapped at their addresses. -/
theorem twoLoadsBuilder_mapped :
    ∃ image mapped, twoLoadsBuilder.tryBuild = .ok image ∧
      image.toMappedImage = .ok mapped ∧ mapped[0x100]? = some 0xf4 ∧
      mapped[0x101]? = some 0xc3 ∧ mapped[0x200]? = some 0x90 := by
  obtain ⟨image, himage⟩ := twoLoadsBuilder.exists_tryBuild (by decide +kernel)
  have hview : twoLoadsBuilder.tryBuild.map (fun image =>
      (image.imageBase, image.headerArea, image.toMappedImage.isOk,
        decide image.LoadsDisjoint)) = .ok (0x401000, 176, true, true) := by decide +kernel
  have hsegments : twoLoadsBuilder.tryBuild.map (fun image => image.segments.map fun segment =>
      (segment.header.type, segment.header.vaddr, segment.data)) =
        .ok [(SegmentType.load, 0x401100, [0xf4, 0xc3]), (SegmentType.load, 0x401200, [0x90])] := by
    decide +kernel
  rw [himage] at hview hsegments
  obtain ⟨hbase, harea, hmappable, hdisjoint⟩ := by simpa [Except.map] using hview
  have hsegments : (image.segments.map fun segment =>
      (segment.header.type, segment.header.vaddr, segment.data)) =
        [(SegmentType.load, 0x401100, [0xf4, 0xc3]), (SegmentType.load, 0x401200, [0x90])] :=
    Except.ok.inj hsegments
  obtain ⟨mapped, hmapped⟩ := Outcome.exists_of_isOk hmappable
  obtain ⟨-, hloads⟩ := ElfBuilder.tryBuild_mapped himage hdisjoint hmapped
  have hbyte : ∀ vaddr data, (SegmentType.load, vaddr, data) ∈ image.segments.map
      (fun segment => (segment.header.type, segment.header.vaddr, segment.data)) →
        ∀ i < data.length, 176 ≤ vaddr.toNat - 0x401000 + i →
          vaddr.toNat + i < 2 ^ 64 - 1 → mapped[vaddr.toNat - 0x401000 + i]? = data[i]? := by
    intro vaddr data hmem i hi hbeyond hfits
    obtain ⟨segment, hsegment, heq⟩ := List.mem_map.1 hmem
    obtain ⟨hload, rfl, rfl⟩ := by simpa using heq
    obtain ⟨-, hin, hat⟩ := hloads segment hsegment hload i hi
    rw [hbase, harea] at hat
    exact (hat (hbase ▸ hin hfits)).trans (if_neg (Nat.not_lt.2 hbeyond))
  rw [hsegments] at hbyte
  refine ⟨image, mapped, himage, hmapped, ?_, ?_, ?_⟩
  · exact hbyte 0x401100 [0xf4, 0xc3] (by simp) 0 (by decide) (by decide) (by decide)
  · exact hbyte 0x401100 [0xf4, 0xc3] (by simp) 1 (by decide) (by decide) (by decide)
  · exact hbyte 0x401200 [0x90] (by simp) 0 (by decide) (by decide) (by decide)

/-- Every byte of every load is mapped at its address. -/
def ElfImage.LoadsKept (image : ElfImage) (mapped : List UInt8) : Prop :=
  ∀ segment ∈ image.segments, segment.header.type = SegmentType.load →
    ∀ i < segment.data.length,
      mapped[segment.header.vaddr.toNat - image.imageBase.toNat + i]? = segment.data[i]?

/-- Code whose two mapped bytes are not its own has lost one of them. -/
theorem codeBuilder_lost {vaddr : UInt64} (bytes : List (Option UInt8))
    (hne : bytes ≠ [some 0xf4, some 0xc3])
    (h : ((codeBuilder vaddr).tryBuild >>= fun image => image.toMappedImage >>= fun mapped =>
      pure [mapped[vaddr.toNat - image.imageBase.toNat]?,
        mapped[vaddr.toNat - image.imageBase.toNat + 1]?]) = .ok bytes) :
    ∃ image mapped, (codeBuilder vaddr).tryBuild = .ok image ∧ image.LoadsDisjoint ∧
      image.toMappedImage = .ok mapped ∧ ¬image.LoadsKept mapped := by
  simp only [Outcome.bind_eq_ok] at h
  obtain ⟨image, himage, mapped, hmapped, hret⟩ := h
  obtain ⟨segment, hsegments, hload, hvaddr, hdata⟩ := codeBuilder_segments himage
  refine ⟨image, mapped, himage, codeBuilder_disjoint himage, hmapped, fun hkept => hne ?_⟩
  have hbyte := hkept segment (hsegments ▸ List.mem_singleton_self _) hload
  rw [hvaddr, hdata] at hbyte
  rw [← Except.ok.inj hret, ← Nat.add_zero (vaddr.toNat - image.imageBase.toNat),
    hbyte 0 (by decide), Nat.add_zero, hbyte 1 (by decide)]
  rfl

/-- At the start of its page the code gives way to the headers, and at the end of the
address space it is cut off. -/
theorem codeBuilder_overwritten :
    (∃ image mapped, (codeBuilder 0x401000).tryBuild = .ok image ∧ image.LoadsDisjoint ∧
      image.toMappedImage = .ok mapped ∧ ¬image.LoadsKept mapped) ∧
    ∃ image mapped, (codeBuilder 0xfffffffffffffffe).tryBuild = .ok image ∧
      image.LoadsDisjoint ∧ image.toMappedImage = .ok mapped ∧ ¬image.LoadsKept mapped := by
  constructor
  · exact codeBuilder_lost [some 0x7f, some 0x45] (by decide) (by decide +kernel)
  · exact codeBuilder_lost [some 0xf4, none] (by decide) (by decide +kernel)

end Elfex
