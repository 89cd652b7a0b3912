import Elfex.Builder.Faithful
import Elfex.Image.Layout
import Elfex.Image.Projection
import Elfex.Image.Validate

/-!
# A built image is valid and a fixed point

The image a builder assembles is consistent but for its open offsets, so serializing what
it parses to repeats the build. With loads that have bytes and share no address the image
passes every check.
-/

namespace Elfex

open Foundation

namespace ElfBuilder

/-- The loads have bytes and share no address, the entry point is unset or inside a load,
and the names of notes hold no NUL. -/
structure WellFormed (builder : ElfBuilder) : Prop where
  allocated : builder.Allocated
  narrow : builder.elfClass = .elf32 → builder.Narrow
  loads : builder.loads ≠ []
  nonempty : ∀ load ∈ builder.loads, load.data ≠ []
  bounded : ∀ load ∈ builder.loads, load.vaddr.toNat + load.data.length < 2 ^ 64
  disjoint : builder.loads.Pairwise fun a b =>
    a.vaddr.toNat + a.data.length ≤ b.vaddr.toNat ∨ b.vaddr.toNat + b.data.length ≤ a.vaddr.toNat
  entry : builder.entry = 0 ∨ ∃ load ∈ builder.loads, load.vaddr.toNat ≤ builder.entry.toNat ∧
    builder.entry.toNat < load.vaddr.toNat + load.data.length
  noteNames : ∀ spec ∈ builder.notes, 0 ∉ strBytes spec.name

variable {builder : ElfBuilder} {d : List UInt8}

/-! ## The assembled image is consistent -/

/-- The names of the tables hold no NUL. -/
theorem names_image (hnames : ∀ spec ∈ builder.notes, 0 ∉ strBytes spec.name) {sec : Section}
    (hmem : sec ∈ builder.image.sections) : 0 ∉ strBytes sec.name := by
  rw [sections_image, List.mem_cons, List.mem_append, List.mem_append, List.mem_map] at hmem
  rcases hmem with rfl | ⟨spec, hspec, rfl⟩ | hmem | hmem
  · decide +kernel
  · have hname : strBytes (spec.sec builder.endian).name = strBytes ".note." ++
        strBytes spec.name := strBytes_append _ _
    rw [hname, List.mem_append, not_or]
    exact ⟨by decide +kernel, hnames spec hspec⟩
  · obtain ⟨-, ⟨hname, -⟩ | ⟨hname, -⟩⟩ := mem_addDynamic hmem
    · rw [hname]
      decide +kernel
    · rw [hname]
      decide +kernel
  · rw [(mem_addRela hmem).1]
    decide +kernel

theorem regular_tableSection {name : String} {type : SectionType} {flags : SectionFlags}
    {addralign entsize : UInt64} {data : List UInt8} (elfClass : ElfClass)
    (htype : type ≠ SectionType.nobits)
    (hwords : flags.toNat < 2 ^ 32 ∧ addralign.toNat < 2 ^ 32 ∧ entsize.toNat < 2 ^ 32)
    (hlen : data.length ≤ maxImage) :
    ElfImage.SectionRegular elfClass
      (tableSection name type flags addralign entsize data) := by
  have hmax : maxImage < 2 ^ 32 := by decide
  have hsize : (u64OrZero data.length).toNat = data.length := toNat_u64OrZero (by omega)
  have hzero : elfClass.keep 0 = 0 := ElfClass.keep_of_lt _ (by decide)
  refine ⟨?_, fun hnobits => absurd (beq_iff_eq.1 hnobits) htype, fun _ => hsize.symm⟩
  rw [SectionHeader.Fits, SectionHeader.narrow]
  dsimp only [tableSection]
  rw [ElfClass.keep_of_lt _ hwords.1, hzero, ElfClass.keep_of_lt elfClass (by omega),
    ElfClass.keep_of_lt _ hwords.2.1, ElfClass.keep_of_lt _ hwords.2.2]

/-- Every section of the image is consistent. -/
theorem regular_sections (h : builder.image.Present d) :
    ∀ sec ∈ builder.image.sections, ElfImage.SectionRegular builder.elfClass sec := by
  intro sec hsec
  have hlen := length_data_le h hsec
  rw [sections_image, List.mem_cons, List.mem_append, List.mem_append, List.mem_map] at hsec
  rcases hsec with rfl | ⟨spec, -, rfl⟩ | hsec | hsec
  · exact regular_tableSection _ (by decide) (by decide) hlen
  · exact regular_tableSection _ (by decide) (by decide) hlen
  · unfold addDynamic at hsec
    split at hsec
    · exact absurd hsec List.not_mem_nil
    · simp only [List.nil_append, List.mem_cons, List.not_mem_nil, or_false] at hsec
      rcases hsec with rfl | rfl
      · exact regular_tableSection _ (by decide) (by decide) hlen
      · refine regular_tableSection _ (by decide) ⟨by decide, by decide, ?_⟩ hlen
        cases builder.elfClass <;> decide
  · unfold addRela at hsec
    split at hsec
    · exact absurd hsec List.not_mem_nil
    · obtain rfl := List.mem_singleton.1 hsec
      refine regular_tableSection _ (by decide) ⟨by decide, by decide, ?_⟩ hlen
      cases builder.elfClass <;> decide

/-- The image is consistent when its object type is in its named form. -/
theorem regular_image (h : builder.image.Present d) (hbuilder : builder.WellFormed)
    (htype : builder.elfType.normalize = builder.elfType) : builder.image.Regular := by
  have hwhole := whole_segments h hbuilder.allocated hbuilder.narrow
  have hsections := regular_sections h
  have hzero : builder.elfClass.keep 0 = 0 := ElfClass.keep_of_lt _ (by decide)
  have hheader : builder.image.header.Fits := by
    change builder.header.narrow = builder.header
    have hentry : builder.header.ident.elfClass.keep builder.header.entry = builder.entry :=
      entry_kept hbuilder.narrow
    have hopen : builder.header.ident.elfClass.keep 0 = 0 := hzero
    have htype' : builder.header.type.normalize = builder.elfType := htype
    rw [ElfHeader.narrow, hentry, htype']
    dsimp only [header] at hopen ⊢
    rw [hopen]
  exact
    { ident := rfl
      header := hheader
      segmentHeader := fun segment hmem => (hwhole segment hmem).fits
      segmentNull := fun segment hmem hnull => absurd hnull (hwhole segment hmem).type
      segmentData := fun segment hmem _ _ => (hwhole segment hmem).size.symm
      sectionHeader := fun sec hmem => (hsections sec hmem).header
      sectionNobits := fun sec hmem => (hsections sec hmem).nobits
      sectionData := fun sec hmem => (hsections sec hmem).data
      names := fun sec hmem => names_image hbuilder.noteNames hmem }

/-! ## The build repeats itself -/

/-- The builder with its object type in its named form. -/
def named (builder : ElfBuilder) : ElfBuilder :=
  { builder with elfType := builder.elfType.normalize }

/-- The bytes do not depend on the form of the object type. -/
theorem tryBuild_named (builder : ElfBuilder) :
    builder.named.image.tryBuild = builder.image.tryBuild := by
  have hheader : ∀ phoff shoff ehsize phentsize phnum shentsize shnum shstrndx,
      ({ builder.named.image.header with
        phoff, shoff, ehsize, phentsize, phnum, shentsize, shnum, shstrndx } : ElfHeader).write =
      ({ builder.image.header with
        phoff, shoff, ehsize, phentsize, phnum, shentsize, shnum
        shstrndx } : ElfHeader).write := by
    intros
    simp only [ElfHeader.write]
    rw [show builder.named.image.header.type = builder.elfType.normalize from rfl,
      ElfType.toU16_normalize]
    rfl
  unfold ElfImage.tryBuild
  simp only [hheader]
  rfl

theorem WellFormed.named (h : builder.WellFormed) : builder.named.WellFormed :=
  { allocated := ⟨h.allocated.loads, h.allocated.tls⟩
    narrow := fun hclass => ⟨(h.narrow hclass).entry, (h.narrow hclass).loads,
      (h.narrow hclass).tls⟩
    loads := h.loads
    nonempty := h.nonempty
    bounded := h.bounded
    disjoint := h.disjoint
    entry := h.entry
    noteNames := h.noteNames }

/-- The returned image is serialized to the bytes it was parsed from. -/
theorem tryBuild_parsed (hbuilder : builder.WellFormed) {image : ElfImage}
    {bytes : List UInt8} (hbytes : builder.image.tryBuild = .ok bytes)
    (hparse : ElfImage.parse bytes = .ok image) :
    image.tryBuild = .ok bytes := by
  have hnamed := hbuilder.named
  rw [← tryBuild_named] at hbytes
  have hident : builder.named.image.header.ident = builder.named.image.ident := rfl
  have hbuilt := ElfImage.tryBuild_eq_ok hbytes
  have hpresent : builder.named.image.Present bytes := by simpa using hbuilt.present hident []
  have hregular := regular_image hpresent hnamed (ElfType.normalize_fromU16 _)
  have hlen : (bytes ++ []).length ≤ isizeMax := by
    rw [List.append_nil]
    exact hbuilt.limit.trans (by decide)
  have hrebuilt := ElfImage.parse_build hident hregular.names hbytes hlen
  rw [List.append_nil, hparse, Except.ok.injEq] at hrebuilt
  rw [hrebuilt, ElfImage.tryBuild_rebuilt hpresent hregular, hbytes]

/-! ## The checks -/

section Checks

variable (h : builder.image.Present d) (hbuilder : builder.WellFormed)

include h hbuilder

theorem loads_unplaced : (imageOf d).loads.map Segment.unplaced =
    builder.loads.map LoadSpec.segment := by
  have hloads := ElfImage.filter_unplaced (imageOf d).segments SegmentType.load
  rw [unplaced_present h hbuilder.allocated hbuilder.narrow, filter_segments, if_pos rfl,
    if_neg (by decide), if_neg (by decide), if_neg (by decide), List.nil_append,
    List.nil_append, List.append_nil] at hloads
  exact hloads.symm

omit h in
/-- The size a load declares is that of its bytes. -/
theorem toNat_length_load {load : LoadSpec} (hmem : load ∈ builder.loads) :
    (u64OrZero load.data.length).toNat = load.data.length := by
  have hbounded := hbuilder.bounded load hmem
  exact toNat_u64OrZero (by omega)

/-- A load of the image is a configured one: its addresses, its size and its alignment. -/
theorem exists_load {segment : Segment} (hmem : segment ∈ (imageOf d).loads) :
    ∃ load ∈ builder.loads, segment.header.vaddr = load.vaddr ∧
      segment.header.align = load.align ∧
      segment.header.filesz.toNat = load.data.length ∧
      segment.header.memsz.toNat = load.data.length := by
  have hunplaced : segment.unplaced ∈ builder.loads.map LoadSpec.segment := by
    rw [← loads_unplaced h hbuilder]
    exact List.mem_map_of_mem hmem
  obtain ⟨load, hload, heq⟩ := List.mem_map.1 hunplaced
  have hheader := congrArg Segment.header heq.symm
  have hsize := toNat_length_load hbuilder hload
  have hfilesz : segment.header.filesz = u64OrZero load.data.length :=
    congrArg ProgramHeader.filesz hheader
  have hmemsz : segment.header.memsz = u64OrZero load.data.length :=
    congrArg ProgramHeader.memsz hheader
  refine ⟨load, hload, congrArg ProgramHeader.vaddr hheader,
    congrArg ProgramHeader.align hheader, ?_, ?_⟩
  · rw [hfilesz, hsize]
  · rw [hmemsz, hsize]

/-- No two loads of the image share an address. -/
theorem loads_apart : (imageOf d).loads.Pairwise fun s t =>
    ∀ i j, LoadRange.Apart (LoadRange.ofSegment s i) (LoadRange.ofSegment t j) := by
  have hrange : ∀ load ∈ builder.loads, ∀ i,
      (LoadRange.ofSegment load.segment i).start.toNat = load.vaddr.toNat ∧
      (LoadRange.ofSegment load.segment i).stop.toNat =
        load.vaddr.toNat + load.data.length := by
    intro load hload i
    have hbounded := hbuilder.bounded load hload
    have hsize := toNat_length_load hbuilder hload
    refine ⟨rfl, ?_⟩
    change (saturatingAdd load.vaddr (u64OrZero load.data.length)).toNat = _
    rw [toNat_saturatingAdd, hsize]
    omega
  have hapart : builder.loads.Pairwise fun a b => ∀ i j, LoadRange.Apart
      (LoadRange.ofSegment a.segment i) (LoadRange.ofSegment b.segment j) := by
    refine hbuilder.disjoint.imp_of_mem fun {a b} ha hb hdisjoint i j => ?_
    obtain ⟨hastart, hastop⟩ := hrange a ha i
    obtain ⟨hbstart, hbstop⟩ := hrange b hb j
    have hapos := List.length_pos_iff.2 (hbuilder.nonempty a ha)
    have hbpos := List.length_pos_iff.2 (hbuilder.nonempty b hb)
    rw [LoadRange.Apart, UInt64.lt_iff_toNat_lt, UInt64.lt_iff_toNat_lt,
      UInt64.le_iff_toNat_le, UInt64.le_iff_toNat_le]
    omega
  have hmapped : (builder.loads.map LoadSpec.segment).Pairwise fun s t => ∀ i j,
      LoadRange.Apart (LoadRange.ofSegment s i) (LoadRange.ofSegment t j) :=
    List.pairwise_map.2 hapart
  rw [← loads_unplaced h hbuilder, List.pairwise_map] at hmapped
  exact hmapped

/-- The entry point of the image is unset or inside it. -/
theorem entry_inside (hentry : (imageOf d).header.entry ≠ 0) :
    (imageOf d).entryOutside = false := by
  have hkept : (imageOf d).header.entry = builder.entry := by
    change (headerOf d).entry = builder.entry
    rw [h.laidOut.headerOf_eq]
    exact entry_kept hbuilder.narrow
  rcases hbuilder.entry with hzero | ⟨load, hload, hstart, hstop⟩
  · exact absurd (hkept.trans hzero) hentry
  have hunplaced : load.segment ∈ (imageOf d).loads.map Segment.unplaced := by
    rw [loads_unplaced h hbuilder]
    exact List.mem_map_of_mem hload
  obtain ⟨segment, hmem, heq⟩ := List.mem_map.1 hunplaced
  have hsize := toNat_length_load hbuilder hload
  have hbounded := hbuilder.bounded load hload
  have hpos := List.length_pos_iff.2 (hbuilder.nonempty load hload)
  obtain ⟨hsegment, hisLoad⟩ := List.mem_filter.1 hmem
  have hvaddr : segment.header.vaddr = load.vaddr :=
    congrArg (fun segment => segment.header.vaddr) heq
  have hmemsz : segment.header.memsz = u64OrZero load.data.length :=
    congrArg (fun segment => segment.header.memsz) heq
  have hne : segment.header.memsz ≠ 0 :=
    ne_zero_of_lt_toNat (hpos.trans_eq (hmemsz ▸ hsize).symm)
  obtain ⟨hbase, hend⟩ := ElfImage.span_encloses hsegment (beq_iff_eq.1 hisLoad) hne
  rw [hvaddr, hmemsz, hsize] at hend
  rw [hvaddr] at hbase
  have hspan : (imageOf d).imageBase.toNat + (imageOf d).imageSpan.toNat < 2 ^ 64 :=
    (geometry_describes _).stop_lt
  have hsum := toNat_add_of_lt hspan
  have hadd : checkedAdd (imageOf d).imageBase (imageOf d).imageSpan =
      some ((imageOf d).imageBase + (imageOf d).imageSpan) := checkedAdd_eq_some.2 hsum.symm
  rw [ElfImage.entryOutside, hadd, hkept]
  dsimp only
  rw [Bool.or_eq_false_iff, decide_eq_false_iff_not, decide_eq_false_iff_not,
    UInt64.lt_iff_toNat_lt, UInt64.le_iff_toNat_le, hsum]
  omega

/-- A load of the image has a file offset congruent with its address. -/
theorem load_congruent {segment : Segment} (hmem : segment ∈ (imageOf d).loads)
    (halign : 1 < segment.header.align) (hsize : 0 < segment.header.filesz) :
    segment.header.offset % segment.header.align =
      segment.header.vaddr % segment.header.align := by
  obtain ⟨hsegment, hload⟩ := List.mem_filter.1 hmem
  rcases List.mem_iff_getElem?.1 hsegment with ⟨i, hi⟩
  have hheader : (programHeadersOf d)[i]? = some segment.header := by
    obtain ⟨header, hheader, rfl⟩ := Option.map_eq_some_iff.1 (List.getElem?_map ▸ hi)
    exact hheader
  have hgiven : builder.image.segments[i]? = some segment.unplaced := by
    rw [← unplaced_present h hbuilder.allocated hbuilder.narrow, List.getElem?_map, hi,
      Option.map_some]
  have hwhole := whole_segments h hbuilder.allocated hbuilder.narrow _
    (List.mem_of_getElem? hgiven)
  have hne : segment.unplaced.written ≠ [] := by
    rw [hwhole.written_eq, ← List.length_pos_iff, ← hwhole.size]
    exact UInt64.lt_iff_toNat_lt.1 hsize
  have hleast := ElfImage.isLeast_offset h hgiven hload hne
    (UInt64.lt_iff_toNat_lt.1 halign) hheader
  rw [← UInt64.toNat_inj, UInt64.toNat_mod, UInt64.toNat_mod]
  exact hleast.1.2

omit hbuilder in
/-- The name table index of the image names a string table. -/
theorem stringTable_present : (imageOf d).stringTableValid = true := by
  have hne := sections_ne_nil builder
  obtain ⟨sec, hsec, hshstrtab⟩ := ElfImage.shstrndx_present h hne
  obtain ⟨sec', hsec', hread⟩ := exists_getElem?_of_forall₂ (ElfImage.sections_read h hne) hsec
  have hindex : (imageOf d).sections[(imageOf d).header.shstrndx.toNat]? = some sec' := hsec'
  rw [ElfImage.stringTableValid, hindex]
  dsimp only
  rw [hread.type, Section.type_of_isShstrtab hshstrtab, beq_self_eq_true]

/-- The image passes every check. -/
theorem unremarkable_present : (imageOf d).Unremarkable := by
  refine ⟨fun hnone => ?_, entry_inside h hbuilder,
    ElfImage.ranges_of_apart (loads_apart h hbuilder), fun segment hmem => ?_,
    fun segment hmem => load_congruent h hbuilder hmem, fun _ => stringTable_present h⟩
  · have hloads := loads_unplaced h hbuilder
    rw [hnone, List.map_nil, eq_comm, List.map_eq_nil_iff] at hloads
    exact hbuilder.loads hloads
  · obtain ⟨load, -, -, -, hfilesz, hmemsz⟩ := exists_load h hbuilder hmem
    rw [UInt64.le_iff_toNat_le, hfilesz, hmemsz]

end Checks

/-- What the builder returns has no issues, and serializing it and parsing the bytes gives
it back in every field. -/
theorem valid_of_tryBuild (hbuilder : builder.WellFormed) {image : ElfImage}
    (h : builder.tryBuild = .ok image) : image.validate.issues = [] ∧
      ∃ b, image.tryBuild = .ok b ∧ ElfImage.parse b = .ok image := by
  obtain ⟨bytes, hbytes, hparse⟩ := tryBuild_eq_ok h
  have hident : builder.image.header.ident = builder.image.ident := rfl
  have hbuilt := ElfImage.tryBuild_eq_ok hbytes
  have hpresent : builder.image.Present bytes := by simpa using hbuilt.present hident []
  have hlen : bytes.length ≤ isizeMax := hbuilt.limit.trans (by decide)
  have himage := ((parse_eq_ok hlen).1 hparse).2
  refine ⟨?_, bytes, tryBuild_parsed hbuilder hbytes hparse, hparse⟩
  rw [← himage]
  exact (unremarkable_present hpresent hbuilder).validate_eq

end ElfBuilder

/-- Two abutting loads, one with an alignment that is no power of two, and an entry point in
the second one. -/
def abuttingBuilder : ElfBuilder :=
  { mixedBuilder with
    entry := 0x1002
    loads := [⟨0x1000, SegmentFlags.read, 3, [0x90]⟩,
      ⟨0x1001, SegmentFlags.execute, 16, [0xf4, 0xc3]⟩]
    notes := [⟨"GNU", 3, [1]⟩] }

theorem abuttingBuilder_wellFormed : abuttingBuilder.WellFormed where
  allocated := ⟨by decide, by decide⟩
  narrow _ := ⟨by decide, by decide, by decide⟩
  loads := by decide
  nonempty := by decide
  bounded := by decide
  disjoint := by decide
  entry := by decide
  noteNames := by decide +kernel

theorem abuttingBuilder_valid : ∃ image, abuttingBuilder.tryBuild = .ok image ∧
    image.validate.issues = [] ∧ ∃ b, image.tryBuild = .ok b ∧ ElfImage.parse b = .ok image := by
  obtain ⟨image, himage⟩ := abuttingBuilder.exists_tryBuild (by decide +kernel)
  exact ⟨image, himage, ElfBuilder.valid_of_tryBuild abuttingBuilder_wellFormed himage⟩

end Elfex
