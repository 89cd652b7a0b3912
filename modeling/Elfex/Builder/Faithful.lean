import Elfex.Builder.DynamicCodec
import Elfex.Builder.MappedLoads
import Elfex.Builder.NoteCodec
import Elfex.Builder.RelaCodec
import Elfex.Image.Narrowing
import Elfex.Image.Whole

/-!
# A built image carries its configuration

Every element of a configuration is encoded by a serializer of its own, placed by the
build, and found again through a segment type or a section name. The elements that come
back are the configured ones.
-/

namespace Elfex

open Foundation

/-! ## The configuration -/

/-- The segment holds the load. -/
structure LoadSpec.HeldBy (load : LoadSpec) (segment : Segment) : Prop where
  type : segment.header.type = SegmentType.load
  vaddr : segment.header.vaddr = load.vaddr
  flags : segment.header.flags = load.flags
  align : segment.header.align = load.align
  data : segment.data = load.data

/-- The thread-local storage a template describes. -/
def TlsSpec.info (tls : TlsSpec) : TlsInfo where
  templateVaddr := tls.vaddr
  fileSize := UInt64.ofNat tls.data.length
  memSize := tls.memsz
  align := tls.align

namespace ElfBuilder

/-- The copied payloads are vectors. -/
structure Allocated (builder : ElfBuilder) : Prop where
  loads : ∀ load ∈ builder.loads, load.data.length ≤ isizeMax
  tls : ∀ tls ∈ builder.tls, tls.data.length ≤ isizeMax

/-- Every address, size and alignment fits 32 bits. -/
structure Narrow (builder : ElfBuilder) : Prop where
  entry : builder.entry.toNat < 2 ^ 32
  loads : ∀ load ∈ builder.loads, load.vaddr.toNat < 2 ^ 32 ∧ load.align.toNat < 2 ^ 32
  tls : ∀ tls ∈ builder.tls,
    tls.vaddr.toNat < 2 ^ 32 ∧ tls.memsz.toNat < 2 ^ 32 ∧ tls.align.toNat < 2 ^ 32

/-- A configuration that the tables can carry: the copied payloads are vectors, the names of
libraries hold no NUL, and the values fit the class. -/
structure Encodable (builder : ElfBuilder) : Prop where
  allocated : builder.Allocated
  narrow : builder.elfClass = .elf32 → builder.Narrow
  names : ∀ name ∈ builder.needed, 0 ∉ strBytes name
  relocations : ∀ entry ∈ builder.relocations, entry.FitsRela builder.elfClass

/-- The image carries the configuration, with the object type read as `type`. -/
structure Carries (builder : ElfBuilder) (type : ElfType) (image : ElfImage) : Prop where
  elfClass : image.ident.elfClass = builder.elfClass
  endian : image.ident.data = builder.endian
  osAbi : image.ident.osAbi = builder.osAbi
  announced : image.header.ident = image.ident
  type : image.header.type = type
  machine : image.header.machine = builder.machine
  entry : image.header.entry = builder.entry
  flags : image.header.flags = builder.flags
  loads : List.Forall₂ LoadSpec.HeldBy builder.loads
    (image.segments.take builder.loads.length)
  tls : image.tls = builder.tls.map TlsSpec.info
  notes : image.notes = .ok (builder.notes.map NoteSpec.note)
  needed : image.neededLibraries = .ok builder.needed
  relocations : image.relocations = .ok (if builder.relocations = [] then []
    else [{ entries := builder.relocations, isRela := true }])

variable {builder : ElfBuilder} {d : List UInt8}

/-! ## The sections of the image -/

/-- The sections of the image: the null section, then the sections of the tables. -/
theorem sections_image (builder : ElfBuilder) :
    builder.image.sections = nullSection ::
      (builder.notes.map (fun spec => spec.sec builder.endian) ++
        ((addDynamic builder.needed builder.endian builder.elfClass [] []).2 ++
          addRela builder.relocations builder.endian builder.elfClass [])) := by
  have hrela : ∀ sections, addRela builder.relocations builder.endian builder.elfClass sections =
      sections ++ addRela builder.relocations builder.endian builder.elfClass [] := by
    intro sections
    by_cases hnone : builder.relocations = []
    · simp [addRela, hnone]
    · simp [addRela, hnone]
  rw [image, addNotes]
  dsimp only
  rw [addDynamic_eq]
  dsimp only
  rw [hrela]
  simp

theorem sections_ne_nil (builder : ElfBuilder) : builder.image.sections ≠ [] := by
  rw [sections_image]
  exact List.cons_ne_nil _ _

theorem mem_addDynamic {needed : List String} {endian : Endian} {elfClass : ElfClass}
    {sec : Section} (h : sec ∈ (addDynamic needed endian elfClass [] []).2) :
    needed ≠ [] ∧ (sec.name = ".dynstr" ∧ sec.header.type = SectionType.strtab ∨
      sec.name = ".dynamic" ∧ sec.header.type = SectionType.dynamic) := by
  unfold addDynamic at h
  split at h
  · exact absurd h List.not_mem_nil
  · rename_i hne
    simp only [List.nil_append, List.mem_cons, List.not_mem_nil, or_false] at h
    rcases h with rfl | rfl
    · exact ⟨hne, Or.inl ⟨rfl, rfl⟩⟩
    · exact ⟨hne, Or.inr ⟨rfl, rfl⟩⟩

theorem mem_addRela {relocations : List RelocationEntry} {endian : Endian}
    {elfClass : ElfClass} {sec : Section} (h : sec ∈ addRela relocations endian elfClass []) :
    sec.name = ".rela.dyn" ∧ sec.header.type = SectionType.rela := by
  unfold addRela at h
  split at h
  · exact absurd h List.not_mem_nil
  · obtain rfl := List.mem_singleton.1 h
    exact ⟨rfl, rfl⟩

/-- No section of the image is a name table, and each is written whole. -/
theorem plain_sections {sec : Section} (h : sec ∈ builder.image.sections) :
    sec.isShstrtab = false ∧ sec.written = sec.data := by
  have hwritten : ∀ sec : Section, sec.header.type ≠ SectionType.nobits →
      sec.written = sec.data := by
    intro sec htype
    exact if_neg (by simpa [SectionHeader.isNobits] using htype)
  rw [sections_image, List.mem_cons, List.mem_append, List.mem_append, List.mem_map] at h
  rcases h with rfl | ⟨spec, -, rfl⟩ | h | h
  · exact ⟨by decide +kernel, rfl⟩
  · exact ⟨Bool.and_eq_false_iff.2 (Or.inr rfl), rfl⟩
  · obtain ⟨-, ⟨hname, htype⟩ | ⟨hname, htype⟩⟩ := mem_addDynamic h
    · refine ⟨?_, hwritten sec (by rw [htype]; decide)⟩
      rw [Section.isShstrtab, hname]
      exact Bool.and_eq_false_iff.2 (Or.inl (by decide +kernel))
    · refine ⟨?_, hwritten sec (by rw [htype]; decide)⟩
      rw [Section.isShstrtab, htype]
      exact Bool.and_false _
  · obtain ⟨hname, htype⟩ := mem_addRela h
    refine ⟨?_, hwritten sec (by rw [htype]; decide)⟩
    rw [Section.isShstrtab, htype]
    exact Bool.and_false _

theorem length_data_le (h : builder.image.Present d) {sec : Section}
    (hmem : sec ∈ builder.image.sections) : sec.data.length ≤ maxImage := by
  obtain ⟨hplain, hwritten⟩ := plain_sections hmem
  rw [← hwritten]
  exact ElfImage.length_section_le h hmem hplain

theorem length_note_le (h : builder.image.Present d) {spec : NoteSpec}
    (hmem : spec ∈ builder.notes) : (serializeNote spec builder.endian).length ≤ maxImage := by
  have hsec : spec.sec builder.endian ∈ builder.image.sections := by
    rw [sections_image]
    exact List.mem_cons_of_mem _ (List.mem_append_left _ (List.mem_map_of_mem hmem))
  exact length_data_le h hsec

/-- The sizes of every configured note fit their fields. -/
theorem note_fits (h : builder.image.Present d) {spec : NoteSpec}
    (hmem : spec ∈ builder.notes) : spec.Fits := by
  have hmax : maxImage < 2 ^ 32 := by decide
  have hlen := length_note_le h hmem
  have hname := length_padTo4 (strBytes spec.name ++ [0])
  have hdescriptor := length_padTo4 spec.descriptor
  rw [serializeNote_eq, List.length_append, List.length_append, hname, hdescriptor,
    List.length_append, List.length_singleton] at hlen
  exact ⟨by omega, by omega⟩

theorem sections_dynamic (hne : builder.needed ≠ []) :
    ∃ entsize, (addDynamic builder.needed builder.endian builder.elfClass [] []).2 = [
      tableSection ".dynstr" SectionType.strtab SectionFlags.alloc 1 0 (dynstr builder.needed),
      tableSection ".dynamic" SectionType.dynamic (SectionFlags.alloc ||| SectionFlags.write)
        8 entsize (serializeDynamic builder.needed builder.endian builder.elfClass)] := by
  unfold addDynamic
  rw [if_neg hne]
  exact ⟨_, rfl⟩

theorem segments_dynamic (hne : builder.needed ≠ []) :
    (addDynamic builder.needed builder.endian builder.elfClass [] []).1 =
      [tableSegment SegmentType.dynamic (SegmentFlags.read ||| SegmentFlags.write) 8
        (serializeDynamic builder.needed builder.endian builder.elfClass)] := by
  unfold addDynamic
  rw [if_neg hne]
  rfl

theorem length_dynamic_le (h : builder.image.Present d) (hne : builder.needed ≠ []) :
    (dynstr builder.needed).length ≤ maxImage ∧
      (serializeDynamic builder.needed builder.endian builder.elfClass).length ≤ maxImage := by
  obtain ⟨entsize, hsections⟩ := sections_dynamic hne
  have hmem : ∀ sec ∈ (addDynamic builder.needed builder.endian builder.elfClass [] []).2,
      sec ∈ builder.image.sections := by
    intro sec hsec
    rw [sections_image]
    exact List.mem_cons_of_mem _ (List.mem_append_right _ (List.mem_append_left _ hsec))
  rw [hsections] at hmem
  exact ⟨length_data_le h (hmem _ List.mem_cons_self),
    length_data_le h (hmem _ (List.mem_cons_of_mem _ List.mem_cons_self))⟩

/-! ## The segments of the image -/

/-- A segment with an open offset is whole when its fields fit the class. -/
theorem whole_of_fits {segment : Segment} {elfClass : ElfClass}
    (htype : segment.header.type ≠ SegmentType.null) (hoffset : segment.header.offset = 0)
    (hpaddr : segment.header.paddr = segment.header.vaddr)
    (hsize : segment.header.filesz.toNat = segment.data.length)
    (hlen : segment.data.length < 2 ^ 32)
    (hwords : elfClass = .elf32 → segment.header.vaddr.toNat < 2 ^ 32 ∧
      segment.header.memsz.toNat < 2 ^ 32 ∧ segment.header.align.toNat < 2 ^ 32) :
    segment.Whole elfClass := by
  refine ⟨?_, htype, hsize⟩
  cases elfClass with
  | elf64 => rfl
  | elf32 =>
      obtain ⟨hvaddr, hmemsz, halign⟩ := hwords rfl
      have hzero : segment.header.offset.toNat < 2 ^ 32 := by rw [hoffset]; decide
      rw [ProgramHeader.Fits, ProgramHeader.narrow, ElfClass.keep_of_lt _ hzero,
        ElfClass.keep_of_lt _ hvaddr, ElfClass.keep_of_lt _ (hpaddr ▸ hvaddr),
        ElfClass.keep_of_lt _ (hsize ▸ hlen), ElfClass.keep_of_lt _ hmemsz,
        ElfClass.keep_of_lt _ halign]

theorem whole_tableSegment {type : SegmentType} {flags : SegmentFlags} {align : UInt64}
    {data : List UInt8} {elfClass : ElfClass} (htype : type ≠ SegmentType.null)
    (halign : align.toNat < 2 ^ 32) (hlen : data.length ≤ maxImage) :
    (tableSegment type flags align data).Whole elfClass := by
  have hmax : maxImage < 2 ^ 32 := by decide
  have hsize : (u64OrZero data.length).toNat = data.length := toNat_u64OrZero (by omega)
  have hdata : data.length < 2 ^ 32 := by omega
  exact whole_of_fits htype rfl rfl hsize hdata
    fun _ => ⟨(by decide : (0 : UInt64).toNat < 2 ^ 32), hsize.symm ▸ hdata, halign⟩

theorem length_written_le {segment : Segment} (h : builder.image.Present d)
    (hmem : segment ∈ builder.image.segments)
    (hsize : segment.header.filesz.toNat = segment.data.length) :
    segment.data.length ≤ maxImage := by
  have hwritten : segment.written = segment.data := by
    rw [Segment.written, hsize, Nat.min_self, List.take_length]
  rw [← hwritten]
  exact ElfImage.length_segment_le h hmem

/-- Every segment of the image is whole. -/
theorem whole_segments (h : builder.image.Present d) (hvectors : builder.Allocated)
    (hnarrow : builder.elfClass = .elf32 → builder.Narrow) :
    ∀ segment ∈ builder.image.segments, segment.Whole builder.image.ident.elfClass := by
  have hmax : maxImage < 2 ^ 32 := by decide
  have hisize : isizeMax < 2 ^ 64 := by decide
  intro segment hsegment
  have hmem := hsegment
  rw [segments_image, List.mem_append, List.mem_append, List.mem_append, List.mem_map] at hmem
  rcases hmem with ⟨load, hload, rfl⟩ | hmem | hmem | hmem
  · have hsize : (u64OrZero load.data.length).toNat = load.data.length :=
      toNat_u64OrZero ((hvectors.loads load hload).trans_lt hisize)
    have hlen : load.data.length ≤ maxImage := length_written_le h hsegment hsize
    have hdata : load.data.length < 2 ^ 32 := by omega
    have htype : SegmentType.load ≠ SegmentType.null := by decide
    refine whole_of_fits htype rfl rfl hsize hdata fun hclass => ?_
    obtain ⟨hvaddr, halign⟩ := (hnarrow hclass).loads load hload
    exact ⟨hvaddr, hsize.symm ▸ hdata, halign⟩
  · obtain ⟨tls, htls, rfl⟩ := Option.map_eq_some_iff.1 (Option.mem_toList.1 hmem)
    have hsize : (u64OrZero tls.data.length).toNat = tls.data.length :=
      toNat_u64OrZero ((hvectors.tls tls htls).trans_lt hisize)
    have hlen : tls.data.length ≤ maxImage := length_written_le h hsegment hsize
    have hdata : tls.data.length < 2 ^ 32 := by omega
    have htype : SegmentType.tls ≠ SegmentType.null := by decide
    exact whole_of_fits htype rfl rfl hsize hdata fun hclass => (hnarrow hclass).tls tls htls
  · obtain ⟨spec, hspec, rfl⟩ := List.mem_map.1 hmem
    exact whole_tableSegment (by decide) (by decide) (length_note_le h hspec)
  · unfold addDynamic at hmem
    split at hmem
    · exact absurd hmem List.not_mem_nil
    · rename_i hne
      obtain rfl := List.mem_singleton.1 hmem
      exact whole_tableSegment (by decide) (by decide) (length_dynamic_le h hne).2

/-! ## What is found again -/

theorem filter_of_type {segments : List Segment} {given : SegmentType}
    (h : ∀ segment ∈ segments, segment.header.type = given) (type : SegmentType) :
    segments.filter (fun segment => segment.header.type == type) =
      if given = type then segments else [] := by
  split
  · rename_i heq
    exact List.filter_eq_self.2 fun segment hmem => beq_iff_eq.2 ((h segment hmem).trans heq)
  · rename_i hne
    refine List.filter_eq_nil_iff.2 fun segment hmem hmatch => hne ?_
    rw [← h segment hmem]
    exact beq_iff_eq.1 hmatch

/-- The segments of the image by type. -/
theorem filter_segments (builder : ElfBuilder) (type : SegmentType) :
    builder.image.segments.filter (fun segment => segment.header.type == type) =
      (if SegmentType.load = type then builder.loads.map LoadSpec.segment else []) ++
        ((if SegmentType.tls = type then (builder.tls.map TlsSpec.segment).toList else []) ++
          ((if SegmentType.note = type then
              builder.notes.map (fun spec => spec.segment builder.endian) else []) ++
            if SegmentType.dynamic = type then
              (addDynamic builder.needed builder.endian builder.elfClass [] []).1 else [])) := by
  rw [segments_image, List.filter_append, List.filter_append, List.filter_append,
    filter_of_type, filter_of_type, filter_of_type, filter_of_type]
  · intro segment hmem
    unfold addDynamic at hmem
    split at hmem
    · exact absurd hmem List.not_mem_nil
    · rw [List.mem_singleton.1 hmem]
      rfl
  · intro segment hmem
    obtain ⟨spec, -, rfl⟩ := List.mem_map.1 hmem
    rfl
  · intro segment hmem
    obtain ⟨tls, -, rfl⟩ := Option.map_eq_some_iff.1 (Option.mem_toList.1 hmem)
    rfl
  · intro segment hmem
    obtain ⟨load, -, rfl⟩ := List.mem_map.1 hmem
    rfl

/-- The offsets of the image are open. -/
theorem unplaced_image (builder : ElfBuilder) :
    builder.image.segments.map Segment.unplaced = builder.image.segments := by
  rw [map_eq_self_iff]
  intro segment hmem
  rw [segments_image, List.mem_append, List.mem_append, List.mem_append, List.mem_map] at hmem
  rcases hmem with ⟨load, -, rfl⟩ | hmem | hmem | hmem
  · rfl
  · obtain ⟨tls, -, rfl⟩ := Option.map_eq_some_iff.1 (Option.mem_toList.1 hmem)
    rfl
  · obtain ⟨spec, -, rfl⟩ := List.mem_map.1 hmem
    rfl
  · unfold addDynamic at hmem
    split at hmem
    · exact absurd hmem List.not_mem_nil
    · rw [List.mem_singleton.1 hmem]
      rfl

/-- The section of a note is not taken for the string table, whatever the note's name. -/
theorem readName_note_ne (name : String) :
    StringTable.readName (".note." ++ name) ≠ ".dynstr" := by
  intro heq
  have hbytes : StringTable.untilNul (strBytes (".note." ++ name)) =
      strBytes ".note." ++ StringTable.untilNul (strBytes name) := by
    rw [strBytes_append, StringTable.untilNul_eq_takeWhile, StringTable.untilNul_eq_takeWhile,
      List.takeWhile_append_of_pos]
    decide +kernel
  rw [StringTable.readName, hbytes] at heq
  cases hname : fromUtf8 (strBytes ".note." ++ StringTable.untilNul (strBytes name)) with
  | none =>
      rw [hname] at heq
      exact absurd heq (by decide +kernel)
  | some found =>
      rw [hname, Option.getD_some] at heq
      have hfound := strBytes_of_fromUtf8 hname
      have hsecond : (strBytes ".dynstr")[1]? = (strBytes ".note.")[1]? := by
        rw [← heq, hfound, List.getElem?_append_left (by decide +kernel)]
      exact absurd hsecond (by decide +kernel)

/-- Each serialized note is read back by itself. -/
theorem mapM_parseAll {endian : Endian} {specs : List NoteSpec}
    (h : ∀ spec ∈ specs, spec.Fits ∧ (serializeNote spec endian).length ≤ maxImage) :
    (specs.map fun spec => serializeNote spec endian).mapM
        (fun data => Note.parseAll 64 data endian) =
      .ok (specs.map fun spec => [spec.note]) := by
  induction specs with
  | nil => rfl
  | cons spec specs ih =>
      rw [List.forall_mem_cons] at h
      obtain ⟨⟨hfits, hlen⟩, hrest⟩ := h
      have hmax : maxImage < 2 ^ 63 := by decide
      have hone := parseAll_serializeNotes 64 (Or.inr rfl) endian [spec]
        (List.forall_mem_singleton.2 hfits) (by
          rw [serializeNotes, List.flatMap_singleton]
          omega)
      rw [serializeNotes, List.flatMap_singleton] at hone
      rw [List.map_cons, List.mapM_cons, hone, Outcome.ok_bind, ih hrest]
      rfl

/-- The string table of the needed libraries is found by its name. -/
theorem find?_dynstr (hne : builder.needed ≠ []) :
    (builder.image.sections.find? fun sec => StringTable.readName sec.name == ".dynstr") =
      some (tableSection ".dynstr" SectionType.strtab SectionFlags.alloc 1 0
        (dynstr builder.needed)) := by
  obtain ⟨entsize, hsections⟩ := sections_dynamic hne
  have hnotes : (builder.notes.map fun spec => spec.sec builder.endian).find?
      (fun sec => StringTable.readName sec.name == ".dynstr") = none := by
    rw [List.find?_eq_none]
    intro sec hsec
    obtain ⟨spec, -, rfl⟩ := List.mem_map.1 hsec
    rw [beq_iff_eq]
    exact readName_note_ne spec.name
  have hnull : (StringTable.readName nullSection.name == ".dynstr") = false := by decide +kernel
  have hfirst : (StringTable.readName (tableSection ".dynstr" SectionType.strtab
      SectionFlags.alloc 1 0 (dynstr builder.needed)).name == ".dynstr") = true := by
    have hnul : 0 ∉ strBytes ".dynstr" := by decide +kernel
    exact beq_iff_eq.2 (StringTable.readName_of_notMem hnul)
  rw [sections_image, List.find?_cons, hnull, List.find?_append, hnotes, Option.none_or,
    hsections, List.cons_append, List.find?_cons, hfirst]

/-- The note sections of the image hold the serialized notes. -/
theorem noteSections_image (builder : ElfBuilder) :
    (builder.image.sections.filter fun sec => sec.header.type == SectionType.note).map
        Section.written =
      builder.notes.map fun spec => serializeNote spec builder.endian := by
  have hnull : (nullSection.header.type == SectionType.note) = false := by decide
  have hnotes : (builder.notes.map fun spec => spec.sec builder.endian).filter
      (fun sec => sec.header.type == SectionType.note) =
        builder.notes.map fun spec => spec.sec builder.endian := by
    refine List.filter_eq_self.2 fun sec hsec => ?_
    obtain ⟨spec, -, rfl⟩ := List.mem_map.1 hsec
    rfl
  have hdynamic : (addDynamic builder.needed builder.endian builder.elfClass [] []).2.filter
      (fun sec => sec.header.type == SectionType.note) = [] := by
    refine List.filter_eq_nil_iff.2 fun sec hsec => ?_
    obtain ⟨-, ⟨-, htype⟩ | ⟨-, htype⟩⟩ := mem_addDynamic hsec
    · rw [htype]
      decide
    · rw [htype]
      decide
  have hrela : (addRela builder.relocations builder.endian builder.elfClass []).filter
      (fun sec => sec.header.type == SectionType.note) = [] := by
    refine List.filter_eq_nil_iff.2 fun sec hsec => ?_
    rw [(mem_addRela hsec).2]
    decide
  rw [sections_image, List.filter_cons, hnull, List.filter_append, List.filter_append, hnotes,
    hdynamic, hrela, List.append_nil, List.append_nil, if_neg Bool.false_ne_true, List.map_map]
  rfl

/-- The one relocation section of the image, if there is one. -/
theorem relocationSections_image (builder : ElfBuilder) :
    (builder.image.sections.filterMap fun sec =>
      (ElfImage.relocationForm sec.header).map fun isRela => (sec.written, isRela)) =
        if builder.relocations = [] then [] else
          [(serializeRela builder.relocations builder.endian builder.elfClass, true)] := by
  have hplain : ∀ sec : Section, sec.header.type ≠ SectionType.rela →
      sec.header.type ≠ SectionType.rel → ElfImage.relocationForm sec.header = none := by
    intro sec hrela hrel
    rw [ElfImage.relocationForm, if_neg hrela, if_neg hrel]
  have hothers : (nullSection :: (builder.notes.map (fun spec => spec.sec builder.endian) ++
      (addDynamic builder.needed builder.endian builder.elfClass [] []).2)).filterMap
        (fun sec => (ElfImage.relocationForm sec.header).map fun isRela =>
          (sec.written, isRela)) = [] := by
    refine List.filterMap_eq_nil_iff.2 fun sec hsec => ?_
    have htype : sec.header.type ≠ SectionType.rela ∧ sec.header.type ≠ SectionType.rel := by
      rw [List.mem_cons, List.mem_append, List.mem_map] at hsec
      rcases hsec with rfl | ⟨spec, -, rfl⟩ | hsec
      · decide
      · exact (by decide : SectionType.note ≠ SectionType.rela ∧
          SectionType.note ≠ SectionType.rel)
      · obtain ⟨-, ⟨-, htype⟩ | ⟨-, htype⟩⟩ := mem_addDynamic hsec
        · rw [htype]
          decide
        · rw [htype]
          decide
    rw [hplain sec htype.1 htype.2]
    rfl
  rw [sections_image, ← List.append_assoc, ← List.cons_append, List.filterMap_append, hothers,
    List.nil_append]
  unfold addRela
  split
  · rfl
  · rfl

section Found

variable (h : builder.image.Present d) (hvectors : builder.Allocated)
  (hnarrow : builder.elfClass = .elf32 → builder.Narrow)

include h hvectors hnarrow

theorem unplaced_present :
    (imageOf d).segments.map Segment.unplaced = builder.image.segments := by
  rw [ElfImage.segments_read h (whole_segments h hvectors hnarrow), unplaced_image]

theorem loads_present : List.Forall₂ LoadSpec.HeldBy builder.loads
    ((imageOf d).segments.take builder.loads.length) := by
  have htake : ((imageOf d).segments.take builder.loads.length).map Segment.unplaced =
      builder.loads.map LoadSpec.segment := by
    rw [List.map_take, unplaced_present h hvectors hnarrow, segments_image,
      List.take_left' (List.length_map _)]
  have hsame : List.Forall₂ (fun load segment => segment.unplaced = LoadSpec.segment load)
      builder.loads ((imageOf d).segments.take builder.loads.length) := by
    rw [← List.forall₂_eq_eq_eq, List.forall₂_map_left_iff, List.forall₂_map_right_iff] at htake
    exact htake.flip
  refine hsame.imp fun load segment heq => ?_
  have hheader := congrArg Segment.header heq
  exact ⟨congrArg ProgramHeader.type hheader, congrArg ProgramHeader.vaddr hheader,
    congrArg ProgramHeader.flags hheader, congrArg ProgramHeader.align hheader,
    congrArg Segment.data heq⟩

theorem tls_present : (imageOf d).tls = builder.tls.map TlsSpec.info := by
  have hisize : isizeMax < 2 ^ 64 := by decide
  rw [ElfImage.tls_eq, unplaced_present h hvectors hnarrow, ← List.head?_filter,
    filter_segments, if_neg (by decide), if_pos rfl, if_neg (by decide), if_neg (by decide)]
  cases htls : builder.tls with
  | none => rfl
  | some tls =>
      have hlen := (hvectors.tls tls htls).trans_lt hisize
      simp only [List.nil_append, List.append_nil, Option.map_some, Option.toList_some,
        List.head?_cons, TlsSpec.info, TlsInfo.fromHeader, TlsSpec.segment, u64OrZero,
        if_pos hlen]

end Found

theorem noteSources_present (h : builder.image.Present d) : (imageOf d).noteSources =
    builder.notes.map fun spec => serializeNote spec builder.endian := by
  have hsegments : ((imageOf d).segments.filter fun segment =>
      segment.header.type == SegmentType.note).map Segment.data =
        builder.notes.map fun spec => serializeNote spec builder.endian := by
    rw [ElfImage.filter_carried h (by decide), filter_segments, if_neg (by decide),
      if_neg (by decide), if_pos rfl, if_neg (by decide), List.nil_append, List.nil_append,
      List.append_nil, List.map_map]
    refine List.map_congr_left fun spec hspec => ?_
    have hwhole : (spec.segment builder.endian).Whole builder.elfClass :=
      whole_tableSegment (by decide) (by decide) (length_note_le h hspec)
    exact hwhole.written_eq
  rw [ElfImage.noteSources]
  split
  · rename_i hnone
    -- without segments there are no notes, and so no note sections
    rw [hnone, List.map_nil, eq_comm, List.map_eq_nil_iff] at hsegments
    rw [ElfImage.noteSections_read h, noteSections_image, hsegments, List.map_nil]
  · exact hsegments

theorem notes_present (h : builder.image.Present d) :
    (imageOf d).notes = .ok (builder.notes.map NoteSpec.note) := by
  have hident : (imageOf d).ident = builder.ident := (ElfImage.ident_present h).2.2.2
  have hparse : (builder.notes.map fun spec => serializeNote spec builder.endian).mapM
      (fun data => Note.parseAll 64 data builder.endian) =
        .ok (builder.notes.map fun spec => [spec.note]) :=
    mapM_parseAll fun spec hspec => ⟨note_fits h hspec, length_note_le h hspec⟩
  rw [ElfImage.notes, noteSources_present h, hident]
  have hflatten : (builder.notes.map fun spec => [spec.note]).flatten =
      builder.notes.map NoteSpec.note := by
    rw [← List.flatMap_def, List.map_eq_flatMap]
  refine (congrArg (· >>= fun notes => pure notes.flatten) hparse).trans ?_
  rw [Outcome.ok_bind, hflatten]
  rfl

/-- The dynamic table is the one of the needed libraries. -/
theorem dynamic_present (h : builder.image.Present d) : (imageOf d).dynamic =
    if builder.needed = [] then .ok none else do
      let table ← DynamicTable.parse
        (serializeDynamic builder.needed builder.endian builder.elfClass) builder.endian
        builder.elfClass
      return some table := by
  have hident : (imageOf d).ident = builder.ident := (ElfImage.ident_present h).2.2.2
  rw [ElfImage.dynamic_eq, ElfImage.filter_carried h (by decide), filter_segments,
    if_neg (by decide), if_neg (by decide), if_neg (by decide), if_pos rfl, List.nil_append,
    List.nil_append, List.nil_append, hident]
  by_cases hne : builder.needed = []
  · unfold addDynamic
    rw [if_pos hne, if_pos hne]
    rfl
  · have hwhole : (tableSegment SegmentType.dynamic (SegmentFlags.read ||| SegmentFlags.write) 8
        (serializeDynamic builder.needed builder.endian builder.elfClass)).Whole
          builder.elfClass :=
      whole_tableSegment (by decide) (by decide) (length_dynamic_le h hne).2
    rw [if_neg hne, segments_dynamic hne, List.map_singleton, hwhole.written_eq]
    rfl

theorem needed_present (h : builder.image.Present d)
    (hnames : ∀ name ∈ builder.needed, 0 ∉ strBytes name) :
    (imageOf d).neededLibraries = .ok builder.needed := by
  rw [ElfImage.neededLibraries, dynamic_present h]
  by_cases hne : builder.needed = []
  · rw [if_pos hne, hne]
    rfl
  · have hmax : maxImage < 2 ^ 32 := by decide
    have hlen := (length_dynamic_le h hne).1.trans_lt hmax
    obtain ⟨table, hparse, hneeded⟩ :=
      needed_serializeDynamic hlen builder.endian builder.elfClass hnames
    have hfound := ElfImage.sectionByName_read h (show ".dynstr" ≠ ".shstrtab" by decide +kernel)
    rw [find?_dynstr hne, Option.map_some] at hfound
    rw [if_neg hne, hparse, Outcome.ok_bind]
    change Except.ok (table.needed
      ((((imageOf d).sectionByName ".dynstr").map Section.data).getD [])) = _
    rw [hfound, Option.getD_some]
    exact congrArg Except.ok hneeded

/-- The relocations of the file are what the one table is parsed to. -/
theorem relocations_parsed (h : builder.image.Present d) :
    (imageOf d).relocations = if builder.relocations = [] then .ok [] else do
      let table ← RelocationSection.parse
        (serializeRela builder.relocations builder.endian builder.elfClass) true
        builder.endian builder.elfClass
      return [table] := by
  rw [ElfImage.relocations_read h, relocationSections_image]
  split
  · rfl
  · rw [List.mapM_cons]
    rfl

theorem relocations_present (h : builder.image.Present d)
    (hfits : ∀ entry ∈ builder.relocations, entry.FitsRela builder.elfClass) :
    (imageOf d).relocations = .ok (if builder.relocations = [] then []
      else [{ entries := builder.relocations, isRela := true }]) := by
  rw [relocations_parsed h, parse_serializeRela builder.endian builder.elfClass hfits]
  split
  · rfl
  · rfl

theorem entry_kept (hnarrow : builder.elfClass = .elf32 → builder.Narrow) :
    builder.elfClass.keep builder.entry = builder.entry := by
  cases hclass : builder.elfClass with
  | elf64 => rfl
  | elf32 => exact ElfClass.keep_of_lt _ (hnarrow hclass).entry

/-- What the builder returns carries its configuration. The object type is read back in its
named form. -/
theorem carries_of_tryBuild (hbuilder : builder.Encodable) {image : ElfImage}
    (h : builder.tryBuild = .ok image) : builder.Carries builder.elfType.normalize image := by
  obtain ⟨d, hpresent, rfl⟩ := exists_present h
  obtain ⟨hvectors, hnarrow, hnames, hrelocations⟩ := hbuilder
  have hident : (imageOf d).ident = builder.ident := (ElfImage.ident_present hpresent).2.2.2
  have hheader : (imageOf d).header = builder.image.builtHeader.narrow :=
    hpresent.laidOut.headerOf_eq
  exact
    { elfClass := by rw [hident]; rfl
      endian := by rw [hident]; rfl
      osAbi := by rw [hident]; rfl
      announced := by rw [hheader, hident]; rfl
      type := by rw [hheader]; rfl
      machine := by rw [hheader]; rfl
      entry := by rw [hheader]; exact entry_kept hnarrow
      flags := by rw [hheader]; rfl
      loads := loads_present hpresent hvectors hnarrow
      tls := tls_present hpresent hvectors hnarrow
      notes := notes_present hpresent
      needed := needed_present hpresent hnames
      relocations := relocations_present hpresent hrelocations }

end ElfBuilder

/-- A builder of the narrow class with one element of each kind. -/
def mixedBuilder : ElfBuilder where
  elfClass := .elf32
  endian := .big
  elfType := .dyn
  machine := Machine.i386
  entry := 0x1000
  osAbi := 3
  flags := 1
  loads := [⟨0x1000, SegmentFlags.read, 16, [0xf4]⟩]
  notes := [⟨"a\x00", 7, [1]⟩]
  relocations := [⟨0x1000, 1, 8, some (-1)⟩]
  tls := some ⟨0x1000, [], 4, 4⟩
  needed := ["c", "m"]

theorem mixedBuilder_encodable : mixedBuilder.Encodable where
  allocated := ⟨by decide, by decide⟩
  narrow _ := ⟨by decide, by decide, by decide⟩
  names := by decide +kernel
  relocations := List.forall_mem_singleton.2 ⟨by decide, by decide, by decide, -1, rfl, by decide⟩

theorem mixedBuilder_carried :
    ∃ image, mixedBuilder.tryBuild = .ok image ∧ mixedBuilder.Carries .dyn image := by
  obtain ⟨image, himage⟩ := mixedBuilder.exists_tryBuild (by decide +kernel)
  exact ⟨image, himage, ElfBuilder.carries_of_tryBuild mixedBuilder_encodable himage⟩

/-- A builder of an executable whose type is given by its number. -/
def numberedBuilder : ElfBuilder := { ElfBuilder.new with elfType := .other 2 }

/-- The type comes back as a named one. -/
theorem numberedBuilder_renamed :
    numberedBuilder.Encodable ∧ ∃ image, numberedBuilder.tryBuild = .ok image ∧
      ¬numberedBuilder.Carries numberedBuilder.elfType image := by
  refine ⟨⟨⟨by decide, by decide⟩, fun hclass => absurd hclass (by decide), by decide,
    fun _ hmem => absurd hmem List.not_mem_nil⟩, ?_⟩
  have hview : (numberedBuilder.tryBuild >>= fun image => pure image.header.type) =
      .ok .exec := by decide +kernel
  obtain ⟨image, himage, htype⟩ := Outcome.bind_eq_ok.1 hview
  refine ⟨image, himage, fun hcarries => ?_⟩
  have hsame : ElfType.exec = .other 2 := (Except.ok.inj htype).symm.trans hcarries.type
  cases hsame

end Elfex
