import Mathlib.Data.List.ReduceOption
import Elfex.Image.Grammar

/-!
# What a mapped source describes

A lenient read fills its buffer from the memory behind the reader up to the first
missing byte. The image a mapped byte string describes is stated over the bytes, with
zeros past their end, and the parser of the mapped layout is shown to return it exactly
when the headers lie inside the bytes and every segment's size is allowed.
-/

namespace Elfex

open Foundation

/-! ## Lenient reads -/

section Lenient

variable {reader : Reader} {memory : Memory UInt8}

/-- The loop of a lenient read, from a filled part on, fills the rest up to the first
missing byte. Only a source resident at the last address can make it fault. -/
theorem readLenientLoop_spec (h : reader.Serves memory) (offset : UInt64)
    (filled rest : List UInt8) (hlen : filled.length + rest.length < 2 ^ 64)
    (hfilled : memory.run offset.toNat filled.length = filled) :
    readLenientLoop reader offset filled rest =
        .ok (filled ++ memory.fill (offset.toNat + filled.length) rest) ∨
      (readLenientLoop reader offset filled rest = Outcome.fault ∧
        memory.get? (2 ^ 64 - 1) ≠ none) := by
  induction hn : rest.length using Nat.strong_induction_on generalizing filled rest with
  | _ n ih =>
      subst hn
      have hcomplete : (memory.run offset.toNat filled.length).length = filled.length := by
        rw [hfilled]
      have hofNat : (UInt64.ofNat filled.length).toNat = filled.length :=
        toNat_ofNat_of_lt (by omega)
      rw [readLenientLoop]
      by_cases hrest : rest = []
      · left
        rw [dif_pos hrest, hrest, Memory.fill, List.length_nil, Memory.run_zero,
          List.drop_nil, List.append_nil, List.append_nil]
      rw [dif_neg hrest]
      have hpos := List.length_pos_iff.2 hrest
      by_cases hfit : offset.toNat + (UInt64.ofNat filled.length).toNat < 2 ^ 64
      · rw [Outcome.add_of_lt hfit, Outcome.ok_bind]
        have hcurrent : offset.toNat + filled.length =
            (offset + UInt64.ofNat filled.length).toNat := by
          rw [toNat_add_of_lt hfit, hofNat]
        rw [hcurrent]
        generalize offset + UInt64.ofNat filled.length = current at hcurrent ⊢
        dsimp only
        by_cases hnone : memory.get? current.toNat = none
        · left
          rw [Memory.fill_of_missing hnone]
          rcases h.missing current rest hrest hnone with hread | ⟨e, hread⟩
          · simp only [hread, dif_pos]
          · simp only [hread]
        · obtain ⟨count, hcount, hle, hread⟩ := h.resident current rest hrest hnone
          have hbound := hle.trans (memory.length_run_le _ _)
          have hrun : (memory.run current.toNat count.toNat).length = count.toNat :=
            memory.length_run_of_le _ hle
          have hne : count ≠ 0 := ne_zero_of_lt_toNat hcount
          -- a read of part of the run leaves the rest of it to the next round
          have hsplit := Memory.fill_split hrun hbound
          simp only [hread, dif_neg hne,
            if_neg (by omega : ¬2 ^ 64 ≤ filled.length + count.toNat),
            List.take_append_of_le_length hrun.ge, List.take_of_length_le hrun.le,
            List.drop_append_of_le_length hrun.ge, List.drop_eq_nil_of_le hrun.le,
            List.nil_append]
          have hstep := ih _ (by rw [List.length_drop]; omega)
            (filled ++ memory.run current.toNat count.toNat) (rest.drop count.toNat)
            (by
              rw [List.length_append, hrun, List.length_drop]
              omega)
            (by
              rw [List.length_append, hrun, memory.run_add _ _ hcomplete, hfilled, hcurrent])
            rfl
          rwa [List.length_append, hrun, ← Nat.add_assoc, hcurrent, List.append_assoc,
            ← hsplit] at hstep
      · right
        refine ⟨?_, fun hlast => ?_⟩
        · rw [Outcome.add_of_not_lt hfit]
          rfl
        · -- the filled part would end after the last address
          have hoffset := offset.toNat_lt
          have hresident := (memory.length_run_eq_iff offset.toNat filled.length).1 hcomplete
            (2 ^ 64 - 1 - offset.toNat) (by omega)
          rw [Nat.add_sub_of_le (by omega)] at hresident
          exact hresident hlast

theorem readLenient_eq_fill (h : reader.Serves memory) {offset : UInt64}
    {buffer out : List UInt8} (hlen : buffer.length < 2 ^ 64)
    (hread : readLenient reader offset buffer = .ok out) :
    out = memory.fill offset.toNat buffer := by
  rw [readLenient] at hread
  rcases readLenientLoop_spec h offset [] buffer (by simpa using hlen) rfl with
    hspec | ⟨hspec, -⟩
  · rw [hspec] at hread
    exact (Except.ok.inj hread).symm
  · rw [hspec] at hread
    cases hread

theorem readLenient_eq_ok (h : reader.Serves memory)
    (hlast : memory.get? (2 ^ 64 - 1) = none) (offset : UInt64) {buffer : List UInt8}
    (hlen : buffer.length < 2 ^ 64) :
    readLenient reader offset buffer = .ok (memory.fill offset.toNat buffer) := by
  rw [readLenient]
  rcases readLenientLoop_spec h offset [] buffer (by simpa using hlen) rfl with
    hspec | ⟨-, hspec⟩
  · exact hspec
  · exact absurd hlast hspec

end Lenient

/-! ## The described image -/

/-- The parser allocates a buffer of this size for a mapped source. -/
def Allocatable (data : List UInt8) (length : UInt64) : Prop :=
  length.toNat ≤ 256 * 1024 * 1024 ∧ length.toNat ≤ data.length

instance (data : List UInt8) (length : UInt64) : Decidable (Allocatable data length) :=
  inferInstanceAs (Decidable (_ ∧ _))

/-- The `n` bytes from `start` on, zero past the end of the string. -/
def mappedBytes (data : List UInt8) (start n : ℕ) : List UInt8 :=
  (Memory.ofList data).fill start (List.replicate n 0)

/-- The strings the parser accepts in mapped layout. -/
structure MappedGrammar (data : List UInt8) : Prop extends HeadersInside data where
  segments : ∀ header ∈ programHeadersOf data, header.type ≠ SegmentType.null →
    Allocatable data header.mappedLength

def mappedSegmentOf (data : List UInt8) (imageBase : UInt64) (header : ProgramHeader) :
    Segment where
  header := header
  data := if header.type = SegmentType.null then []
    else mappedBytes data (saturatingSub header.vaddr imageBase).toNat
      header.mappedLength.toNat

/-- Every entry of the section header table lies in the bytes, wherever the table is. -/
def SectionTableInside (data : List UInt8) : Prop :=
  ∀ i < (headerOf data).shnum.toNat, sectionHeaderStart data i +
    (SectionHeader.entrySize (identOf data).elfClass).toNat ≤ data.length

instance (data : List UInt8) : Decidable (SectionTableInside data) :=
  inferInstanceAs (Decidable (∀ i < (headerOf data).shnum.toNat, _))

/-- The section header table of a mapped source; an unreadable one has no entries. -/
def mappedSectionHeadersOf (data : List UInt8) : List SectionHeader :=
  if SectionTableInside data then
    (List.range (headerOf data).shnum.toNat).map (sectionHeaderAt data)
  else []

/-- How many bytes the mapped layout reads for a section header. -/
def SectionHeader.mappedLength (header : SectionHeader) : UInt64 :=
  if header.isNobits then 0 else header.size

/-- The section-name string table of a mapped source. -/
def mappedStrtabOf (data : List UInt8) (imageBase : UInt64) : List UInt8 :=
  match (mappedSectionHeadersOf data)[(headerOf data).shstrndx.toNat]? with
  | some header =>
    if header.type = SectionType.strtab ∧ Allocatable data header.size then
      mappedBytes data (mappedSectionStart header imageBase).toNat header.size.toNat
    else []
  | none => []

def mappedSectionOf (data : List UInt8) (imageBase : UInt64) (header : SectionHeader) :
    Section where
  header := header
  name := StringTable.name (mappedStrtabOf data imageBase) header.nameIndex.toNat
  data := mappedBytes data (mappedSectionStart header imageBase).toNat
    header.mappedLength.toNat

/-- The sections of a mapped source: those of a size the parser does not allocate are
left out. -/
def mappedSectionsOf (data : List UInt8) (imageBase : UInt64) : List Section :=
  ((mappedSectionHeadersOf data).filter fun header =>
    Allocatable data header.mappedLength).map (mappedSectionOf data imageBase)

def mappedImageOf (data : List UInt8) : ElfImage where
  ident := identOf data
  header := headerOf data
  segments := (programHeadersOf data).map
    (mappedSegmentOf data (computeImageBase (programHeadersOf data)))
  sections := mappedSectionsOf data (computeImageBase (programHeadersOf data))
  runtimeBase := computeImageBase (programHeadersOf data)

/-! ## The parser returns it -/

section Described

variable {reader : Reader} {data : List UInt8}

theorem length_mappedBytes (data : List UInt8) (start n : ℕ) :
    (mappedBytes data start n).length = n := by
  rw [mappedBytes, Memory.length_fill, List.length_replicate]

theorem getElem?_mappedBytes (hdata : data.length < 2 ^ 64) (start n i : ℕ) :
    (mappedBytes data start n)[i]? = if i < n then some (data.getD (start + i) 0) else none :=
  Memory.getElem?_fill_ofList hdata.le start n 0 i

/-- A lenient read of a served string never faults. -/
theorem readLenient_bytes (h : reader.ServesBytes data) (offset : UInt64) {n : ℕ}
    (hn : n < 2 ^ 64) :
    readLenient reader offset (List.replicate n 0) =
      .ok (mappedBytes data offset.toNat n) := by
  apply readLenient_eq_ok h.serves _ offset (by simpa using hn)
  have hlen := h.length
  rw [Memory.get?_ofList hlen.le, List.getElem?_eq_none_iff]
  omega

theorem checkedLen_eq_ok {length : UInt64} {sourceSize : Option UInt64} {len : ℕ}
    (h : checkedLen length sourceSize = .ok len) : len = length.toNat := by
  rw [checkedLen] at h
  split at h
  · cases h
  · cases h
    rfl

theorem checkedAlloc_decides (h : reader.ServesBytes data) (length : UInt64) :
    (checkedAlloc length reader.size).Decides (Allocatable data length)
      (List.replicate length.toNat 0) :=
  (checkedLen_decides h length).map fun len => List.replicate len 0

/-- The segment loop of the mapped layout, one header. -/
theorem readMappedSegment_decides (h : reader.ServesBytes data) (imageBase : UInt64)
    (header : ProgramHeader) :
    (readMappedSegment reader imageBase header).Decides
      (header.type ≠ SegmentType.null → Allocatable data header.mappedLength)
      (mappedSegmentOf data imageBase header) := by
  rw [readMappedSegment]
  by_cases hnull : header.type = SegmentType.null
  · rw [if_pos (Or.inl hnull)]
    exact (Outcome.Decides.pure _).congr (by simp [hnull]) fun _ => by
      simp [mappedSegmentOf, hnull]
  by_cases hzero : header.mappedLength = 0
  · rw [if_pos (Or.inr hzero)]
    exact (Outcome.Decides.pure _).congr (by simp [hzero, Allocatable]) fun _ => by
      simp [mappedSegmentOf, hnull, hzero, mappedBytes, Memory.fill]
  · rw [if_neg (by simp [hnull, hzero])]
    have hread := readLenient_bytes h (saturatingSub header.vaddr imageBase)
      header.mappedLength.toNat_lt
    have hlen := checkedLen_decides h header.mappedLength
    refine ⟨fun hsize => ?_, fun hsize => (hlen.err fun hin => hsize fun _ => hin).bind _⟩
    rw [hlen.ok (hsize hnull), Outcome.ok_bind]
    dsimp only
    rw [hread, Outcome.ok_bind, mappedSegmentOf, if_neg hnull]
    rfl

/-- The section loop of the mapped layout, one header. -/
theorem readMappedSection_eq_ok (h : reader.ServesBytes data) (imageBase : UInt64)
    (strtab : List UInt8) (header : SectionHeader) :
    readMappedSection reader imageBase strtab header =
      .ok (if Allocatable data header.mappedLength then some {
        header
        name := StringTable.name strtab header.nameIndex.toNat
        data := mappedBytes data (mappedSectionStart header imageBase).toNat
          header.mappedLength.toNat } else none) := by
  have halloc := (checkedAlloc_decides h header.mappedLength).attempt
  have hread := readLenient_bytes h (mappedSectionStart header imageBase)
    header.mappedLength.toNat_lt
  rw [readMappedSection]
  rw [SectionHeader.mappedLength] at halloc hread ⊢
  rw [halloc, Outcome.ok_bind]
  by_cases hsize : Allocatable data (if header.isNobits then 0 else header.size)
  · simp only [if_pos hsize, hread, Outcome.ok_bind]
    rfl
  · simp only [if_neg hsize]
    rfl

theorem mappedStrtab_eq_ok (h : reader.ServesBytes data) (imageBase : UInt64) :
    mappedStrtab reader (headersOf data) imageBase (mappedSectionHeadersOf data) =
      .ok (mappedStrtabOf data imageBase) := by
  rw [mappedStrtab, mappedStrtabOf, headersOf_header]
  cases (mappedSectionHeadersOf data)[(headerOf data).shstrndx.toNat]? with
  | none => rfl
  | some header =>
      dsimp only
      by_cases htype : header.type = SectionType.strtab
      · rw [if_pos htype, (checkedAlloc_decides h header.size).attempt, Outcome.ok_bind]
        by_cases hsize : Allocatable data header.size
        · rw [if_pos hsize, if_pos ⟨htype, hsize⟩]
          exact readLenient_bytes h _ header.size.toNat_lt
        · rw [if_neg hsize, if_neg fun hboth => hsize hboth.2]
          rfl
      · rw [if_neg htype, if_neg fun hboth => htype hboth.1]

/-- The section table is read whole or not at all. -/
theorem readSectionHeaders_decides (h : reader.ServesBytes data) :
    (readSectionHeaders reader (headersOf data)).Decides (SectionTableInside data)
      ((List.range (headerOf data).shnum.toNat).map (sectionHeaderAt data)) := by
  have hwalk := Outcome.Decides.mapM (List.range (headerOf data).shnum.toNat) fun i hi =>
    sectionHeader_step_decides h (List.mem_range.1 hi)
  refine hwalk.congr ?_ fun _ => rfl
  simp only [List.mem_range]
  rfl

theorem reduceOption_map_ite {α β : Type} (p : α → Prop) [DecidablePred p] (f : α → β)
    (l : List α) : (l.map fun a => if p a then some (f a) else none).reduceOption =
      (l.filter fun a => p a).map f := by
  induction l with
  | nil => rfl
  | cons a l ih =>
      by_cases h : p a
      · simp [h, ih]
      · simp [h, ih]

theorem readMappedSections_eq_ok (h : reader.ServesBytes data) (imageBase : UInt64) :
    readMappedSections reader (headersOf data) imageBase =
      .ok (mappedSectionsOf data imageBase) := by
  rw [readMappedSections, (readSectionHeaders_decides h).attempt, Outcome.ok_bind]
  by_cases htable : SectionTableInside data
  · have hheaders : mappedSectionHeadersOf data =
        (List.range (headerOf data).shnum.toNat).map (sectionHeaderAt data) := if_pos htable
    simp only [if_pos htable]
    rw [← hheaders, mappedStrtab_eq_ok h, Outcome.ok_bind]
    rw [Outcome.mapM_eq_ok _ fun header _ =>
      readMappedSection_eq_ok h imageBase (mappedStrtabOf data imageBase) header,
      Outcome.ok_bind, reduceOption_map_ite]
    rfl
  · simp only [if_neg htable, mappedSectionsOf, mappedSectionHeadersOf]
    rfl

/-- Reading a served string in mapped layout decides the grammar of mapped strings. -/
theorem readMappedLayout_decides (h : reader.ServesBytes data) :
    (ElfImage.readMappedLayout reader).Decides (MappedGrammar data)
      { mappedImageOf data with runtimeBase := 0 } := by
  have hsegments := Outcome.Decides.mapM (programHeadersOf data) fun header _ =>
    readMappedSegment_decides h (computeImageBase (programHeadersOf data)) header
  have hsections : (readMappedSections reader (headersOf data)
      (computeImageBase (programHeadersOf data))).Decides True
        (mappedSectionsOf data (computeImageBase (programHeadersOf data))) :=
    ⟨fun _ => readMappedSections_eq_ok h _, fun hnot => absurd trivial hnot⟩
  refine ((ElfHeaders.readFrom_decides h).bind fun _ => hsegments.bind fun _ =>
    hsections.map _).congr ?_ fun _ => rfl
  exact ⟨fun h => ⟨h.toHeadersInside, h.segments, trivial⟩, fun h => ⟨h.1, h.2.1⟩⟩

theorem imageBase_mappedImageOf (data : List UInt8) (base : UInt64) :
    { mappedImageOf data with runtimeBase := base }.imageBase =
      computeImageBase (programHeadersOf data) := by
  have hheader : (programHeadersOf data).map (Segment.header ∘
      mappedSegmentOf data (computeImageBase (programHeadersOf data))) =
        programHeadersOf data := List.map_id _
  simp only [ElfImage.imageBase, ElfImage.geometry, mappedImageOf, List.map_map, hheader]
  rfl

/-- A reader whose bytes from `base` on are a string decides the grammar of mapped
strings. -/
theorem readFrom_mapped_decides {base : UInt64}
    (h : (offsetReader reader base).ServesBytes data) :
    (ElfImage.readFrom reader base .mapped).Decides (MappedGrammar data)
      (mappedImageOf data) := by
  refine ((readMappedLayout_decides h).map _).congr Iff.rfl fun _ => ?_
  rw [imageBase_mappedImageOf]
  rfl

theorem parseMapped_decides (hdata : data.length < 2 ^ 64) :
    (ElfImage.parseMapped data).Decides (MappedGrammar data) (mappedImageOf data) := by
  apply readFrom_mapped_decides
  rw [offsetReader_zero]
  exact sliceReader_serves hdata

theorem parseMappedAt_decides (hdata : data.length < 2 ^ 64) (loadBase : UInt64) :
    (ElfImage.parseMappedAt data loadBase).Decides (MappedGrammar data)
      { mappedImageOf data with runtimeBase := loadBase } := by
  rw [ElfImage.parseMappedAt]
  exact ((parseMapped_decides hdata).map fun image =>
    { image with runtimeBase := loadBase })

/-- The parser of the mapped layout accepts exactly the grammar of mapped strings, ends with
an error on every other one, and fills the payloads from the addresses of the string, with
zeros past its end. -/
theorem parseMapped_accepts_grammar (hdata : data.length < 2 ^ 64) (loadBase : UInt64) :
    ((∃ image, ElfImage.parseMappedAt data loadBase = .ok image) ↔ MappedGrammar data) ∧
      (¬MappedGrammar data → (ElfImage.parseMappedAt data loadBase).IsErr) ∧
      ∀ image, ElfImage.parseMappedAt data loadBase = .ok image →
        image.runtimeBase = loadBase ∧
        image.segments.map Segment.header = programHeadersOf data ∧
        (∀ segment ∈ image.segments, segment.header.type ≠ SegmentType.null → ∀ i,
          segment.data[i]? = if i < segment.header.mappedLength.toNat then
            some (data.getD ((saturatingSub segment.header.vaddr image.imageBase).toNat + i) 0)
          else none) ∧
        image.sections.map Section.header = (mappedSectionHeadersOf data).filter (fun header =>
          Allocatable data header.mappedLength) ∧
        ∀ sec ∈ image.sections, ∀ i, sec.data[i]? = if i < sec.header.mappedLength.toNat then
          some (data.getD ((mappedSectionStart sec.header image.imageBase).toNat + i) 0)
        else none := by
  have hparse := parseMappedAt_decides hdata loadBase
  refine ⟨⟨?_, fun h => ⟨_, hparse.ok h⟩⟩, hparse.err, ?_⟩
  · rintro ⟨image, himage⟩
    exact ((hparse.eq_ok_iff image).1 himage).1
  · intro image himage
    obtain ⟨-, rfl⟩ := (hparse.eq_ok_iff image).1 himage
    rw [imageBase_mappedImageOf]
    refine ⟨rfl, ?_, ?_, ?_, ?_⟩
    · show ((programHeadersOf data).map (mappedSegmentOf data
        (computeImageBase (programHeadersOf data)))).map Segment.header = _
      rw [List.map_map]
      exact List.map_id _
    · intro segment hmem hnull i
      obtain ⟨header, -, rfl⟩ := List.mem_map.1 hmem
      have hnull' : header.type ≠ SegmentType.null := hnull
      show (if header.type = SegmentType.null then [] else mappedBytes data
        (saturatingSub header.vaddr (computeImageBase (programHeadersOf data))).toNat
          header.mappedLength.toNat)[i]? = _
      rw [if_neg hnull']
      exact getElem?_mappedBytes hdata _ _ i
    · show (mappedSectionsOf data (computeImageBase (programHeadersOf data))).map
        Section.header = _
      rw [mappedSectionsOf, List.map_map]
      exact List.map_id _
    · intro sec hmem i
      obtain ⟨header, -, rfl⟩ := List.mem_map.1 hmem
      exact getElem?_mappedBytes hdata _ _ i

end Described

/-- Bytes whose header area is all there is. -/
theorem smallMapped_accepted :
    ∃ image, ElfImage.parseMappedAt (smallFile ++ List.replicate 0x1000 0) 0x7000 = .ok image ∧
      image.runtimeBase = 0x7000 ∧ image.segments.length = 1 := by
  have hdata : (smallFile ++ List.replicate 0x1000 0).length < 2 ^ 64 := by decide +kernel
  have haccepts := parseMapped_accepts_grammar hdata 0x7000
  obtain ⟨image, himage⟩ := Outcome.exists_of_isOk
    (show (ElfImage.parseMappedAt (smallFile ++ List.replicate 0x1000 0) 0x7000).isOk = true by
      decide +kernel)
  obtain ⟨hbase, hheaders, -⟩ := haccepts.2.2 image himage
  refine ⟨image, himage, hbase, ?_⟩
  have hlength := congrArg List.length hheaders
  rw [List.length_map] at hlength
  rw [hlength]
  decide +kernel

end Elfex
