import Elfex.Image.Parse

/-!
# The grammar of a raw file

What a byte string must contain to be accepted in file layout, stated over the
bytes in unbounded arithmetic, and the image such a string describes. The parser
is shown to decide the grammar: it returns the described image exactly on the
strings of the grammar and an error on every other one, so that none of its
checked, saturating or unchecked additions matters.
-/

namespace Elfex

open Foundation

/-- The identification a file's first bytes describe. -/
def identOf (data : List UInt8) : ElfIdent where
  elfClass := if data.getD 4 0 = 1 then .elf32 else .elf64
  data := if data.getD 5 0 = 1 then .little else .big
  version := data.getD 6 0
  osAbi := data.getD 7 0
  abiVersion := data.getD 8 0

/-- The file header a file's first bytes describe. -/
def headerOf (data : List UInt8) : ElfHeader :=
  ElfHeader.decode (identOf data)
    (window data 0 (ElfHeader.size (identOf data).elfClass).toNat)

theorem headerOf_ident (data : List UInt8) : (headerOf data).ident = identOf data :=
  ElfHeader.decode_ident _ _

/-- The position of the `i`-th program header. -/
def programHeaderStart (data : List UInt8) (i : ℕ) : ℕ :=
  (headerOf data).phoff.toNat + i * (ProgramHeader.size (identOf data).elfClass).toNat

/-- The position of the `i`-th section header: entries are `e_shentsize` apart, but
no closer than the entry size of the class. -/
def sectionHeaderStart (data : List UInt8) (i : ℕ) : ℕ :=
  (headerOf data).shoff.toNat + i * max (headerOf data).shentsize.toNat
    (SectionHeader.entrySize (identOf data).elfClass).toNat

def programHeaderAt (data : List UInt8) (i : ℕ) : ProgramHeader :=
  ProgramHeader.decode (identOf data).data (identOf data).elfClass
    (window data (programHeaderStart data i)
      (ProgramHeader.size (identOf data).elfClass).toNat)

def sectionHeaderAt (data : List UInt8) (i : ℕ) : SectionHeader :=
  SectionHeader.decode (identOf data).data (identOf data).elfClass
    (window data (sectionHeaderStart data i)
      (SectionHeader.entrySize (identOf data).elfClass).toNat)

def programHeadersOf (data : List UInt8) : List ProgramHeader :=
  (List.range (headerOf data).phnum.toNat).map (programHeaderAt data)

/-- The section header table of a file that has one. -/
def sectionHeadersOf (data : List UInt8) : List SectionHeader :=
  if (headerOf data).shoff = 0 ∨ (headerOf data).shnum = 0 then []
  else (List.range (headerOf data).shnum.toNat).map (sectionHeaderAt data)

/-- The bytes a payload of `size` bytes at `offset` occupies lie in the file, and
there are at most 256 MiB of them. -/
def PayloadInside (data : List UInt8) (offset size : UInt64) : Prop :=
  size.toNat ≤ 256 * 1024 * 1024 ∧ offset.toNat + size.toNat ≤ data.length

/-- The bytes the parser reads for a program header lie in the file. -/
def SegmentInside (data : List UInt8) (header : ProgramHeader) : Prop :=
  header.type ≠ SegmentType.null → 0 < header.filesz.toNat →
    PayloadInside data header.offset header.filesz

/-- The bytes the parser reads for a section header lie in the file. -/
def SectionInside (data : List UInt8) (header : SectionHeader) : Prop :=
  header.type ≠ SectionType.nobits → 0 < header.size.toNat →
    PayloadInside data header.offset header.size

/-- The files the parser accepts in file layout. -/
structure FileGrammar (data : List UInt8) : Prop where
  magic : data.take 4 = elfMagic
  classByte : data.getD 4 0 = 1 ∨ data.getD 4 0 = 2
  dataByte : data.getD 5 0 = 1 ∨ data.getD 5 0 = 2
  header : (ElfHeader.size (identOf data).elfClass).toNat ≤ data.length
  programHeaders : ∀ i < (headerOf data).phnum.toNat,
    programHeaderStart data i + (ProgramHeader.size (identOf data).elfClass).toNat ≤
      data.length
  segments : ∀ header ∈ programHeadersOf data, SegmentInside data header
  sectionHeaders : (headerOf data).shoff ≠ 0 → (headerOf data).shnum ≠ 0 →
    ∀ i < (headerOf data).shnum.toNat,
      sectionHeaderStart data i +
        (SectionHeader.entrySize (identOf data).elfClass).toNat ≤ data.length
  sections : ∀ header ∈ sectionHeadersOf data, SectionInside data header

def segmentOf (data : List UInt8) (header : ProgramHeader) : Segment where
  header := header
  data := if header.type = SegmentType.null then []
    else window data header.offset.toNat header.filesz.toNat

/-- The section-name string table of a file: empty unless the index names a string
table. -/
def shstrtabOf (data : List UInt8) : List UInt8 :=
  match (sectionHeadersOf data)[(headerOf data).shstrndx.toNat]? with
  | some header =>
    if header.type = SectionType.strtab then
      window data header.offset.toNat header.size.toNat
    else []
  | none => []

def sectionOf (data : List UInt8) (header : SectionHeader) : Section where
  header := header
  name := StringTable.name (shstrtabOf data) header.nameIndex.toNat
  data := if header.type = SectionType.nobits then []
    else window data header.offset.toNat header.size.toNat

def imageOf (data : List UInt8) : ElfImage where
  ident := identOf data
  header := headerOf data
  segments := (programHeadersOf data).map (segmentOf data)
  sections := (sectionHeadersOf data).map (sectionOf data)
  runtimeBase := computeImageBase (programHeadersOf data)

/-! ## The header walk -/

section Walk

variable {reader : Reader} {data : List UInt8}

/-- The identification is decided by the magic, class and data bytes. -/
theorem ElfIdent.parse_decides (bytes : List UInt8) :
    (ElfIdent.parse bytes).Decides
      (bytes.take 4 = elfMagic ∧ (bytes.getD 4 0 = 1 ∨ bytes.getD 4 0 = 2) ∧
        (bytes.getD 5 0 = 1 ∨ bytes.getD 5 0 = 2)) (identOf bytes) := by
  by_cases hmagic : bytes.take 4 = elfMagic
  · rw [ElfIdent.parse, if_neg (not_not.2 hmagic)]
    refine ((ElfClass.fromByte_decides _).bind fun _ =>
      (Endian.fromByte_decides _).map _).congr ?_ fun _ => rfl
    simp [hmagic]
  · rw [ElfIdent.parse, if_pos hmagic]
    exact ⟨fun h => absurd h.1 hmagic, fun _ => Outcome.isErr_fail _⟩

/-- Parsing the identification looks at its sixteen bytes only. -/
theorem identOf_window (data : List UInt8) :
    identOf (window data 0 16) = identOf data ∧
      (window data 0 16).take 4 = data.take 4 ∧
      (window data 0 16).getD 4 0 = data.getD 4 0 ∧
      (window data 0 16).getD 5 0 = data.getD 5 0 := by
  have hbyte : ∀ k < 16, (window data 0 16).getD k 0 = data.getD k 0 := by
    intro k hk
    rw [List.getD_eq_getElem?_getD, List.getD_eq_getElem?_getD, getElem?_window, if_pos hk,
      Nat.zero_add]
  refine ⟨?_, ?_, hbyte 4 (by omega), hbyte 5 (by omega)⟩
  · simp only [identOf, hbyte 4 (by omega), hbyte 5 (by omega), hbyte 6 (by omega),
      hbyte 7 (by omega), hbyte 8 (by omega)]
  · simp [window, List.take_take]

/-- The headers a file describes. -/
def headersOf (data : List UInt8) : ElfHeaders where
  ident := identOf data
  header := headerOf data
  programHeaders := programHeadersOf data

@[simp] theorem headersOf_header (data : List UInt8) :
    (headersOf data).header = headerOf data := rfl

/-- The identification, the file header and the program header table are present. -/
structure HeadersInside (data : List UInt8) : Prop where
  magic : data.take 4 = elfMagic
  classByte : data.getD 4 0 = 1 ∨ data.getD 4 0 = 2
  dataByte : data.getD 5 0 = 1 ∨ data.getD 5 0 = 2
  header : (ElfHeader.size (identOf data).elfClass).toNat ≤ data.length
  programHeaders : ∀ i < (headerOf data).phnum.toNat,
    programHeaderStart data i + (ProgramHeader.size (identOf data).elfClass).toNat ≤
      data.length

/-- One step of the program header walk: the checked offset decides nothing that
the bounds of the file do not decide. -/
theorem programHeader_step_decides (h : reader.ServesBytes data) {i : ℕ}
    (hi : i < (headerOf data).phnum.toNat) :
    (ElfHeaders.readProgramHeader reader (headerOf data) i).Decides
      (programHeaderStart data i +
        (ProgramHeader.size (identOf data).elfClass).toNat ≤ data.length)
      (programHeaderAt data i) := by
  have hphnum : (headerOf data).phnum.toNat < 2 ^ 16 := (headerOf data).phnum.toNat_lt
  have hsize : (ProgramHeader.size (identOf data).elfClass).toNat ≤ 56 := by
    cases (identOf data).elfClass <;> decide
  have hindex : (UInt64.ofNat i).toNat = i := toNat_ofNat_of_lt (by omega)
  have hprod : i * (ProgramHeader.size (identOf data).elfClass).toNat ≤ i * 56 :=
    Nat.mul_le_mul_left i hsize
  have hmul : (UInt64.ofNat i).toNat *
      (ProgramHeader.size (identOf data).elfClass).toNat < 2 ^ 64 := by
    rw [hindex]
    omega
  have hdelta : (UInt64.ofNat i * ProgramHeader.size (identOf data).elfClass).toNat =
      i * (ProgramHeader.size (identOf data).elfClass).toNat := by
    rw [toNat_mul_of_lt hmul, hindex]
  have hident : (headerOf data).ident = identOf data := ElfHeader.decode_ident _ _
  rw [ElfHeaders.readProgramHeader, hident, Outcome.mul_of_lt hmul, Outcome.ok_bind]
  cases hadd : checkedAdd (headerOf data).phoff
      (UInt64.ofNat i * ProgramHeader.size (identOf data).elfClass) with
  | none =>
      rw [checkedAdd_eq_none, hdelta] at hadd
      have hlen := h.length
      refine ⟨fun hle => ?_, fun _ => Outcome.isErr_fail _⟩
      rw [programHeaderStart] at hle
      omega
  | some offset =>
      rw [checkedAdd_eq_some, hdelta] at hadd
      have hstart : offset.toNat = programHeaderStart data i := hadd.symm
      have hparse := ProgramHeader.parse_decides h offset (identOf data).data
        (identOf data).elfClass
      rw [hstart] at hparse
      exact hparse

/-- The header walk decides that the headers are present. -/
theorem ElfHeaders.readFrom_decides (h : reader.ServesBytes data) :
    (ElfHeaders.readFrom reader).Decides (HeadersInside data) (headersOf data) := by
  have hbytes := readExactBytes_decides h 0 (List.replicate eiNident 0) (by decide)
    (by decide)
  have hwalk := Outcome.Decides.mapM (List.range (headerOf data).phnum.toNat) fun i hi =>
    programHeader_step_decides h (List.mem_range.1 hi)
  have hsize := sixteen_le_size (identOf data).elfClass
  by_cases hlen : 16 ≤ data.length
  · obtain ⟨hident, htake, hclass, hendian⟩ := identOf_window data
    have hparse := ElfIdent.parse_decides (window data 0 16)
    rw [hident, htake, hclass, hendian] at hparse
    rw [ElfHeaders.readFrom, hbytes.ok (by simpa [eiNident] using hlen), Outcome.ok_bind]
    refine (hparse.bind fun _ => (ElfHeader.parse_decides h (identOf data)).bind fun _ =>
      hwalk.map _).congr ?_ fun _ => rfl
    simp only [List.mem_range]
    exact ⟨fun h => ⟨⟨h.magic, h.classByte, h.dataByte⟩, h.header, h.programHeaders⟩,
      fun h => ⟨h.1.1, h.1.2.1, h.1.2.2, h.2.1, h.2.2⟩⟩
  · refine ⟨fun h => absurd (hsize.trans h.header) hlen, fun _ => ?_⟩
    exact (hbytes.err (by simpa [eiNident] using hlen)).bind _

/-- One step of the section header walk: a saturated offset is out of the file. -/
theorem sectionHeader_step_decides (h : reader.ServesBytes data) {i : ℕ}
    (hi : i < (headerOf data).shnum.toNat) :
    (SectionHeader.parse reader
      (saturatingAdd (headerOf data).shoff (saturatingMul (UInt64.ofNat i)
        (max (headerOf data).shentsize.toUInt64
          (SectionHeader.entrySize (identOf data).elfClass))))
      (identOf data).data (identOf data).elfClass).Decides
      (sectionHeaderStart data i +
        (SectionHeader.entrySize (identOf data).elfClass).toNat ≤ data.length)
      (sectionHeaderAt data i) := by
  have hshnum : (headerOf data).shnum.toNat < 2 ^ 16 := (headerOf data).shnum.toNat_lt
  have hpos : 0 < (SectionHeader.entrySize (identOf data).elfClass).toNat := by
    cases (identOf data).elfClass <;> decide
  have hindex : (UInt64.ofNat i).toNat = i := toNat_ofNat_of_lt (by omega)
  set offset := saturatingAdd (headerOf data).shoff (saturatingMul (UInt64.ofNat i)
    (max (headerOf data).shentsize.toUInt64
      (SectionHeader.entrySize (identOf data).elfClass))) with hoffset
  have hnat : offset.toNat = min (sectionHeaderStart data i) (2 ^ 64 - 1) := by
    rw [hoffset, toNat_saturatingAdd, toNat_saturatingMul, hindex, toNat_max,
      UInt16.toNat_toUInt64, sectionHeaderStart]
    omega
  have hparse := SectionHeader.parse_decides h offset (identOf data).data
    (identOf data).elfClass
  by_cases hlt : sectionHeaderStart data i ≤ 2 ^ 64 - 1
  · rw [hnat, Nat.min_eq_left hlt] at hparse
    exact hparse
  · have hlen := h.length
    exact ⟨fun hle => absurd hle (by omega), fun _ => hparse.err (by omega)⟩

end Walk

/-! ## The payloads -/

section Payload

variable {reader : Reader} {data : List UInt8}

theorem checkedLen_decides (h : reader.ServesBytes data) (length : UInt64) :
    (checkedLen length reader.size).Decides
      (length.toNat ≤ 256 * 1024 * 1024 ∧ length.toNat ≤ data.length) length.toNat := by
  have hcap : (min (UInt64.ofNat data.length) maxAlloc).toNat =
      min data.length (256 * 1024 * 1024) := by
    rw [toNat_min, toNat_ofNat_of_lt h.length]
    rfl
  rw [checkedLen]
  simp only [h.size, Option.getD_some, UInt64.lt_iff_toNat_lt, hcap]
  split
  · exact ⟨fun h => by omega, fun _ => Outcome.isErr_fail _⟩
  · exact ⟨fun _ => rfl, fun h => absurd (by omega) h⟩

/-- A strict payload read decides that the payload lies inside the file; an empty
payload is never looked up. -/
theorem payload_decides (h : reader.ServesBytes data) (hdata : data.length ≤ isizeMax)
    (offset size : UInt64) :
    (readPayload reader offset size).Decides
      (0 < size.toNat → PayloadInside data offset size)
      (window data offset.toNat size.toNat) := by
  have hlen := checkedLen_decides h size
  by_cases hsize : size.toNat = 0
  · rw [readPayload, hlen.ok (by omega), Outcome.ok_bind, hsize, readBytesAt_zero,
      window_zero_right]
    exact (Outcome.Decides.pure []).congr (by simp) fun _ => rfl
  · refine (hlen.bind fun _ => readBytesAt_decides h hdata offset (by omega)).congr ?_
      fun _ => rfl
    rw [PayloadInside]
    constructor
    · intro h
      have := h (by omega)
      omega
    · intro h _
      omega

/-- The segment loop of the file layout, one header. -/
theorem readFileSegment_decides (h : reader.ServesBytes data)
    (hdata : data.length ≤ isizeMax) (header : ProgramHeader) :
    (readFileSegment reader header).Decides (SegmentInside data header)
      (segmentOf data header) := by
  unfold readFileSegment SegmentInside
  by_cases hnull : header.type = SegmentType.null
  · rw [if_pos (Or.inl hnull)]
    exact (Outcome.Decides.pure _).congr (by simp [hnull]) fun _ => by
      simp [segmentOf, hnull]
  by_cases hzero : header.filesz = 0
  · rw [if_pos (Or.inr hzero)]
    exact (Outcome.Decides.pure _).congr (by simp [hzero]) fun _ => by
      simp [segmentOf, hzero]
  · rw [if_neg (by simp [hnull, hzero])]
    have hread := (payload_decides h hdata header.offset header.filesz).map fun bytes =>
      ({ header, data := bytes } : Segment)
    exact hread.congr (by simp [hnull]) fun _ => by simp [segmentOf, hnull]

/-- The section loop of the file layout, one header. -/
theorem readFileSection_decides (h : reader.ServesBytes data)
    (hdata : data.length ≤ isizeMax) (name : String) (header : SectionHeader) :
    (readFileSection reader name header).Decides (SectionInside data header)
      { sectionOf data header with name } := by
  unfold readFileSection SectionInside
  by_cases hnobits : header.type = SectionType.nobits
  · rw [if_pos (Or.inl (by simp [SectionHeader.isNobits, hnobits]))]
    exact (Outcome.Decides.pure _).congr (by simp [hnobits]) fun _ => by
      simp [sectionOf, hnobits]
  by_cases hzero : header.size = 0
  · rw [if_pos (Or.inr hzero)]
    exact (Outcome.Decides.pure _).congr (by simp [hzero]) fun _ => by
      simp [sectionOf, hzero]
  · rw [if_neg (by simp [SectionHeader.isNobits, hnobits, hzero])]
    have hread := (payload_decides h hdata header.offset header.size).map fun bytes =>
      ({ name, header, data := bytes } : Section)
    exact hread.congr (by simp [hnobits]) fun _ => by simp [sectionOf, hnobits]

/-- Name resolution never fails the parse, and gives the described names whenever
the payloads it could need are inside the file. -/
theorem sectionNames_eq_ok (h : reader.ServesBytes data) (hdata : data.length ≤ isizeMax) :
    ∃ names, sectionNames reader (headersOf data) (sectionHeadersOf data) = .ok names ∧
      ((∀ header ∈ sectionHeadersOf data, SectionInside data header) →
        ∀ i header, (sectionHeadersOf data)[i]? = some header →
          names.getD i "" = StringTable.name (shstrtabOf data) header.nameIndex.toNat) := by
  have hempty : StringTable.name [] = fun _ => "" := by
    funext offset
    cases offset with
    | zero => decide +kernel
    | succ offset => simp [StringTable.name, StringTable.get]
  rw [sectionNames, headersOf_header]
  cases hindex : (sectionHeadersOf data)[(headerOf data).shstrndx.toNat]? with
  | none =>
      have htab : shstrtabOf data = [] := by
        simp only [shstrtabOf, hindex]
      exact ⟨[], rfl, fun _ i header _ => by simp [htab, hempty]⟩
  | some header =>
      by_cases htype : header.type = SectionType.strtab
      · have hread := (payload_decides h hdata header.offset header.size)
        have htab : shstrtabOf data = window data header.offset.toNat header.size.toNat := by
          simp only [shstrtabOf, hindex, if_pos htype]
        by_cases hin : 0 < header.size.toNat → PayloadInside data header.offset header.size
        · simp only [if_pos htype, hread.ok hin, Outcome.attempt_ok, Outcome.ok_bind]
          refine ⟨_, rfl, fun _ i entry hentry => ?_⟩
          rw [List.getD_eq_getElem?_getD, List.getElem?_map, hentry, htab]
          rfl
        · obtain ⟨e, he⟩ := hread.err hin
          simp only [if_pos htype, he, Outcome.attempt_fail, Outcome.ok_bind]
          refine ⟨[], rfl, fun hall => ?_⟩
          have hne : header.type ≠ SectionType.nobits := by rw [htype]; decide
          exact absurd (hall header (List.mem_of_getElem? hindex) hne) hin
      · have htab : shstrtabOf data = [] := by
          simp only [shstrtabOf, hindex, if_neg htype]
        refine ⟨[], by simp only [if_neg htype], fun _ i entry _ => by
          simp [htab, hempty]⟩

end Payload

/-! ## The parser decides the grammar -/

section Decides

variable {reader : Reader} {data : List UInt8}

/-- Reading the sections of a file decides that their headers and payloads lie in
it. -/
theorem readFileSections_decides (h : reader.ServesBytes data)
    (hdata : data.length ≤ isizeMax) :
    (readFileSections reader (headersOf data)).Decides
      (((headerOf data).shoff ≠ 0 → (headerOf data).shnum ≠ 0 →
          ∀ i < (headerOf data).shnum.toNat,
            sectionHeaderStart data i +
              (SectionHeader.entrySize (identOf data).elfClass).toNat ≤ data.length) ∧
        ∀ header ∈ sectionHeadersOf data, SectionInside data header)
      ((sectionHeadersOf data).map (sectionOf data)) := by
  by_cases htable : (headerOf data).shoff = 0 ∨ (headerOf data).shnum = 0
  · have hnone : sectionHeadersOf data = [] := if_pos htable
    have hread : readFileSections reader (headersOf data) = .ok [] :=
      if_pos htable
    rw [hread, hnone]
    refine (Outcome.Decides.pure []).congr ?_ fun _ => rfl
    simp only [List.not_mem_nil, false_imp_iff, implies_true, and_true, iff_true]
    intro hoff hnum
    exact absurd htable (by simp [hoff, hnum])
  · have htable' := not_or.1 htable
    have hsome : sectionHeadersOf data =
      (List.range (headerOf data).shnum.toNat).map (sectionHeaderAt data) := if_neg htable
    have hwalk := Outcome.Decides.mapM (List.range (headerOf data).shnum.toNat) fun i hi =>
      sectionHeader_step_decides h (List.mem_range.1 hi)
    rw [← hsome] at hwalk
    obtain ⟨names, hnames, hresolved⟩ := sectionNames_eq_ok h hdata
    have hloop := Outcome.Decides.mapM (sectionHeadersOf data).zipIdx fun entry _ =>
      readFileSection_decides h hdata (names.getD entry.2 "") entry.1
    have hresolve : (sectionNames reader (headersOf data)
        (sectionHeadersOf data)).Decides True names :=
      ⟨fun _ => hnames, fun h => absurd trivial h⟩
    have hentries : (∀ entry ∈ (sectionHeadersOf data).zipIdx, SectionInside data entry.1) ↔
        ∀ header ∈ sectionHeadersOf data, SectionInside data header := by
      conv_rhs => rw [← List.zipIdx_map_fst 0 (sectionHeadersOf data), List.forall_mem_map]
    rw [readFileSections, headersOf_header, if_neg htable]
    refine (hwalk.bind fun _ => hresolve.bind fun _ => hloop).congr ?_ fun h => ?_
    · rw [hentries]
      simp [htable'.1, htable'.2]
    · apply List.ext_getElem?
      intro i
      rw [List.getElem?_map, List.getElem?_zipIdx, List.getElem?_map]
      cases hi : (sectionHeadersOf data)[i]? with
      | none => rfl
      | some header =>
          have hname := hresolved (hentries.1 h.2.2) i header hi
          simp only [Option.map_some, Nat.zero_add, hname, sectionOf]

/-- Reading a served string in file layout decides the grammar of raw files. -/
theorem readFileLayout_decides (h : reader.ServesBytes data)
    (hdata : data.length ≤ isizeMax) :
    (ElfImage.readFileLayout reader).Decides (FileGrammar data)
      { imageOf data with runtimeBase := 0 } := by
  have hheaders := ElfHeaders.readFrom_decides h
  have hsegments := Outcome.Decides.mapM (programHeadersOf data) fun header _ =>
    readFileSegment_decides h hdata header
  have hsections := readFileSections_decides h hdata
  refine (hheaders.bind fun _ => hsegments.bind fun _ => hsections.map _).congr ?_
    fun _ => rfl
  exact ⟨fun h => ⟨⟨h.magic, h.classByte, h.dataByte, h.header, h.programHeaders⟩,
      h.segments, h.sectionHeaders, h.sections⟩,
    fun h => ⟨h.1.magic, h.1.classByte, h.1.dataByte, h.1.header, h.1.programHeaders,
      h.2.1, h.2.2.1, h.2.2.2⟩⟩

/-- The preferred base of the described image is the one its headers give. -/
theorem imageBase_imageOf (data : List UInt8) (base : UInt64) :
    { imageOf data with runtimeBase := base }.imageBase =
      computeImageBase (programHeadersOf data) := by
  have hheader : (programHeadersOf data).map (Segment.header ∘ segmentOf data) =
      programHeadersOf data := List.map_id _
  simp only [ElfImage.imageBase, ElfImage.geometry, imageOf, List.map_map, hheader,
    computeImageBase]

/-- A reader whose bytes from `base` on are a string decides the grammar of the string. -/
theorem readFrom_file_decides {base : UInt64}
    (h : (offsetReader reader base).ServesBytes data) (hdata : data.length ≤ isizeMax) :
    (ElfImage.readFrom reader base .file).Decides (FileGrammar data) (imageOf data) := by
  refine ((readFileLayout_decides h hdata).map _).congr Iff.rfl fun _ => ?_
  rw [imageBase_imageOf]
  rfl

/-- The parser decides the grammar of raw files. -/
theorem parse_decides (hdata : data.length ≤ isizeMax) :
    (ElfImage.parse data).Decides (FileGrammar data) (imageOf data) := by
  have hmax : isizeMax < 2 ^ 64 := by decide
  apply readFrom_file_decides _ hdata
  rw [offsetReader_zero]
  exact sliceReader_serves (by omega)

/-- The parser accepts exactly the grammar, ends with an error on every other string,
and slices the payloads out of the file. -/
theorem parse_accepts_grammar (hdata : data.length ≤ isizeMax) :
    ((∃ image, ElfImage.parse data = .ok image) ↔ FileGrammar data) ∧
      (¬FileGrammar data → (ElfImage.parse data).IsErr) ∧
      ∀ image, ElfImage.parse data = .ok image →
        image.segments.map Segment.header = programHeadersOf data ∧
        (∀ segment ∈ image.segments, segment.header.type ≠ SegmentType.null →
          segment.data =
            window data segment.header.offset.toNat segment.header.filesz.toNat) ∧
        image.sections.map Section.header = sectionHeadersOf data ∧
        (∀ sec ∈ image.sections, sec.header.type ≠ SectionType.nobits →
          sec.data = window data sec.header.offset.toNat sec.header.size.toNat) := by
  have hparse := parse_decides hdata
  refine ⟨⟨?_, fun h => ⟨_, hparse.ok h⟩⟩, hparse.err, ?_⟩
  · rintro ⟨image, himage⟩
    exact ((hparse.eq_ok_iff image).1 himage).1
  · intro image himage
    rcases (hparse.eq_ok_iff image).1 himage with ⟨-, rfl⟩
    refine ⟨?_, ?_, ?_, ?_⟩
    · rw [imageOf, List.map_map]
      exact List.map_id _
    · intro segment hsegment hnull
      rcases List.mem_map.1 hsegment with ⟨header, -, rfl⟩
      exact if_neg hnull
    · rw [imageOf, List.map_map]
      exact List.map_id _
    · intro sec hsec hnobits
      rcases List.mem_map.1 hsec with ⟨header, -, rfl⟩
      exact if_neg hnobits

end Decides

/-! ## A small file -/

/-- The header of a small x86-64 executable. -/
def smallHeader : ElfHeader where
  ident := { elfClass := .elf64, data := .little, version := 1, osAbi := 0, abiVersion := 0 }
  type := .exec
  machine := Machine.x86_64
  version := 1
  entry := 0x1000
  phoff := 64
  shoff := 139
  flags := 0
  ehsize := 64
  phentsize := 56
  phnum := 1
  shentsize := 64
  shnum := 2
  shstrndx := 1

def smallLoad : ProgramHeader where
  type := SegmentType.load
  flags := 5
  offset := 120
  vaddr := 0x1000
  paddr := 0x1000
  filesz := 2
  memsz := 2
  align := 16

def smallText : SectionHeader where
  nameIndex := 1
  type := 1
  flags := 6
  addr := 0x1000
  offset := 120
  size := 2
  link := 0
  info := 0
  addralign := 1
  entsize := 0

def smallShstrtab : SectionHeader where
  nameIndex := 7
  type := SectionType.strtab
  flags := 0
  addr := 0
  offset := 122
  size := 17
  link := 0
  info := 0
  addralign := 1
  entsize := 0

/-- The executable: headers, code, names and section headers. -/
def smallFile : List UInt8 :=
  smallHeader.write ++ smallLoad.write .little .elf64 ++ [0x90, 0xc3] ++
    (0 :: strBytes ".text" ++ 0 :: strBytes ".shstrtab" ++ [0]) ++
    smallText.write .little .elf64 ++ smallShstrtab.write .little .elf64

theorem smallFile_length : smallFile.length ≤ isizeMax := by decide +kernel

theorem smallFile_parses : (ElfImage.parse smallFile).isOk = true := by decide +kernel

theorem smallFile_accepted : FileGrammar smallFile := by
  obtain ⟨image, himage⟩ := Outcome.exists_of_isOk smallFile_parses
  exact (((parse_decides smallFile_length).eq_ok_iff image).1 himage).1

theorem smallFile_grammar :
    FileGrammar smallFile ∧ ∃ image, ElfImage.parse smallFile = .ok image ∧
      image.segments.map Segment.header = programHeadersOf smallFile := by
  obtain ⟨haccept, -, hslices⟩ := parse_accepts_grammar smallFile_length
  rcases haccept.2 smallFile_accepted with ⟨image, himage⟩
  exact ⟨haccept.1 ⟨image, himage⟩, image, himage, (hslices image himage).1⟩

end Elfex
