import Elfex.Image.Basic

/-!
# Parsing an image

The two layouts of a byte source. In file layout every payload is read strictly
at its file offset; in mapped layout payloads are read at image-relative offsets
and bytes the source does not supply stay zero. Both share the header walk and
the cap on what an untrusted size field may allocate.
-/

namespace Elfex

open Foundation

inductive Layout where
  | file
  | mapped
  deriving DecidableEq, Repr

/-- The largest single allocation for an untrusted size field (256 MiB). -/
def maxAlloc : UInt64 := 0x10000000

/-- Validates a length against the source size and the allocation cap. -/
def checkedLen (length : UInt64) (sourceSize : Option UInt64) : Exec ℕ :=
  let cap := min (sourceSize.getD maxAlloc) maxAlloc
  if cap < length then
    Outcome.fail (.generic
      "ELF structure size exceeds the source or the allocation limit")
  else .ok length.toNat

/-- A zero-filled vector of a validated length. -/
def checkedAlloc (length : UInt64) (sourceSize : Option UInt64) : Exec (List UInt8) := do
  let len ← checkedLen length sourceSize
  return List.replicate len 0

/-- The loop of `read_lenient`: `filled` is the part already read, `rest` the part
still to be filled. A failed or empty read ends the loop and leaves the rest of
the buffer as the source left it. -/
def readLenientLoop (reader : Reader) (offset : UInt64) (filled rest : List UInt8) :
    Exec (List UInt8) :=
  if _hrest : rest = [] then .ok filled
  else do
    let current ← Outcome.add offset (UInt64.ofNat filled.length)
    let buf := (reader.readAt current rest).2
    match (reader.readAt current rest).1 with
    | .error _ => .ok (filled ++ buf)
    | .ok count =>
      if _hcount : count = 0 then .ok (filled ++ buf)
      else if 2 ^ 64 ≤ filled.length + count.toNat then Outcome.fault
      else
        readLenientLoop reader offset (filled ++ buf.take count.toNat)
          (buf.drop count.toNat)
termination_by rest.length
decreasing_by
  have hlen := reader.length_readAt current rest
  have hpos : count.toNat ≠ 0 := fun h => _hcount (UInt64.toNat_inj.1 h)
  have hne : rest.length ≠ 0 := fun h => _hrest (List.length_eq_zero_iff.1 h)
  simp only [List.length_drop]
  omega

/-- Reads as many bytes as the source supplies and leaves the rest of the buffer. -/
def readLenient (reader : Reader) (offset : UInt64) (buffer : List UInt8) :
    Exec (List UInt8) :=
  readLenientLoop reader offset [] buffer

def computeImageBase (programHeaders : List ProgramHeader) : UInt64 :=
  (geometry (loadRecords programHeaders)).base

def readPayload (reader : Reader) (offset size : UInt64) : Exec (List UInt8) := do
  let len ← checkedLen size reader.size
  reader.readBytesAt offset len

/-- Parses the section header table at the declared stride, or the class's entry
size when that is larger. -/
def readSectionHeaders (reader : Reader) (headers : ElfHeaders) :
    Exec (List SectionHeader) :=
  let endian := headers.ident.data
  let elfClass := headers.ident.elfClass
  let entrySize := max headers.header.shentsize.toUInt64 (SectionHeader.entrySize elfClass)
  (List.range headers.header.shnum.toNat).mapM fun index =>
    let offset := saturatingAdd headers.header.shoff
      (saturatingMul (UInt64.ofNat index) entrySize)
    SectionHeader.parse reader offset endian elfClass

/-- Resolves the section names; every failure gives no names. -/
def sectionNames (reader : Reader) (headers : ElfHeaders) (raw : List SectionHeader) :
    Exec (List String) :=
  match raw[headers.header.shstrndx.toNat]? with
  | none => .ok []
  | some header =>
    if header.type = SectionType.strtab then do
      match ← (readPayload reader header.offset header.size).attempt with
      | none => return []
      | some data =>
        return raw.map fun entry => StringTable.name data entry.nameIndex.toNat
    else .ok []

/-- One round of the section loop of the file layout. -/
def readFileSection (reader : Reader) (name : String) (header : SectionHeader) :
    Exec Section :=
  if header.isNobits ∨ header.size = 0 then .ok { name, header, data := [] }
  else do
    let data ← readPayload reader header.offset header.size
    return { name, header, data }

def readFileSections (reader : Reader) (headers : ElfHeaders) : Exec (List Section) :=
  if headers.header.shoff = 0 ∨ headers.header.shnum = 0 then .ok []
  else do
    let raw ← readSectionHeaders reader headers
    let names ← sectionNames reader headers raw
    raw.zipIdx.mapM fun entry => readFileSection reader (names.getD entry.2 "") entry.1

/-- Where the bytes of a section start in a mapped source. -/
def mappedSectionStart (header : SectionHeader) (imageBase : UInt64) : UInt64 :=
  if header.flags.isAlloc then saturatingSub header.addr imageBase else header.offset

/-- Reads the section-name string table of a mapped source; every failure gives an
empty table. -/
def mappedStrtab (reader : Reader) (headers : ElfHeaders) (imageBase : UInt64)
    (raw : List SectionHeader) : Exec (List UInt8) :=
  match raw[headers.header.shstrndx.toNat]? with
  | none => .ok []
  | some header =>
    if header.type = SectionType.strtab then do
      match ← (checkedAlloc header.size reader.size).attempt with
      | none => return []
      | some buffer => readLenient reader (mappedSectionStart header imageBase) buffer
    else .ok []

/-- One round of the section loop of the mapped layout; a section whose size is
rejected is skipped. -/
def readMappedSection (reader : Reader) (imageBase : UInt64) (strtab : List UInt8)
    (header : SectionHeader) : Exec (Option Section) := do
  let length := if header.isNobits then 0 else header.size
  match ← (checkedAlloc length reader.size).attempt with
  | none => return none
  | some buffer =>
    let data ← readLenient reader (mappedSectionStart header imageBase) buffer
    return some { header, name := StringTable.name strtab header.nameIndex.toNat, data }

/-- Reads the sections of a mapped source; an unreadable table gives no sections. -/
def readMappedSections (reader : Reader) (headers : ElfHeaders) (imageBase : UInt64) :
    Exec (List Section) := do
  match ← (readSectionHeaders reader headers).attempt with
  | none => return []
  | some raw =>
    let strtab ← mappedStrtab reader headers imageBase raw
    let sections ← raw.mapM (readMappedSection reader imageBase strtab)
    return sections.reduceOption

/-- One round of the segment loop of the file layout. -/
def readFileSegment (reader : Reader) (header : ProgramHeader) : Exec Segment :=
  if header.type = SegmentType.null ∨ header.filesz = 0 then .ok { header, data := [] }
  else do
    let data ← readPayload reader header.offset header.filesz
    return { header, data }

/-- How many bytes the mapped layout reads for a program header. -/
def ProgramHeader.mappedLength (header : ProgramHeader) : UInt64 :=
  if header.type = SegmentType.load then header.memsz else header.filesz

/-- One round of the segment loop of the mapped layout. -/
def readMappedSegment (reader : Reader) (imageBase : UInt64) (header : ProgramHeader) :
    Exec Segment :=
  if header.type = SegmentType.null ∨ header.mappedLength = 0 then
    .ok { header, data := [] }
  else do
    let len ← checkedLen header.mappedLength reader.size
    let start := saturatingSub header.vaddr imageBase
    let data ← readLenient reader start (List.replicate len 0)
    return { header, data }

namespace ElfImage

def readFileLayout (reader : Reader) : Exec ElfImage := do
  let headers ← ElfHeaders.readFrom reader
  let segments ← headers.programHeaders.mapM (readFileSegment reader)
  let sections ← readFileSections reader headers
  return {
    ident := headers.ident, header := headers.header, segments, sections, runtimeBase := 0 }

def readMappedLayout (reader : Reader) : Exec ElfImage := do
  let headers ← ElfHeaders.readFrom reader
  let imageBase := computeImageBase headers.programHeaders
  let segments ← headers.programHeaders.mapM (readMappedSegment reader imageBase)
  let sections ← readMappedSections reader headers imageBase
  return {
    ident := headers.ident, header := headers.header, segments, sections, runtimeBase := 0 }

def readFrom (reader : Reader) (baseOffset : UInt64) (layout : Layout) : Exec ElfImage := do
  let shifted := offsetReader reader baseOffset
  let image ← match layout with
    | .file => readFileLayout shifted
    | .mapped => readMappedLayout shifted
  return { image with runtimeBase := image.imageBase }

def parse (data : List UInt8) : Exec ElfImage := readFrom (sliceReader data) 0 .file

def parseMapped (data : List UInt8) : Exec ElfImage :=
  readFrom (sliceReader data) 0 .mapped

def parseMappedAt (data : List UInt8) (loadBase : UInt64) : Exec ElfImage := do
  let image ← readFrom (sliceReader data) 0 .mapped
  return { image with runtimeBase := loadBase }

/-- Reads a loader-mapped image from a memory source. -/
def readMappedFrom (reader : Reader) (sourceAddress loadBase : UInt64) :
    Exec ElfImage := do
  let image ← readMappedLayout (offsetReader reader sourceAddress)
  return { image with runtimeBase := loadBase }

end ElfImage

end Elfex
