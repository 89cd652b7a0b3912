import Elfex.Foundation.Extent
import Elfex.Image.Basic

/-!
# Serializing an image in file layout

One cursor walks over the segments and then over the sections and writes each
payload at an aligned offset; the two header tables and the file header are
written afterwards around them. Segments and sections go through the same loop,
`placeEach`, which differs only in how an item's payload, position and final
header are computed.
-/

namespace Elfex

open Foundation

/-- The largest serialized or mapped image (256 MiB). -/
def maxImage : ℕ := 256 * 1024 * 1024

/-- The first file offset at or after `cursor` congruent to `vaddr`, saturating. -/
def congruent (cursor vaddr alignment : UInt64) : UInt64 :=
  if alignment ≤ 1 then cursor
  else
    let target := vaddr % alignment
    let current := cursor % alignment
    if current = target then cursor
    else if current < target then saturatingAdd cursor (target - current)
    else saturatingAdd cursor (alignment - (current - target))

/-- Writes `bytes` at `offset`, extending the buffer with zeros as needed. -/
def writeAt (out : List UInt8) (offset : UInt64) (bytes : List UInt8) :
    Exec (List UInt8) :=
  let stop := offset.toNat + bytes.length
  if 2 ^ 64 ≤ stop then Outcome.fail (.generic "image is too large")
  else if maxImage < stop then
    Outcome.fail (.generic "serialized image exceeds the 256 MiB layout limit")
  else .ok (overwrite 0 out offset.toNat bytes)

/-- Replaces the range `start..stop` of a buffer. A range outside the buffer or of
another length than the source faults. -/
def copyFromSlice (out : List UInt8) (start stop : ℕ) (source : List UInt8) :
    Exec (List UInt8) :=
  if start ≤ stop ∧ stop ≤ out.length ∧ source.length = stop - start then
    .ok (splice out start source)
  else Outcome.fault

/-- A count that has to fit a 16-bit header field. -/
def countU16 (n : ℕ) (message : String) : Exec UInt16 :=
  if n < 2 ^ 16 then .ok (UInt16.ofNat n) else Outcome.fail (.generic message)

/-- `u16::try_from(n).unwrap_or(0)`. -/
def u16OrZero (n : ℕ) : UInt16 := if n < 2 ^ 16 then UInt16.ofNat n else 0

/-- The placement loop. An item without payload is recorded as skipped; any other
is written at its position and moves the cursor past its last byte. -/
def placeEach {α β : Type} (payload : α → List UInt8) (position : α → UInt64 → UInt64)
    (skipped : α → β) (placed : α → UInt64 → β) :
    List α → List UInt8 → UInt64 → Exec (List β × List UInt8 × UInt64)
  | [], out, cursor => .ok ([], out, cursor)
  | item :: rest, out, cursor =>
    if payload item = [] then do
      let (records, out, cursor) ← placeEach payload position skipped placed rest out cursor
      return (skipped item :: records, out, cursor)
    else do
      let offset := position item cursor
      let out ← writeAt out offset (payload item)
      let cursor ← Outcome.add offset (UInt64.ofNat (payload item).length)
      let (records, out, cursor) ← placeEach payload position skipped placed rest out cursor
      return (placed item offset :: records, out, cursor)

namespace Segment

/-- The bytes the serializer writes for a segment. -/
def written (segment : Segment) : List UInt8 :=
  segment.data.take (min segment.header.filesz.toNat segment.data.length)

def position (segment : Segment) (cursor : UInt64) : UInt64 :=
  let alignment := if segment.header.isLoad then max segment.header.align 1 else 1
  congruent cursor segment.header.vaddr alignment

/-- The header of a segment with no bytes to write. -/
def skippedHeader (segment : Segment) : ProgramHeader :=
  { segment.header with offset := 0, filesz := 0 }

/-- The header of a segment written at `offset`. -/
def placedHeader (segment : Segment) (offset : UInt64) : ProgramHeader :=
  { segment.header with offset, filesz := UInt64.ofNat segment.written.length }

end Segment

namespace Section

/-- The bytes the serializer writes for a section. -/
def written (sec : Section) : List UInt8 :=
  if sec.header.isNobits then [] else sec.data

def position (sec : Section) (cursor : UInt64) : UInt64 :=
  alignUp cursor (max sec.header.addralign 1)

/-- A section with no bytes to write keeps its header; unless it is `NOBITS`, its
size becomes zero. -/
def skipped (sec : Section) : Section :=
  if sec.header.isNobits then sec else { sec with header := { sec.header with size := 0 } }

/-- A section written at `offset`. -/
def placed (sec : Section) (offset : UInt64) : Section :=
  { sec with header := { sec.header with
      offset, size := UInt64.ofNat sec.data.length } }

def isShstrtab (sec : Section) : Bool :=
  sec.name == ".shstrtab" && sec.header.type == SectionType.strtab

def shstrtab : Section where
  header := {
    nameIndex := 0, type := SectionType.strtab, flags := 0, addr := 0, offset := 0
    size := 0, link := 0, info := 0, addralign := 1, entsize := 0 }
  name := ".shstrtab"
  data := []

end Section

/-- Ensures a section-name string table exists and returns its index. -/
def ensureShstrtab (sections : List Section) : UInt16 × List Section :=
  match sections.findIdx? Section.isShstrtab with
  | some index => (u16OrZero index, sections)
  | none => (u16OrZero sections.length, sections ++ [Section.shstrtab])

/-- The offsets of the names appended to `blob`, and the blob that holds them. -/
def nameOffsets (blob : List UInt8) : List Section → List UInt32 × List UInt8
  | [] => ([], blob)
  | sec :: rest =>
    let (offsets, full) := nameOffsets (blob ++ strBytes sec.name ++ [0]) rest
    (low32 (UInt64.ofNat blob.length) :: offsets, full)

/-- Builds the section-name blob and patches every name index. -/
def assignNameOffsets (sections : List Section) : List Section :=
  let (offsets, blob) := nameOffsets [0] sections
  List.zipWith (fun sec offset =>
    let named : Section := { sec with header := { sec.header with nameIndex := offset } }
    if sec.isShstrtab then
      { named with
        header := { named.header with size := UInt64.ofNat blob.length }
        data := blob }
    else named) sections offsets

/-- Places the section payloads: the name table is rebuilt first. -/
def placeSections (sections : List Section) (out : List UInt8) (cursor : UInt64) :
    Exec (UInt16 × List Section × List UInt8 × UInt64) := do
  if sections = [] then return (0, [], out, cursor)
  else
    let (shstrndx, sections) := ensureShstrtab sections
    let (sections, out, cursor) ← placeEach Section.written Section.position Section.skipped
      Section.placed (assignNameOffsets sections) out cursor
    return (shstrndx, sections, out, cursor)

/-- Writes the section header table after the payloads and returns its offset. -/
def writeSectionTable (endian : Endian) (elfClass : ElfClass) (sections : List Section)
    (out : List UInt8) (cursor : UInt64) : Exec (UInt64 × List UInt8) :=
  if sections = [] then .ok (0, out)
  else do
    let shoff := alignUp cursor 8
    let out ← writeAt out shoff (sections.flatMap fun sec => sec.header.write endian elfClass)
    return (shoff, out)

namespace ElfImage

/-- Serializes the image in file layout. -/
def tryBuild (image : ElfImage) : Exec (List UInt8) := do
  let elfClass := image.ident.elfClass
  let endian := image.ident.data
  let ehsize := ElfHeader.size elfClass
  let phentsize := ProgramHeader.size elfClass
  let out := List.replicate ehsize.toNat 0
  let phoff := ehsize
  let tableSize ← Outcome.mul phentsize (clampWord image.segments.length)
  let cursor ← Outcome.add phoff tableSize
  let (phdrs, out, cursor) ← placeEach Segment.written Segment.position
    Segment.skippedHeader Segment.placedHeader image.segments out cursor
  let (shstrndx, sections, out, cursor) ← placeSections image.sections out cursor
  let out ← writeAt out phoff (phdrs.flatMap fun phdr => phdr.write endian elfClass)
  let phnum ← countU16 phdrs.length "too many program headers for one table"
  let shnum ← countU16 sections.length "too many sections for one table"
  let (shoff, out) ← writeSectionTable endian elfClass sections out cursor
  let header := { image.header with
    phoff, shoff
    ehsize := ehsize.toUInt16
    phentsize := phentsize.toUInt16
    phnum, shnum, shstrndx
    shentsize := (SectionHeader.entrySize elfClass).toUInt16 }
  copyFromSlice out 0 ehsize.toNat header.write

end ElfImage

end Elfex
