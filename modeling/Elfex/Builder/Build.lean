import Elfex.Builder.Serialize
import Elfex.Image.Parse

/-!
# Building an image from scratch

A builder lists the loads, notes, relocations and needed libraries of an image. It
assembles them into an image whose offsets are open, serializes that image, which fixes
the offsets, and returns what the bytes parse to.
-/

namespace Elfex

open Foundation

structure LoadSpec where
  vaddr : UInt64
  flags : SegmentFlags
  align : UInt64
  data : List UInt8
  deriving DecidableEq, Repr

structure TlsSpec where
  vaddr : UInt64
  data : List UInt8
  memsz : UInt64
  align : UInt64
  deriving DecidableEq, Repr

@[ext] structure ElfBuilder where
  elfClass : ElfClass
  endian : Endian
  elfType : ElfType
  machine : Machine
  entry : UInt64
  osAbi : OsAbi
  flags : UInt32
  loads : List LoadSpec
  notes : List NoteSpec
  relocations : List RelocationEntry
  tls : Option TlsSpec
  needed : List String
  deriving DecidableEq, Repr

/-- The segment of a load. Its offset is open until the image is serialized. -/
def LoadSpec.segment (load : LoadSpec) : Segment where
  header := {
    type := SegmentType.load
    flags := load.flags
    offset := 0
    vaddr := load.vaddr
    paddr := load.vaddr
    filesz := u64OrZero load.data.length
    memsz := u64OrZero load.data.length
    align := load.align }
  data := load.data

def TlsSpec.segment (tls : TlsSpec) : Segment where
  header := {
    type := SegmentType.tls
    flags := SegmentFlags.read
    offset := 0
    vaddr := tls.vaddr
    paddr := tls.vaddr
    filesz := u64OrZero tls.data.length
    memsz := tls.memsz
    align := tls.align }
  data := tls.data

/-- A segment of a table that has no address. -/
def tableSegment (type : SegmentType) (flags : SegmentFlags) (align : UInt64)
    (data : List UInt8) : Segment where
  header := {
    type, flags, align
    offset := 0
    vaddr := 0
    paddr := 0
    filesz := u64OrZero data.length
    memsz := u64OrZero data.length }
  data := data

/-- A section of a table that has no address. -/
def tableSection (name : String) (type : SectionType) (flags : SectionFlags)
    (addralign entsize : UInt64) (data : List UInt8) : Section where
  header := {
    type, flags, addralign, entsize
    nameIndex := 0
    addr := 0
    offset := 0
    size := u64OrZero data.length
    link := 0
    info := 0 }
  name := name
  data := data

def nullSection : Section := tableSection "" SectionType.null 0 0 0 []

def NoteSpec.segment (spec : NoteSpec) (endian : Endian) : Segment :=
  tableSegment SegmentType.note SegmentFlags.read 4 (serializeNote spec endian)

def NoteSpec.sec (spec : NoteSpec) (endian : Endian) : Section :=
  tableSection (".note." ++ spec.name) SectionType.note 0 4 0 (serializeNote spec endian)

/-- The segments and sections of the notes, behind the given ones. -/
def addNotes (notes : List NoteSpec) (endian : Endian) (segments : List Segment)
    (sections : List Section) : List Segment × List Section :=
  (segments ++ notes.map fun spec => spec.segment endian,
    sections ++ notes.map fun spec => spec.sec endian)

/-- The dynamic segment and the two sections of the needed libraries, if there are any. -/
def addDynamic (needed : List String) (endian : Endian) (elfClass : ElfClass)
    (segments : List Segment) (sections : List Section) : List Segment × List Section :=
  if needed = [] then (segments, sections)
  else
    let entsize := match elfClass with
      | .elf64 => 16
      | .elf32 => 8
    (segments ++ [tableSegment SegmentType.dynamic (SegmentFlags.read ||| SegmentFlags.write) 8
        (serializeDynamic needed endian elfClass)],
      sections ++ [
        tableSection ".dynstr" SectionType.strtab SectionFlags.alloc 1 0 (dynstr needed),
        tableSection ".dynamic" SectionType.dynamic (SectionFlags.alloc ||| SectionFlags.write)
          8 entsize (serializeDynamic needed endian elfClass)])

/-- The relocation section, if there are relocations. -/
def addRela (relocations : List RelocationEntry) (endian : Endian) (elfClass : ElfClass)
    (sections : List Section) : List Section :=
  if relocations = [] then sections
  else
    let entsize := match elfClass with
      | .elf64 => 24
      | .elf32 => 12
    sections ++ [tableSection ".rela.dyn" SectionType.rela 0 8 entsize
      (serializeRela relocations endian elfClass)]

namespace ElfBuilder

def new : ElfBuilder where
  elfClass := .elf64
  endian := .little
  elfType := .exec
  machine := Machine.x86_64
  entry := 0
  osAbi := 0
  flags := 0
  loads := []
  notes := []
  relocations := []
  tls := none
  needed := []

def withClass (builder : ElfBuilder) (elfClass : ElfClass) : ElfBuilder :=
  { builder with elfClass }

def withEndian (builder : ElfBuilder) (endian : Endian) : ElfBuilder := { builder with endian }

def withElfType (builder : ElfBuilder) (elfType : ElfType) : ElfBuilder :=
  { builder with elfType }

def withMachine (builder : ElfBuilder) (machine : Machine) : ElfBuilder :=
  { builder with machine }

def withEntry (builder : ElfBuilder) (entry : UInt64) : ElfBuilder := { builder with entry }

def withOsAbi (builder : ElfBuilder) (osAbi : OsAbi) : ElfBuilder := { builder with osAbi }

def withFlags (builder : ElfBuilder) (flags : UInt32) : ElfBuilder := { builder with flags }

/-- Adds a loadable segment with an explicit alignment. -/
def addLoadAligned (builder : ElfBuilder) (vaddr : UInt64) (flags : SegmentFlags)
    (align : UInt64) (data : List UInt8) : ElfBuilder :=
  { builder with loads := builder.loads ++ [{ vaddr, flags, align, data }] }

/-- Adds a loadable segment aligned to a page. -/
def addLoad (builder : ElfBuilder) (vaddr : UInt64) (flags : SegmentFlags)
    (data : List UInt8) : ElfBuilder :=
  builder.addLoadAligned vaddr flags 0x1000 data

/-- Adds a note record. -/
def addNote (builder : ElfBuilder) (name : String) (noteType : UInt32)
    (descriptor : List UInt8) : ElfBuilder :=
  { builder with notes := builder.notes ++ [{ name, noteType, descriptor }] }

/-- Sets the relocation entries: the ones of an earlier call are dropped. -/
def addRelocations (builder : ElfBuilder) (entries : List RelocationEntry) : ElfBuilder :=
  { builder with relocations := entries }

/-- Sets the thread-local storage template. -/
def addTls (builder : ElfBuilder) (vaddr : UInt64) (data : List UInt8) (memsz align : UInt64) :
    ElfBuilder :=
  { builder with tls := some { vaddr, data, memsz, align } }

/-- Adds a needed library. -/
def addDynamicNeeded (builder : ElfBuilder) (name : String) : ElfBuilder :=
  { builder with needed := builder.needed ++ [name] }

def ident (builder : ElfBuilder) : ElfIdent where
  elfClass := builder.elfClass
  data := builder.endian
  version := 1
  osAbi := builder.osAbi
  abiVersion := 0

/-- The file header with its table fields open. -/
def header (builder : ElfBuilder) : ElfHeader where
  ident := builder.ident
  type := builder.elfType
  machine := builder.machine
  version := 1
  entry := builder.entry
  phoff := 0
  shoff := 0
  flags := builder.flags
  ehsize := 0
  phentsize := 0
  phnum := 0
  shentsize := 0
  shnum := 0
  shstrndx := 0

/-- The image the builder serializes. -/
def image (builder : ElfBuilder) : ElfImage :=
  let segments := builder.loads.map LoadSpec.segment ++
    (builder.tls.map TlsSpec.segment).toList
  let (segments, sections) := addNotes builder.notes builder.endian segments [nullSection]
  let (segments, sections) := addDynamic builder.needed builder.endian builder.elfClass
    segments sections
  let sections := addRela builder.relocations builder.endian builder.elfClass sections
  { ident := builder.ident
    header := builder.header
    segments, sections
    runtimeBase := 0 }

/-- Builds the image. -/
def tryBuild (builder : ElfBuilder) : Exec ElfImage := do
  let bytes ← builder.image.tryBuild
  ElfImage.parse bytes

end ElfBuilder

end Elfex
