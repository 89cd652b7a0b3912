import Elfex.Format.Notes
import Elfex.Image.Basic

/-!
# Address conversion and derived tables

An image-relative offset is a distance from the preferred base. The accessors
resolve it by a first-match search over the segment table, each with a filter of
its own; the derived tables are read out of segment and section bytes.
-/

namespace Elfex

open Foundation

namespace ElfImage

/-- The address of an image-relative offset, when it is representable. -/
def vaddrOf (image : ElfImage) (ioff : UInt64) : Option UInt64 :=
  checkedAdd image.imageBase ioff

/-- Tests whether an image-relative range lies inside the image. -/
def containsIoffRange (image : ElfImage) (ioff len : UInt64) : Bool :=
  match checkedAdd ioff len with
  | some stop => stop ≤ image.imageSpan
  | none => false

/-- The file offset of an image-relative offset, in the first loadable segment whose file
bytes cover it. -/
def ioffToOffset (image : ElfImage) (ioff : UInt64) : Option UInt64 := do
  let vaddr ← image.vaddrOf ioff
  let segment ← image.segments.find? fun segment =>
    segment.header.isLoad && decide (segment.header.vaddr ≤ vaddr) &&
      decide (vaddr < saturatingAdd segment.header.vaddr segment.header.filesz)
  checkedAdd segment.header.offset (vaddr - segment.header.vaddr)

/-- The first segment that covers an image-relative offset. -/
def segmentByIoff (image : ElfImage) (ioff : UInt64) : Option Segment := do
  let vaddr ← image.vaddrOf ioff
  image.segments.find? fun segment => segment.containsVaddr vaddr

/-- Up to `len` bytes from an address on, zero past the covering segment's bytes. -/
def readAtVaddr (image : ElfImage) (vaddr : UInt64) (len : ℕ) : Option (List UInt8) := do
  let segment ← image.segments.find? fun segment => segment.containsVaddr vaddr
  let inSegment := (vaddr - segment.header.vaddr).toNat
  let available :=
    if segment.data.length < inSegment then [] else segment.data.drop inSegment
  let fromData := min available.length len
  return splice (List.replicate len 0) 0 (available.take fromData)

/-- Up to `len` bytes from an image-relative offset on, into owned storage. -/
def readIoff (image : ElfImage) (ioff : UInt64) (len : ℕ) : Option (List UInt8) := do
  let vaddr ← image.vaddrOf ioff
  image.readAtVaddr vaddr len

/-- A zero-filled vector: one larger than an allocation may be does not come back. -/
def allocVec (len : ℕ) : Exec (List UInt8) :=
  if isizeMax < len then Outcome.fault else .ok (List.replicate len 0)

/-- `readAtVaddr` with the allocation of its result. -/
def readAtVaddrExec (image : ElfImage) (vaddr : UInt64) (len : ℕ) :
    Exec (Option (List UInt8)) :=
  match image.segments.find? fun segment => segment.containsVaddr vaddr with
  | none => .ok none
  | some segment => do
    let inSegment := (vaddr - segment.header.vaddr).toNat
    let out ← allocVec len
    let available :=
      if segment.data.length < inSegment then [] else segment.data.drop inSegment
    let fromData := min available.length out.length
    return some (splice out 0 (available.take fromData))

/-- `readIoff` with the allocation of its result. -/
def readIoffExec (image : ElfImage) (ioff : UInt64) (len : ℕ) :
    Exec (Option (List UInt8)) :=
  match image.vaddrOf ioff with
  | none => .ok none
  | some vaddr => image.readAtVaddrExec vaddr len

/-- Up to `len` bytes of file data from an image-relative offset on. -/
def readAtIoff (image : ElfImage) (ioff : UInt64) (len : ℕ) : Option (List UInt8) := do
  let segment ← image.segmentByIoff ioff
  segment.dataAtVaddr (image.imageBase + ioff) len

def sectionByName (image : ElfImage) (name : String) : Option Section :=
  image.sections.find? fun sec => sec.name == name

def dynamic (image : ElfImage) : Exec (Option DynamicTable) :=
  match image.segments.find? fun segment => segment.header.type == SegmentType.dynamic with
  | none => .ok none
  | some segment => do
    let table ← DynamicTable.parse segment.data image.ident.data image.ident.elfClass
    return some table

/-- Parses a symbol table from two named sections; an absent table is empty. -/
def symbolsFrom (image : ElfImage) (table strings : String) : Exec SymbolTable :=
  match image.sectionByName table with
  | none => .ok { symbols := [] }
  | some sec =>
    let strtab := ((image.sectionByName strings).map Section.data).getD []
    SymbolTable.parse sec.data strtab image.ident.data image.ident.elfClass

def dynamicSymbols (image : ElfImage) : Exec SymbolTable :=
  image.symbolsFrom ".dynsym" ".dynstr"

def symbols (image : ElfImage) : Exec SymbolTable := image.symbolsFrom ".symtab" ".strtab"

/-- The defined global and weak symbols of the dynamic symbol table. -/
def exports (image : ElfImage) : Exec (List Symbol) := do
  let table ← image.dynamicSymbols
  return table.symbols.filter fun sym =>
    decide (sym.shndx ≠ 0) && (sym.bind == .global || sym.bind == .weak)

/-- Tests for a relocation section; `some true` for the form with addends. -/
def relocationForm (header : SectionHeader) : Option Bool :=
  if header.type = SectionType.rela then some true
  else if header.type = SectionType.rel then some false
  else none

def relocations (image : ElfImage) : Exec (List RelocationSection) :=
  (image.sections.filterMap fun sec =>
    (relocationForm sec.header).map fun isRela => (sec.data, isRela)).mapM fun entry =>
      RelocationSection.parse entry.1 entry.2 image.ident.data image.ident.elfClass

/-- The byte strings that hold the notes of an image: those of the `PT_NOTE` segments,
or of the note sections when there are no such segments. -/
def noteSources (image : ElfImage) : List (List UInt8) :=
  let segments := image.segments.filter fun segment =>
    segment.header.type == SegmentType.note
  if segments = [] then
    (image.sections.filter fun sec => sec.header.type == SectionType.note).map Section.data
  else segments.map Segment.data

/-- Parses every note of the image, with the `usize` of a 64-bit target. -/
def notes (image : ElfImage) : Exec (List Note) := do
  let notes ← image.noteSources.mapM fun data => Note.parseAll 64 data image.ident.data
  return notes.flatten

/-- The thread-local storage of the first `PT_TLS` segment. -/
def tls (image : ElfImage) : Option TlsInfo :=
  (image.segments.find? fun segment => segment.header.type == SegmentType.tls).map
    fun segment => TlsInfo.fromHeader segment.header

/-- The names of the shared objects the image depends on. -/
def neededLibraries (image : ElfImage) : Exec (List String) := do
  match ← image.dynamic with
  | none => return []
  | some table =>
    let strtab := ((image.sectionByName ".dynstr").map Section.data).getD []
    return table.needed strtab

def buildId (image : ElfImage) : Exec (Option (List UInt8)) := do
  let notes ← image.notes
  return (notes.find? fun note => note.isGnu ntGnuBuildId).map Note.descriptor

end ElfImage

end Elfex
