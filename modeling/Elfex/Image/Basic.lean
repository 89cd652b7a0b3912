import Elfex.Format.Header
import Elfex.Format.Strtab

/-!
# The image container

`ElfImage` owns the headers, segments and sections of one object. The address
geometry is derived from the loadable segments alone: a base and a span rounded
to the largest alignment among them.
-/

namespace Elfex

open Foundation

structure ElfImage where
  ident : ElfIdent
  header : ElfHeader
  segments : List Segment
  sections : List Section
  runtimeBase : UInt64
  deriving DecidableEq, Repr

/-- The address geometry derived from the loadable segments. -/
structure ImageGeometry where
  base : UInt64
  page : UInt64
  span : UInt64
  deriving DecidableEq, Repr

/-- The `(vaddr, memsz, align)` fields of a loadable segment. -/
structure LoadRecord where
  vaddr : UInt64
  memsz : UInt64
  align : UInt64
  deriving DecidableEq, Repr

/-- The smallest multiple of `alignment` at or after `value`, saturating. -/
def alignUp (value alignment : UInt64) : UInt64 :=
  if alignment ≤ 1 then value
  else
    let remainder := value % alignment
    if remainder = 0 then value else saturatingAdd value (alignment - remainder)

/-- The running values of the geometry loop. -/
structure GeometryFold where
  page : UInt64
  minVaddr : Option UInt64
  maxEnd : UInt64

namespace GeometryFold

def init : GeometryFold := { page := 0x1000, minVaddr := none, maxEnd := 0 }

/-- One round of the geometry loop; a record with no memory is skipped. -/
def step (fold : GeometryFold) (record : LoadRecord) : GeometryFold :=
  if record.memsz = 0 then fold
  else {
    minVaddr := some (fold.minVaddr.elim record.vaddr fun current =>
      min current record.vaddr)
    maxEnd := max fold.maxEnd (saturatingAdd record.vaddr record.memsz)
    page := if 1 < record.align then max fold.page record.align else fold.page }

end GeometryFold

def geometry (loads : List LoadRecord) : ImageGeometry :=
  let fold := loads.foldl GeometryFold.step GeometryFold.init
  match fold.minVaddr with
  | none => { base := 0, page := fold.page, span := 0 }
  | some minVaddr =>
    let base := minVaddr - minVaddr % fold.page
    { base, page := fold.page, span := saturatingSub (alignUp fold.maxEnd fold.page) base }

/-- The load record of a program header. -/
def ProgramHeader.loadRecord (header : ProgramHeader) : LoadRecord :=
  { vaddr := header.vaddr, memsz := header.memsz, align := header.align }

/-- The load records of a program header table, in table order. -/
def loadRecords (headers : List ProgramHeader) : List LoadRecord :=
  (headers.filter ProgramHeader.isLoad).map ProgramHeader.loadRecord

namespace ElfImage

def geometry (image : ElfImage) : ImageGeometry :=
  Elfex.geometry (loadRecords (image.segments.map Segment.header))

def imageBase (image : ElfImage) : UInt64 := image.geometry.base

def imageSpan (image : ElfImage) : UInt64 := image.geometry.span

end ElfImage

end Elfex
