import Elfex.Format.Reader

/-!
# Program headers and segments

A program header describes one segment of the run-time image; its fields are
widened to 64 bits in memory and narrowed to the class's width on disk. `decode`
is the layout of one on-disk entry as a function of its bytes: the parser reads
exactly that, and the serializer writes its inverse.
-/

namespace Elfex

open Foundation

abbrev SegmentType := UInt32

namespace SegmentType

def null : SegmentType := 0
def load : SegmentType := 1
def dynamic : SegmentType := 2
def interp : SegmentType := 3
def note : SegmentType := 4
def phdr : SegmentType := 6
def tls : SegmentType := 7

end SegmentType

abbrev SegmentFlags := UInt32

namespace SegmentFlags

def execute : SegmentFlags := 1
def write : SegmentFlags := 2
def read : SegmentFlags := 4

end SegmentFlags

/-- A program header with its address fields widened to 64 bits. -/
structure ProgramHeader where
  type : SegmentType
  flags : SegmentFlags
  offset : UInt64
  vaddr : UInt64
  paddr : UInt64
  filesz : UInt64
  memsz : UInt64
  align : UInt64
  deriving DecidableEq, Repr

namespace ProgramHeader

def size : ElfClass → UInt64
  | .elf32 => 32
  | .elf64 => 56

def parse (reader : Reader) (offset : UInt64) (endian : Endian) (elfClass : ElfClass) :
    Exec ProgramHeader :=
  match elfClass with
  | .elf64 => do
    let type ← reader.readU32At offset endian
    let flags ← reader.readU32Past offset 4 endian
    let fileOffset ← reader.readU64Past offset 8 endian
    let vaddr ← reader.readU64Past offset 16 endian
    let paddr ← reader.readU64Past offset 24 endian
    let filesz ← reader.readU64Past offset 32 endian
    let memsz ← reader.readU64Past offset 40 endian
    let align ← reader.readU64Past offset 48 endian
    return { type, flags, offset := fileOffset, vaddr, paddr, filesz, memsz, align }
  | .elf32 => do
    let type ← reader.readU32At offset endian
    let fileOffset ← reader.readU32Past offset 4 endian
    let vaddr ← reader.readU32Past offset 8 endian
    let paddr ← reader.readU32Past offset 12 endian
    let filesz ← reader.readU32Past offset 16 endian
    let memsz ← reader.readU32Past offset 20 endian
    let flags ← reader.readU32Past offset 24 endian
    let align ← reader.readU32Past offset 28 endian
    return {
      type, flags
      offset := fileOffset.toUInt64
      vaddr := vaddr.toUInt64
      paddr := paddr.toUInt64
      filesz := filesz.toUInt64
      memsz := memsz.toUInt64
      align := align.toUInt64 }

def write (header : ProgramHeader) (endian : Endian) : ElfClass → List UInt8
  | .elf64 =>
    endian.u32Bytes header.type ++ endian.u32Bytes header.flags ++
      endian.u64Bytes header.offset ++ endian.u64Bytes header.vaddr ++
      endian.u64Bytes header.paddr ++ endian.u64Bytes header.filesz ++
      endian.u64Bytes header.memsz ++ endian.u64Bytes header.align
  | .elf32 =>
    endian.u32Bytes header.type ++ endian.u32Bytes (low32 header.offset) ++
      endian.u32Bytes (low32 header.vaddr) ++ endian.u32Bytes (low32 header.paddr) ++
      endian.u32Bytes (low32 header.filesz) ++ endian.u32Bytes (low32 header.memsz) ++
      endian.u32Bytes header.flags ++ endian.u32Bytes (low32 header.align)

def isLoad (header : ProgramHeader) : Bool := header.type == SegmentType.load

/-- The header whose on-disk entry is `entry`. -/
def decode (endian : Endian) (elfClass : ElfClass) (entry : List UInt8) : ProgramHeader :=
  match elfClass with
  | .elf64 => {
      type := endian.u32 (window entry 0 4)
      flags := endian.u32 (window entry 4 4)
      offset := endian.u64 (window entry 8 8)
      vaddr := endian.u64 (window entry 16 8)
      paddr := endian.u64 (window entry 24 8)
      filesz := endian.u64 (window entry 32 8)
      memsz := endian.u64 (window entry 40 8)
      align := endian.u64 (window entry 48 8) }
  | .elf32 => {
      type := endian.u32 (window entry 0 4)
      offset := (endian.u32 (window entry 4 4)).toUInt64
      vaddr := (endian.u32 (window entry 8 4)).toUInt64
      paddr := (endian.u32 (window entry 12 4)).toUInt64
      filesz := (endian.u32 (window entry 16 4)).toUInt64
      memsz := (endian.u32 (window entry 20 4)).toUInt64
      flags := endian.u32 (window entry 24 4)
      align := (endian.u32 (window entry 28 4)).toUInt64 }

def narrow (header : ProgramHeader) (elfClass : ElfClass) : ProgramHeader :=
  { header with
    offset := elfClass.keep header.offset
    vaddr := elfClass.keep header.vaddr
    paddr := elfClass.keep header.paddr
    filesz := elfClass.keep header.filesz
    memsz := elfClass.keep header.memsz
    align := elfClass.keep header.align }

def Fits (header : ProgramHeader) (elfClass : ElfClass) : Prop :=
  header.narrow elfClass = header

@[simp] theorem length_write (header : ProgramHeader) (endian : Endian)
    (elfClass : ElfClass) :
    (header.write endian elfClass).length = (size elfClass).toNat := by
  cases elfClass <;> simp [write, size]

/-- A written entry decodes to what the widths of the class keep of it. -/
@[simp] theorem decode_write (header : ProgramHeader) (endian : Endian)
    (elfClass : ElfClass) :
    decode endian elfClass (header.write endian elfClass) = header.narrow elfClass := by
  cases elfClass <;>
    simp [write, decode, narrow, window_append_left, window_append_of_le, window_eq_self]

theorem decode_fits (endian : Endian) (elfClass : ElfClass) (entry : List UInt8) :
    (decode endian elfClass entry).Fits elfClass := by
  cases elfClass <;> simp [Fits, decode, narrow, low32]

theorem Fits.keeps {header : ProgramHeader} {elfClass : ElfClass}
    (h : header.Fits elfClass) :
    elfClass.keep header.vaddr = header.vaddr ∧ elfClass.keep header.paddr = header.paddr ∧
      elfClass.keep header.filesz = header.filesz ∧
      elfClass.keep header.memsz = header.memsz ∧
      elfClass.keep header.align = header.align := by
  obtain ⟨type, flags, offset, vaddr, paddr, filesz, memsz, align⟩ := header
  exact (ProgramHeader.mk.inj h).2.2.2

/-- The parser decodes the entry when it lies inside the served string and fails
otherwise. -/
theorem parse_decides {reader : Reader} {data : List UInt8} (h : reader.ServesBytes data)
    (offset : UInt64) (endian : Endian) (elfClass : ElfClass) :
    (parse reader offset endian elfClass).Decides
      (offset.toNat + (size elfClass).toNat ≤ data.length)
      (decode endian elfClass (window data offset.toNat (size elfClass).toNat)) := by
  have hlen := h.length
  have h32 := fun delta => readU32Past_decides h offset delta endian
  have h64 := fun delta => readU64Past_decides h offset delta endian
  cases elfClass with
  | elf64 =>
      refine ((readU32At_decides h offset endian).bind fun h0 =>
        (h32 4 ?_).bind fun h1 => (h64 8 ?_).bind fun h2 => (h64 16 ?_).bind fun h3 =>
        (h64 24 ?_).bind fun h4 => (h64 32 ?_).bind fun h5 => (h64 40 ?_).bind fun h6 =>
        (h64 48 ?_).map _).congr ?_ fun _ => ?_
      case refine_8 => simp [size]; omega
      case refine_9 => simp [decode, size, window_window]
      all_goals simp at *; omega
  | elf32 =>
      refine ((readU32At_decides h offset endian).bind fun h0 =>
        (h32 4 ?_).bind fun h1 => (h32 8 ?_).bind fun h2 => (h32 12 ?_).bind fun h3 =>
        (h32 16 ?_).bind fun h4 => (h32 20 ?_).bind fun h5 => (h32 24 ?_).bind fun h6 =>
        (h32 28 ?_).map _).congr ?_ fun _ => ?_
      case refine_8 => simp [size]; omega
      case refine_9 => simp [decode, size, window_window]
      all_goals simp at *; omega

end ProgramHeader

/-- A program header paired with the bytes it covers. -/
structure Segment where
  header : ProgramHeader
  data : List UInt8
  deriving DecidableEq, Repr

namespace Segment

/-- Tests whether `vaddr` falls within the segment's memory range. -/
def containsVaddr (segment : Segment) (vaddr : UInt64) : Bool :=
  decide (segment.header.vaddr ≤ vaddr) &&
    decide (vaddr < saturatingAdd segment.header.vaddr segment.header.memsz)

/-- Up to `len` bytes from `vaddr` on, out of the file-backed data. -/
def dataAtVaddr (segment : Segment) (vaddr : UInt64) (len : ℕ) : Option (List UInt8) :=
  if segment.containsVaddr vaddr then
    let start := (vaddr - segment.header.vaddr).toNat
    if segment.data.length < start then none
    else
      let available := segment.data.drop start
      some (available.take (min len available.length))
  else none

end Segment

end Elfex
