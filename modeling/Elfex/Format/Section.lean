import Elfex.Format.Reader

/-!
# Section headers

Section headers follow the pattern of program headers: wide fields in memory,
the class's widths on disk, `decode` for the layout of one entry.
-/

namespace Elfex

open Foundation

abbrev SectionType := UInt32

namespace SectionType

def null : SectionType := 0
def strtab : SectionType := 3
def rela : SectionType := 4
def dynamic : SectionType := 6
def note : SectionType := 7
def nobits : SectionType := 8
def rel : SectionType := 9

end SectionType

abbrev SectionFlags := UInt64

def SectionFlags.write : SectionFlags := 1

def SectionFlags.alloc : SectionFlags := 2

def SectionFlags.isAlloc (flags : SectionFlags) : Bool :=
  flags &&& SectionFlags.alloc != 0

/-- A section header with its address fields widened to 64 bits. -/
structure SectionHeader where
  nameIndex : UInt32
  type : SectionType
  flags : SectionFlags
  addr : UInt64
  offset : UInt64
  size : UInt64
  link : UInt32
  info : UInt32
  addralign : UInt64
  entsize : UInt64
  deriving DecidableEq, Repr

namespace SectionHeader

def entrySize : ElfClass → UInt64
  | .elf32 => 40
  | .elf64 => 64

def parse (reader : Reader) (offset : UInt64) (endian : Endian) (elfClass : ElfClass) :
    Exec SectionHeader :=
  match elfClass with
  | .elf64 => do
    let nameIndex ← reader.readU32At offset endian
    let type ← reader.readU32Past offset 4 endian
    let flags ← reader.readU64Past offset 8 endian
    let addr ← reader.readU64Past offset 16 endian
    let fileOffset ← reader.readU64Past offset 24 endian
    let size ← reader.readU64Past offset 32 endian
    let link ← reader.readU32Past offset 40 endian
    let info ← reader.readU32Past offset 44 endian
    let addralign ← reader.readU64Past offset 48 endian
    let entsize ← reader.readU64Past offset 56 endian
    return {
      nameIndex, type, flags, addr, offset := fileOffset, size, link, info, addralign, entsize }
  | .elf32 => do
    let nameIndex ← reader.readU32At offset endian
    let type ← reader.readU32Past offset 4 endian
    let flags ← reader.readU32Past offset 8 endian
    let addr ← reader.readU32Past offset 12 endian
    let fileOffset ← reader.readU32Past offset 16 endian
    let size ← reader.readU32Past offset 20 endian
    let link ← reader.readU32Past offset 24 endian
    let info ← reader.readU32Past offset 28 endian
    let addralign ← reader.readU32Past offset 32 endian
    let entsize ← reader.readU32Past offset 36 endian
    return {
      nameIndex, type, link, info
      flags := flags.toUInt64
      addr := addr.toUInt64
      offset := fileOffset.toUInt64
      size := size.toUInt64
      addralign := addralign.toUInt64
      entsize := entsize.toUInt64 }

def write (header : SectionHeader) (endian : Endian) : ElfClass → List UInt8
  | .elf64 =>
    endian.u32Bytes header.nameIndex ++ endian.u32Bytes header.type ++
      endian.u64Bytes header.flags ++ endian.u64Bytes header.addr ++
      endian.u64Bytes header.offset ++ endian.u64Bytes header.size ++
      endian.u32Bytes header.link ++ endian.u32Bytes header.info ++
      endian.u64Bytes header.addralign ++ endian.u64Bytes header.entsize
  | .elf32 =>
    endian.u32Bytes header.nameIndex ++ endian.u32Bytes header.type ++
      endian.u32Bytes (low32 header.flags) ++ endian.u32Bytes (low32 header.addr) ++
      endian.u32Bytes (low32 header.offset) ++ endian.u32Bytes (low32 header.size) ++
      endian.u32Bytes header.link ++ endian.u32Bytes header.info ++
      endian.u32Bytes (low32 header.addralign) ++ endian.u32Bytes (low32 header.entsize)

/-- Tests whether the section occupies no file bytes. -/
def isNobits (header : SectionHeader) : Bool := header.type == SectionType.nobits

/-- The header whose on-disk entry is `entry`. -/
def decode (endian : Endian) (elfClass : ElfClass) (entry : List UInt8) : SectionHeader :=
  match elfClass with
  | .elf64 => {
      nameIndex := endian.u32 (window entry 0 4)
      type := endian.u32 (window entry 4 4)
      flags := endian.u64 (window entry 8 8)
      addr := endian.u64 (window entry 16 8)
      offset := endian.u64 (window entry 24 8)
      size := endian.u64 (window entry 32 8)
      link := endian.u32 (window entry 40 4)
      info := endian.u32 (window entry 44 4)
      addralign := endian.u64 (window entry 48 8)
      entsize := endian.u64 (window entry 56 8) }
  | .elf32 => {
      nameIndex := endian.u32 (window entry 0 4)
      type := endian.u32 (window entry 4 4)
      flags := (endian.u32 (window entry 8 4)).toUInt64
      addr := (endian.u32 (window entry 12 4)).toUInt64
      offset := (endian.u32 (window entry 16 4)).toUInt64
      size := (endian.u32 (window entry 20 4)).toUInt64
      link := endian.u32 (window entry 24 4)
      info := endian.u32 (window entry 28 4)
      addralign := (endian.u32 (window entry 32 4)).toUInt64
      entsize := (endian.u32 (window entry 36 4)).toUInt64 }

def narrow (header : SectionHeader) (elfClass : ElfClass) : SectionHeader :=
  { header with
    flags := elfClass.keep header.flags
    addr := elfClass.keep header.addr
    offset := elfClass.keep header.offset
    size := elfClass.keep header.size
    addralign := elfClass.keep header.addralign
    entsize := elfClass.keep header.entsize }

def Fits (header : SectionHeader) (elfClass : ElfClass) : Prop :=
  header.narrow elfClass = header

@[simp] theorem length_write (header : SectionHeader) (endian : Endian)
    (elfClass : ElfClass) :
    (header.write endian elfClass).length = (entrySize elfClass).toNat := by
  cases elfClass <;> simp [write, entrySize]

/-- A written entry decodes to what the widths of the class keep of it. -/
@[simp] theorem decode_write (header : SectionHeader) (endian : Endian)
    (elfClass : ElfClass) :
    decode endian elfClass (header.write endian elfClass) = header.narrow elfClass := by
  cases elfClass <;>
    simp [write, decode, narrow, window_append_left, window_append_of_le, window_eq_self]

theorem decode_fits (endian : Endian) (elfClass : ElfClass) (entry : List UInt8) :
    (decode endian elfClass entry).Fits elfClass := by
  cases elfClass <;> simp [Fits, decode, narrow, low32]

theorem Fits.keeps {header : SectionHeader} {elfClass : ElfClass}
    (h : header.Fits elfClass) :
    elfClass.keep header.flags = header.flags ∧ elfClass.keep header.addr = header.addr ∧
      elfClass.keep header.size = header.size ∧
      elfClass.keep header.addralign = header.addralign ∧
      elfClass.keep header.entsize = header.entsize ∧
      elfClass.keep header.offset = header.offset := by
  obtain ⟨nameIndex, type, flags, addr, offset, size, link, info, addralign, entsize⟩ := header
  obtain ⟨-, -, hflags, haddr, hoffset, hsize, -, -, haddralign, hentsize⟩ :=
    SectionHeader.mk.inj h
  exact ⟨hflags, haddr, hsize, haddralign, hentsize, hoffset⟩

/-- The parser decodes the entry when it lies inside the served string and fails
otherwise. -/
theorem parse_decides {reader : Reader} {data : List UInt8} (h : reader.ServesBytes data)
    (offset : UInt64) (endian : Endian) (elfClass : ElfClass) :
    (parse reader offset endian elfClass).Decides
      (offset.toNat + (entrySize elfClass).toNat ≤ data.length)
      (decode endian elfClass (window data offset.toNat (entrySize elfClass).toNat)) := by
  have hlen := h.length
  have h32 := fun delta => readU32Past_decides h offset delta endian
  have h64 := fun delta => readU64Past_decides h offset delta endian
  cases elfClass with
  | elf64 =>
      refine ((readU32At_decides h offset endian).bind fun h0 =>
        (h32 4 ?_).bind fun h1 => (h64 8 ?_).bind fun h2 => (h64 16 ?_).bind fun h3 =>
        (h64 24 ?_).bind fun h4 => (h64 32 ?_).bind fun h5 => (h32 40 ?_).bind fun h6 =>
        (h32 44 ?_).bind fun h7 => (h64 48 ?_).bind fun h8 =>
        (h64 56 ?_).map _).congr ?_ fun _ => ?_
      case refine_10 => simp [entrySize]; omega
      case refine_11 => simp [decode, entrySize, window_window]
      all_goals simp at *; omega
  | elf32 =>
      refine ((readU32At_decides h offset endian).bind fun h0 =>
        (h32 4 ?_).bind fun h1 => (h32 8 ?_).bind fun h2 => (h32 12 ?_).bind fun h3 =>
        (h32 16 ?_).bind fun h4 => (h32 20 ?_).bind fun h5 => (h32 24 ?_).bind fun h6 =>
        (h32 28 ?_).bind fun h7 => (h32 32 ?_).bind fun h8 =>
        (h32 36 ?_).map _).congr ?_ fun _ => ?_
      case refine_10 => simp [entrySize]; omega
      case refine_11 => simp [decode, entrySize, window_window]
      all_goals simp at *; omega

end SectionHeader

/-- A section header paired with its resolved name and bytes. -/
structure Section where
  header : SectionHeader
  name : String
  data : List UInt8
  deriving DecidableEq, Repr

/-- Tests whether `vaddr` falls within the section's memory range. -/
def Section.containsVaddr (sec : Section) (vaddr : UInt64) : Bool :=
  sec.header.flags.isAlloc && decide (sec.header.addr ≤ vaddr) &&
    decide (vaddr < saturatingAdd sec.header.addr sec.header.size)

end Elfex
