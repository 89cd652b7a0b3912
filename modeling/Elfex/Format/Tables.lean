import Elfex.Format.Header
import Elfex.Format.Strtab

/-!
# Dynamic, symbol and relocation tables

Three tables of fixed-size entries that live in section or segment bytes. Each
parser rejects bytes that are not a whole number of entries and decodes the
entries in order; the relocation classification covers the two x86 machines. The
layout of thread-local storage is read off one program header.
-/

namespace Elfex

open Foundation

/-- Extracts `n` bytes at `offset`. -/
def arrayAt (n : ℕ) (data : List UInt8) (offset : ℕ) : Exec (List UInt8) :=
  if data.length < offset + n then
    Outcome.fail (.bufferTooSmall n (data.length - offset))
  else .ok (window data offset n)

def array2 : List UInt8 → ℕ → Exec (List UInt8) := arrayAt 2

def array4 : List UInt8 → ℕ → Exec (List UInt8) := arrayAt 4

def array8 : List UInt8 → ℕ → Exec (List UInt8) := arrayAt 8

theorem arrayAt_eq {n offset : ℕ} {data : List UInt8} (h : offset + n ≤ data.length) :
    arrayAt n data offset = .ok (window data offset n) := by
  rw [arrayAt, if_neg (by omega)]

/-- The whole chunks of `n` elements, in order. -/
def chunksExact (n : ℕ) (data : List UInt8) : List (List UInt8) :=
  (List.range (data.length / n)).map fun i => window data (i * n) n

/-! ## The dynamic table -/

abbrev DynTag := UInt64

namespace DynTag

def null : DynTag := 0
def needed : DynTag := 1
def strtab : DynTag := 5
def strsz : DynTag := 10
def soname : DynTag := 14
def rpath : DynTag := 15
def runpath : DynTag := 29

end DynTag

structure DynamicEntry where
  tag : DynTag
  value : UInt64
  deriving DecidableEq, Repr

/-- A parsed dynamic table; its terminator is not an entry. -/
structure DynamicTable where
  entries : List DynamicEntry
  deriving DecidableEq, Repr

namespace DynamicEntry

def parse (endian : Endian) (elfClass : ElfClass) (entry : List UInt8) :
    Exec DynamicEntry :=
  match elfClass with
  | .elf64 => do
    let tag ← array8 entry 0
    let value ← array8 entry 8
    return { tag := endian.u64 tag, value := endian.u64 value }
  | .elf32 => do
    let tag ← array4 entry 0
    let value ← array4 entry 4
    return { tag := (endian.u32 tag).toUInt64, value := (endian.u32 value).toUInt64 }

end DynamicEntry

namespace DynamicTable

/-- The entries up to the first null tag. -/
def parseEntries (endian : Endian) (elfClass : ElfClass) :
    List (List UInt8) → Exec (List DynamicEntry)
  | [] => .ok []
  | chunk :: rest => do
    let entry ← DynamicEntry.parse endian elfClass chunk
    if entry.tag = DynTag.null then return []
    else
      let entries ← parseEntries endian elfClass rest
      return entry :: entries

def parse (data : List UInt8) (endian : Endian) (elfClass : ElfClass) :
    Exec DynamicTable := do
  let entrySize := match elfClass with
    | .elf64 => 16
    | .elf32 => 8
  if data.length % entrySize ≠ 0 then
    Outcome.fail (.invalidSection "dynamic table is not a whole number of entries")
  else
    let entries ← parseEntries endian elfClass (chunksExact entrySize data)
    return { entries }

/-- The string at an offset of the string table, with the `usize` of a 64-bit target. -/
def stringAt (strtab : List UInt8) (offset : UInt64) : Option String :=
  StringTable.get strtab offset.toNat

/-- The names of every needed shared object. -/
def needed (table : DynamicTable) (strtab : List UInt8) : List String :=
  (table.entries.filter fun entry => entry.tag == DynTag.needed).filterMap fun entry =>
    stringAt strtab entry.value

/-- The first value stored for a tag. -/
def find (table : DynamicTable) (tag : DynTag) : Option UInt64 :=
  (table.entries.find? fun entry => entry.tag == tag).map DynamicEntry.value

def stringValue (table : DynamicTable) (tag : DynTag) (strtab : List UInt8) : Option String := do
  let offset ← table.find tag
  stringAt strtab offset

/-- The shared object name of the object. -/
def soname (table : DynamicTable) (strtab : List UInt8) : Option String :=
  table.stringValue DynTag.soname strtab

/-- The runtime library search path. -/
def runpath (table : DynamicTable) (strtab : List UInt8) : Option String :=
  table.stringValue DynTag.runpath strtab

/-- The link-time library search path. -/
def rpath (table : DynamicTable) (strtab : List UInt8) : Option String :=
  table.stringValue DynTag.rpath strtab

end DynamicTable

/-! ## Thread-local storage -/

/-- The layout of thread-local storage. -/
structure TlsInfo where
  templateVaddr : UInt64
  fileSize : UInt64
  memSize : UInt64
  align : UInt64
  deriving DecidableEq, Repr

namespace TlsInfo

def fromHeader (header : ProgramHeader) : TlsInfo where
  templateVaddr := header.vaddr
  fileSize := header.filesz
  memSize := header.memsz
  align := header.align

end TlsInfo

/-! ## The symbol table -/

inductive SymbolBind where
  | local
  | global
  | weak
  | other (value : UInt8)
  deriving DecidableEq, Repr

def SymbolBind.fromU8 (value : UInt8) : SymbolBind :=
  if value = 0 then .local
  else if value = 1 then .global
  else if value = 2 then .weak
  else .other value

def SymbolBind.toU8 : SymbolBind → UInt8
  | .local => 0
  | .global => 1
  | .weak => 2
  | .other value => value

inductive SymbolType where
  | noType
  | object
  | func
  | section
  | file
  | tls
  | gnuIfunc
  | other (value : UInt8)
  deriving DecidableEq, Repr

def SymbolType.fromU8 (value : UInt8) : SymbolType :=
  if value = 0 then .noType
  else if value = 1 then .object
  else if value = 2 then .func
  else if value = 3 then .section
  else if value = 4 then .file
  else if value = 6 then .tls
  else if value = 10 then .gnuIfunc
  else .other value

def SymbolType.toU8 : SymbolType → UInt8
  | .noType => 0
  | .object => 1
  | .func => 2
  | .section => 3
  | .file => 4
  | .tls => 6
  | .gnuIfunc => 10
  | .other value => value

inductive SymbolVisibility where
  | default
  | internal
  | hidden
  | protected_
  deriving DecidableEq, Repr

def SymbolVisibility.fromU8 (value : UInt8) : SymbolVisibility :=
  if value &&& 3 = 0 then .default
  else if value &&& 3 = 1 then .internal
  else if value &&& 3 = 2 then .hidden
  else .protected_

def SymbolVisibility.toU8 : SymbolVisibility → UInt8
  | .default => 0
  | .internal => 1
  | .hidden => 2
  | .protected_ => 3

/-- A decoded symbol. -/
structure Symbol where
  name : String
  value : UInt64
  size : UInt64
  bind : SymbolBind
  symType : SymbolType
  visibility : SymbolVisibility
  shndx : UInt16
  deriving DecidableEq, Repr

structure SymbolTable where
  symbols : List Symbol
  deriving DecidableEq, Repr

namespace Symbol

def parse (strtab : List UInt8) (endian : Endian) (elfClass : ElfClass)
    (entry : List UInt8) : Exec Symbol := do
  let nameIndex ← array4 entry 0
  let (value, size, info, other, shndx) ← match elfClass with
    | .elf64 => do
      let value ← array8 entry 8
      let size ← array8 entry 16
      let shndx ← array2 entry 6
      pure (endian.u64 value, endian.u64 size, entry.getD 4 0, entry.getD 5 0,
        endian.u16 shndx)
    | .elf32 => do
      let value ← array4 entry 4
      let size ← array4 entry 8
      let shndx ← array2 entry 14
      pure ((endian.u32 value).toUInt64, (endian.u32 size).toUInt64, entry.getD 12 0,
        entry.getD 13 0, endian.u16 shndx)
  return {
    name := StringTable.name strtab (endian.u32 nameIndex).toNat
    value, size, shndx
    bind := SymbolBind.fromU8 (info >>> 4)
    symType := SymbolType.fromU8 (info &&& 0x0f)
    visibility := SymbolVisibility.fromU8 (other &&& 0x03) }

end Symbol

/-- Parses a symbol table. -/
def SymbolTable.parse (data strtab : List UInt8) (endian : Endian) (elfClass : ElfClass) :
    Exec SymbolTable := do
  let entrySize := match elfClass with
    | .elf64 => 24
    | .elf32 => 16
  if data.length % entrySize ≠ 0 then
    Outcome.fail (.invalidSection "symbol table is not a whole number of entries")
  else
    let symbols ← (chunksExact entrySize data).mapM (Symbol.parse strtab endian elfClass)
    return { symbols }

/-! ## Relocation tables -/

/-- A relocation entry; only the `RELA` form has an addend. -/
structure RelocationEntry where
  offset : UInt64
  symbol : UInt32
  rType : UInt32
  addend : Option Int64
  deriving DecidableEq, Repr

/-- A parsed relocation section. -/
structure RelocationSection where
  entries : List RelocationEntry
  isRela : Bool
  deriving DecidableEq, Repr

/-- The symbol index in `r_info`. -/
def splitSymbol (elfClass : ElfClass) (info : UInt64) : UInt32 :=
  match elfClass with
  | .elf64 => low32 (info >>> 32)
  | .elf32 => low32 (info >>> 8)

/-- The relocation type in `r_info`. -/
def splitType (elfClass : ElfClass) (info : UInt64) : UInt32 :=
  match elfClass with
  | .elf64 => low32 (info &&& 0xffffffff)
  | .elf32 => low32 (info &&& 0xff)

namespace RelocationEntry

def parse (isRela : Bool) (endian : Endian) (elfClass : ElfClass) (entry : List UInt8) :
    Exec RelocationEntry := do
  let (offset, info) ← match elfClass with
    | .elf64 => do
      let offset ← array8 entry 0
      let info ← array8 entry 8
      pure (endian.u64 offset, endian.u64 info)
    | .elf32 => do
      let offset ← array4 entry 0
      let info ← array4 entry 4
      pure ((endian.u32 offset).toUInt64, (endian.u32 info).toUInt64)
  let addend ← match isRela, elfClass with
    | false, _ => pure none
    | true, .elf64 => do
      let addend ← array8 entry 16
      pure (some (endian.u64 addend).toInt64)
    | true, .elf32 => do
      let addend ← array4 entry 8
      pure (some (endian.u32 addend).toInt32.toInt64)
  return {
    offset, addend
    symbol := splitSymbol elfClass info
    rType := splitType elfClass info }

end RelocationEntry

namespace RelocationSection

def entrySize (isRela : Bool) (elfClass : ElfClass) : ℕ :=
  match elfClass, isRela with
  | .elf64, false => 16
  | .elf64, true => 24
  | .elf32, false => 8
  | .elf32, true => 12

def parse (data : List UInt8) (isRela : Bool) (endian : Endian) (elfClass : ElfClass) :
    Exec RelocationSection := do
  if data.length % entrySize isRela elfClass ≠ 0 then
    Outcome.fail (.invalidSection "relocation table is not a whole number of entries")
  else
    let entries ← (chunksExact (entrySize isRela elfClass) data).mapM
      (RelocationEntry.parse isRela endian elfClass)
    return { entries, isRela }

end RelocationSection

/-- What a relocation type does at run time. -/
inductive RelocKind where
  | relative
  | globalData
  | jumpSlot
  | absolute
  | copy
  | tls
  | indirectFunction
  | other
  deriving DecidableEq, Repr

/-- Classifies a relocation type of the two x86 machines. -/
def relocationKind (machine : Machine) (rType : UInt32) : RelocKind :=
  match machine.toNat with
  | 62 =>
    match rType.toNat with
    | 8 => .relative
    | 6 => .globalData
    | 7 => .jumpSlot
    | 1 => .absolute
    | 5 => .copy
    | 16 | 17 | 18 => .tls
    | 37 => .indirectFunction
    | _ => .other
  | 3 =>
    match rType.toNat with
    | 8 => .relative
    | 6 => .globalData
    | 7 => .jumpSlot
    | 1 => .absolute
    | 5 => .copy
    | 14 | 15 | 35 | 36 | 37 => .tls
    | 42 => .indirectFunction
    | _ => .other
  | _ => .other

/-- The width in bytes of the slot a relocation type patches. -/
def relocationWidth (machine : Machine) (rType : UInt32) : Option UInt8 :=
  match machine.toNat with
  | 62 =>
    match rType.toNat with
    | 8 | 6 | 7 | 1 | 5 | 16 | 17 | 18 | 37 => some 8
    | 2 | 10 | 11 => some 4
    | _ => none
  | 3 =>
    match rType.toNat with
    | 8 | 6 | 7 | 1 | 5 | 42 => some 4
    | _ => none
  | _ => none

end Elfex
