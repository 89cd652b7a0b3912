import Elfex.Format.Program
import Elfex.Format.Section

/-!
# The file header

`ElfHeader` widens its address fields like the table entries do. `ElfHeaders` is
the header-only view: the identification, the file header and the program header
table, walked at the class's entry size.
-/

namespace Elfex

open Foundation

inductive ElfType where
  | none
  | rel
  | exec
  | dyn
  | core
  | other (value : UInt16)
  deriving DecidableEq, Repr

namespace ElfType

def fromU16 (value : UInt16) : ElfType :=
  if value = 0 then none
  else if value = 1 then rel
  else if value = 2 then exec
  else if value = 3 then dyn
  else if value = 4 then core
  else other value

def toU16 : ElfType → UInt16
  | none => 0
  | rel => 1
  | exec => 2
  | dyn => 3
  | core => 4
  | other value => value

/-- The type a raw value stands for: an `other` that holds the value of a named
type is that named type. -/
def normalize (type : ElfType) : ElfType := fromU16 type.toU16

@[simp] theorem toU16_fromU16 (value : UInt16) : (fromU16 value).toU16 = value := by
  unfold fromU16
  split_ifs with h0 h1 h2 h3 h4
  · exact h0.symm
  · exact h1.symm
  · exact h2.symm
  · exact h3.symm
  · exact h4.symm
  · rfl

@[simp] theorem normalize_fromU16 (value : UInt16) :
    (fromU16 value).normalize = fromU16 value := by
  rw [normalize, toU16_fromU16]

@[simp] theorem toU16_normalize (type : ElfType) : type.normalize.toU16 = type.toU16 :=
  toU16_fromU16 _

end ElfType

abbrev Machine := UInt16

namespace Machine

def i386 : Machine := 3
def x86_64 : Machine := 62

end Machine

/-- The file header with its address fields widened to 64 bits. -/
structure ElfHeader where
  ident : ElfIdent
  type : ElfType
  machine : Machine
  version : UInt32
  entry : UInt64
  phoff : UInt64
  shoff : UInt64
  flags : UInt32
  ehsize : UInt16
  phentsize : UInt16
  phnum : UInt16
  shentsize : UInt16
  shnum : UInt16
  shstrndx : UInt16
  deriving DecidableEq, Repr

namespace ElfHeader

def size : ElfClass → UInt64
  | .elf32 => 52
  | .elf64 => 64

/-- Parses the file header that follows the already parsed `ident`. -/
def parse (reader : Reader) (ident : ElfIdent) : Exec ElfHeader := do
  let endian := ident.data
  let machine ← reader.readU16At 18 endian
  let (entry, phoff, shoff, tail) ← match ident.elfClass with
    | .elf64 => do
      let entry ← reader.readU64At 24 endian
      let phoff ← reader.readU64At 32 endian
      let shoff ← reader.readU64At 40 endian
      pure (entry, phoff, shoff, (48 : UInt64))
    | .elf32 => do
      let entry ← reader.readU32At 24 endian
      let phoff ← reader.readU32At 28 endian
      let shoff ← reader.readU32At 32 endian
      pure (entry.toUInt64, phoff.toUInt64, shoff.toUInt64, (36 : UInt64))
  let type ← reader.readU16At 16 endian
  let version ← reader.readU32At 20 endian
  let flags ← reader.readU32At tail endian
  let ehsize ← reader.readU16At (tail + 4) endian
  let phentsize ← reader.readU16At (tail + 6) endian
  let phnum ← reader.readU16At (tail + 8) endian
  let shentsize ← reader.readU16At (tail + 10) endian
  let shnum ← reader.readU16At (tail + 12) endian
  let shstrndx ← reader.readU16At (tail + 14) endian
  return {
    ident, machine, version, entry, phoff, shoff, flags, ehsize, phentsize, phnum
    shentsize, shnum, shstrndx
    type := ElfType.fromU16 type }

def write (header : ElfHeader) : List UInt8 :=
  let endian := header.ident.data
  header.ident.toBytes ++ endian.u16Bytes header.type.toU16 ++
    endian.u16Bytes header.machine ++ endian.u32Bytes header.version ++
    (match header.ident.elfClass with
      | .elf64 =>
        endian.u64Bytes header.entry ++ endian.u64Bytes header.phoff ++
          endian.u64Bytes header.shoff
      | .elf32 =>
        endian.u32Bytes (low32 header.entry) ++ endian.u32Bytes (low32 header.phoff) ++
          endian.u32Bytes (low32 header.shoff)) ++
    endian.u32Bytes header.flags ++ endian.u16Bytes header.ehsize ++
    endian.u16Bytes header.phentsize ++ endian.u16Bytes header.phnum ++
    endian.u16Bytes header.shentsize ++ endian.u16Bytes header.shnum ++
    endian.u16Bytes header.shstrndx

/-- The file header whose on-disk bytes, identification included, are `bytes`. -/
def decode (ident : ElfIdent) (bytes : List UInt8) : ElfHeader :=
  let endian := ident.data
  match ident.elfClass with
  | .elf64 => {
      ident
      type := ElfType.fromU16 (endian.u16 (window bytes 16 2))
      machine := endian.u16 (window bytes 18 2)
      version := endian.u32 (window bytes 20 4)
      entry := endian.u64 (window bytes 24 8)
      phoff := endian.u64 (window bytes 32 8)
      shoff := endian.u64 (window bytes 40 8)
      flags := endian.u32 (window bytes 48 4)
      ehsize := endian.u16 (window bytes 52 2)
      phentsize := endian.u16 (window bytes 54 2)
      phnum := endian.u16 (window bytes 56 2)
      shentsize := endian.u16 (window bytes 58 2)
      shnum := endian.u16 (window bytes 60 2)
      shstrndx := endian.u16 (window bytes 62 2) }
  | .elf32 => {
      ident
      type := ElfType.fromU16 (endian.u16 (window bytes 16 2))
      machine := endian.u16 (window bytes 18 2)
      version := endian.u32 (window bytes 20 4)
      entry := (endian.u32 (window bytes 24 4)).toUInt64
      phoff := (endian.u32 (window bytes 28 4)).toUInt64
      shoff := (endian.u32 (window bytes 32 4)).toUInt64
      flags := endian.u32 (window bytes 36 4)
      ehsize := endian.u16 (window bytes 40 2)
      phentsize := endian.u16 (window bytes 42 2)
      phnum := endian.u16 (window bytes 44 2)
      shentsize := endian.u16 (window bytes 46 2)
      shnum := endian.u16 (window bytes 48 2)
      shstrndx := endian.u16 (window bytes 50 2) }

def narrow (header : ElfHeader) : ElfHeader :=
  { header with
    type := header.type.normalize
    entry := header.ident.elfClass.keep header.entry
    phoff := header.ident.elfClass.keep header.phoff
    shoff := header.ident.elfClass.keep header.shoff }

/-- The fields fit the widths of the class and the type is in its named form. -/
def Fits (header : ElfHeader) : Prop := header.narrow = header

@[simp] theorem length_write (header : ElfHeader) :
    header.write.length = (size header.ident.elfClass).toNat := by
  rw [write]
  cases header.ident.elfClass <;> simp [size]

/-- A written header starts with its identification. -/
theorem window_write_ident (header : ElfHeader) :
    window header.write 0 16 = header.ident.toBytes := by
  simp [write, window_append_left, window_eq_self]

/-- A written header decodes to what the widths of the class keep of it. -/
@[simp] theorem decode_write (header : ElfHeader) :
    decode header.ident header.write = header.narrow := by
  obtain ⟨⟨elfClass, data, version, osAbi, abiVersion⟩, _⟩ := header
  cases elfClass <;>
    simp [write, decode, narrow, ElfType.normalize, window_append_left,
      window_append_of_le, window_eq_self]

theorem decode_fits (ident : ElfIdent) (bytes : List UInt8) :
    (decode ident bytes).Fits := by
  obtain ⟨elfClass, data, version, osAbi, abiVersion⟩ := ident
  cases elfClass <;> simp [Fits, decode, narrow, low32]

/-- The type and the entry point of a header that fits are kept. -/
theorem Fits.keeps {header : ElfHeader} (h : header.Fits) :
    header.type.normalize = header.type ∧
      header.ident.elfClass.keep header.entry = header.entry := by
  obtain ⟨ident, type, machine, version, entry, phoff, shoff, flags, ehsize, phentsize, phnum,
    shentsize, shnum, shstrndx⟩ := header
  obtain ⟨-, htype, -, -, hentry, -⟩ := ElfHeader.mk.inj h
  exact ⟨htype, hentry⟩

@[simp] theorem decode_ident (ident : ElfIdent) (bytes : List UInt8) :
    (decode ident bytes).ident = ident := by
  obtain ⟨elfClass, data, version, osAbi, abiVersion⟩ := ident
  cases elfClass <;> rfl

/-- The parser decodes the header when it lies inside the served string and fails
otherwise. -/
theorem parse_decides {reader : Reader} {data : List UInt8} (h : reader.ServesBytes data)
    (ident : ElfIdent) :
    (parse reader ident).Decides
      ((size ident.elfClass).toNat ≤ data.length)
      (decode ident (window data 0 (size ident.elfClass).toNat)) := by
  have h16 := fun offset => readU16At_decides h offset ident.data
  have h32 := fun offset => readU32At_decides h offset ident.data
  have h64 := fun offset => readU64At_decides h offset ident.data
  obtain ⟨elfClass, endian, version, osAbi, abiVersion⟩ := ident
  cases elfClass with
  | elf64 =>
      refine ((h16 18).bind fun _ => (h64 24).bind fun _ => (h64 32).bind fun _ =>
        (h64 40).bind fun _ => (h16 16).bind fun _ => (h32 20).bind fun _ =>
        (h32 48).bind fun _ => (h16 52).bind fun _ => (h16 54).bind fun _ =>
        (h16 56).bind fun _ => (h16 58).bind fun _ => (h16 60).bind fun _ =>
        (h16 62).map _).congr ?_ fun _ => ?_
      · simp [size]
        omega
      · simp [decode, size, window_window]
  | elf32 =>
      refine ((h16 18).bind fun _ => (h32 24).bind fun _ => (h32 28).bind fun _ =>
        (h32 32).bind fun _ => (h16 16).bind fun _ => (h32 20).bind fun _ =>
        (h32 36).bind fun _ => (h16 40).bind fun _ => (h16 42).bind fun _ =>
        (h16 44).bind fun _ => (h16 46).bind fun _ => (h16 48).bind fun _ =>
        (h16 50).map _).congr ?_ fun _ => ?_
      · simp [size]
        omega
      · simp [decode, size, window_window]

end ElfHeader

theorem sixteen_le_size (elfClass : ElfClass) : 16 ≤ (ElfHeader.size elfClass).toNat := by
  cases elfClass <;> decide

/-- The identification, the file header and the program header table. -/
structure ElfHeaders where
  ident : ElfIdent
  header : ElfHeader
  programHeaders : List ProgramHeader
  deriving DecidableEq, Repr

namespace ElfHeaders

def readProgramHeader (reader : Reader) (header : ElfHeader) (index : ℕ) :
    Exec ProgramHeader := do
  let delta ← Outcome.mul (UInt64.ofNat index) (ProgramHeader.size header.ident.elfClass)
  match checkedAdd header.phoff delta with
  | none => Outcome.fail (.generic "program header table offset overflows")
  | some offset =>
    ProgramHeader.parse reader offset header.ident.data header.ident.elfClass

/-- Parses the identification, the file header and the program header table. -/
def readFrom (reader : Reader) : Exec ElfHeaders := do
  let identBytes ← reader.readExactAt 0 (List.replicate eiNident 0)
  let ident ← ElfIdent.parse identBytes
  let header ← ElfHeader.parse reader ident
  let programHeaders ←
    (List.range header.phnum.toNat).mapM (readProgramHeader reader header)
  return { ident, header, programHeaders }

def fromSlice (data : List UInt8) : Exec ElfHeaders := readFrom (sliceReader data)

end ElfHeaders

end Elfex
