import Elfex.Format.Notes
import Elfex.Image.Build

/-!
# The tables a builder serializes

A builder turns its notes, its relocations and its needed libraries into the bytes of
the tables that carry them. A count that does not fit its field becomes zero.
-/

namespace Elfex

open Foundation

/-- `u32::try_from(n).unwrap_or(0)`. -/
def u32OrZero (n : ℕ) : UInt32 := if n < 2 ^ 32 then UInt32.ofNat n else 0

/-- `u64::try_from(n).unwrap_or(0)`. -/
def u64OrZero (n : ℕ) : UInt64 := if n < 2 ^ 64 then UInt64.ofNat n else 0

theorem toNat_u64OrZero {n : ℕ} (h : n < 2 ^ 64) : (u64OrZero n).toNat = n := by
  rw [u64OrZero, if_pos h, toNat_ofNat_of_lt h]

/-- A note record to embed. -/
structure NoteSpec where
  name : String
  noteType : UInt32
  descriptor : List UInt8
  deriving DecidableEq, Repr

/-- Pushes zeros until the length is a multiple of four. -/
def padTo4 (out : List UInt8) : List UInt8 := out ++ List.replicate (padding4 out.length) 0

def serializeNote (spec : NoteSpec) (endian : Endian) : List UInt8 :=
  let nameBytes := strBytes spec.name
  let namesz := u32OrZero (nameBytes.length + 1)
  let descsz := u32OrZero spec.descriptor.length
  let out := endian.u32Bytes namesz ++ endian.u32Bytes descsz ++
    endian.u32Bytes spec.noteType ++ nameBytes ++ [0]
  padTo4 (padTo4 out ++ spec.descriptor)

/-- The `r_info` field of an entry. -/
def RelocationEntry.info (entry : RelocationEntry) : ElfClass → UInt64
  | .elf64 => entry.symbol.toUInt64 <<< 32 ||| entry.rType.toUInt64
  | .elf32 => (entry.symbol <<< 8 ||| entry.rType &&& 0xff).toUInt64

/-- `i32::try_from(value).unwrap_or(0)`. -/
def i32OrZero (value : Int64) : Int32 :=
  if Int32.minValue.toInt64 ≤ value ∧ value ≤ Int32.maxValue.toInt64 then value.toInt32 else 0

def serializeRelaEntry (endian : Endian) (elfClass : ElfClass) (entry : RelocationEntry) :
    List UInt8 :=
  let addend := entry.addend.getD 0
  match elfClass with
  | .elf64 =>
    endian.u64Bytes entry.offset ++ endian.u64Bytes (entry.info .elf64) ++
      endian.u64Bytes addend.toUInt64
  | .elf32 =>
    endian.u32Bytes (low32 entry.offset) ++ endian.u32Bytes (low32 (entry.info .elf32)) ++
      endian.u32Bytes (i32OrZero addend).toUInt32

def serializeRela (entries : List RelocationEntry) (endian : Endian) (elfClass : ElfClass) :
    List UInt8 :=
  entries.flatMap (serializeRelaEntry endian elfClass)

/-! ## The dynamic table -/

/-- The offsets of the names appended to `blob`, and the blob that holds them. -/
def dynstrOffsets (blob : List UInt8) : List String → List ℕ × List UInt8
  | [] => ([], blob)
  | name :: rest =>
    let (offsets, full) := dynstrOffsets (blob ++ strBytes name ++ [0]) rest
    (blob.length :: offsets, full)

/-- The string table of the needed libraries: a leading NUL, then each name. -/
def dynstr (needed : List String) : List UInt8 := (dynstrOffsets [0] needed).2

/-- The bytes of one dynamic entry. -/
def DynamicEntry.write (entry : DynamicEntry) (endian : Endian) : ElfClass → List UInt8
  | .elf64 => endian.u64Bytes entry.tag ++ endian.u64Bytes entry.value
  | .elf32 => endian.u32Bytes (low32 entry.tag) ++ endian.u32Bytes (low32 entry.value)

/-- The dynamic entries of the needed libraries; the string table's address is a
placeholder. -/
def dynamicEntries (needed : List String) : List DynamicEntry :=
  (dynstrOffsets [0] needed).1.map (fun offset =>
    { tag := DynTag.needed, value := u64OrZero offset }) ++
  [{ tag := DynTag.strtab, value := 0 },
    { tag := DynTag.strsz, value := u64OrZero (dynstr needed).length },
    { tag := DynTag.null, value := 0 }]

def serializeDynamic (needed : List String) (endian : Endian) (elfClass : ElfClass) :
    List UInt8 :=
  (dynamicEntries needed).flatMap fun entry => entry.write endian elfClass

end Elfex
