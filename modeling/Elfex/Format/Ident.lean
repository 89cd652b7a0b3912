import Elfex.Foundation.ByteOrder
import Elfex.Foundation.Outcome

/-!
# Errors and the identification array

The failure kinds of the crate and the sixteen identification bytes. Errors
carry no context on the modelled paths, so an error is its kind. The byte order
of a file is a run-time value, and every multi-byte field is read and written
through `Endian`.
-/

namespace Elfex

open Foundation

/-- The kinds of recoverable failure. -/
inductive ErrorKind where
  | io (cause : String)
  | invalidMagic
  | invalidClass (value : UInt8)
  | invalidDataEncoding (value : UInt8)
  | invalidType (value : UInt16)
  | unsupportedMachine (value : UInt16)
  | bufferTooSmall (expected actual : ℕ)
  | invalidSection (message : String)
  | offsetOutOfBounds (offset size : UInt64)
  | invalidVaddr (vaddr : UInt64)
  | invalidUtf8
  | generic (message : String)
  deriving DecidableEq, Repr

/-- The result of a fallible function of the crate. -/
abbrev Exec (α : Type) := Outcome ErrorKind α

/-- The longest slice or vector the language allows (`isize::MAX` bytes on a
64-bit target). -/
def isizeMax : ℕ := 2 ^ 63 - 1

/-- Truncates a 64-bit field to its 32-bit on-disk width. -/
def low32 (value : UInt64) : UInt32 := value.toUInt32

inductive ElfClass where
  | elf32
  | elf64
  deriving DecidableEq, Repr

namespace ElfClass

def fromByte (value : UInt8) : Exec ElfClass :=
  if value = 1 then .ok elf32
  else if value = 2 then .ok elf64
  else Outcome.fail (.invalidClass value)

def toByte : ElfClass → UInt8
  | elf32 => 1
  | elf64 => 2

theorem fromByte_decides (value : UInt8) :
    (fromByte value).Decides (value = 1 ∨ value = 2)
      (if value = 1 then elf32 else elf64) := by
  rw [fromByte]
  refine ⟨fun h => ?_, fun h => ?_⟩
  · rcases h with rfl | rfl <;> rfl
  · rw [not_or] at h
    rw [if_neg h.1, if_neg h.2]
    exact Outcome.isErr_fail _

end ElfClass

namespace ElfClass

/-- What the address fields of the class keep of a 64-bit value. -/
def keep : ElfClass → UInt64 → UInt64
  | elf32, value => (low32 value).toUInt64
  | elf64, value => value

@[simp] theorem keep_elf32 (value : UInt64) :
    keep elf32 value = (low32 value).toUInt64 := rfl

@[simp] theorem keep_elf64 (value : UInt64) : keep elf64 value = value := rfl

theorem keep_of_lt (elfClass : ElfClass) {value : UInt64} (h : value.toNat < 2 ^ 32) :
    elfClass.keep value = value := by
  cases elfClass with
  | elf64 => rfl
  | elf32 =>
      rw [keep_elf32, low32, ← UInt64.toNat_inj, UInt32.toNat_toUInt64,
        UInt64.toNat_toUInt32, Nat.mod_eq_of_lt h]

end ElfClass

inductive Endian where
  | little
  | big
  deriving DecidableEq, Repr

namespace Endian

def fromByte (value : UInt8) : Exec Endian :=
  if value = 1 then .ok little
  else if value = 2 then .ok big
  else Outcome.fail (.invalidDataEncoding value)

def toByte : Endian → UInt8
  | little => 1
  | big => 2

theorem fromByte_decides (value : UInt8) :
    (fromByte value).Decides (value = 1 ∨ value = 2)
      (if value = 1 then little else big) := by
  rw [fromByte]
  refine ⟨fun h => ?_, fun h => ?_⟩
  · rcases h with rfl | rfl <;> rfl
  · rw [not_or] at h
    rw [if_neg h.1, if_neg h.2]
    exact Outcome.isErr_fail _

/-- The bytes of a field in the other direction when the order is big-endian;
both directions of the conversion. -/
def order : Endian → List UInt8 → List UInt8
  | little, bytes => bytes
  | big, bytes => bytes.reverse

def u16 (endian : Endian) (bytes : List UInt8) : UInt16 :=
  UInt16.ofNat (ofLittle (endian.order bytes))

def u32 (endian : Endian) (bytes : List UInt8) : UInt32 :=
  UInt32.ofNat (ofLittle (endian.order bytes))

def u64 (endian : Endian) (bytes : List UInt8) : UInt64 :=
  UInt64.ofNat (ofLittle (endian.order bytes))

def u16Bytes (endian : Endian) (value : UInt16) : List UInt8 :=
  endian.order (toLittle 2 value.toNat)

def u32Bytes (endian : Endian) (value : UInt32) : List UInt8 :=
  endian.order (toLittle 4 value.toNat)

def u64Bytes (endian : Endian) (value : UInt64) : List UInt8 :=
  endian.order (toLittle 8 value.toNat)

@[simp] theorem order_order (endian : Endian) (bytes : List UInt8) :
    endian.order (endian.order bytes) = bytes := by
  cases endian with
  | little => rfl
  | big => exact List.reverse_reverse bytes

@[simp] theorem length_order (endian : Endian) (bytes : List UInt8) :
    (endian.order bytes).length = bytes.length := by
  cases endian with
  | little => rfl
  | big => exact List.length_reverse

@[simp] theorem length_u16Bytes (endian : Endian) (value : UInt16) :
    (endian.u16Bytes value).length = 2 := by
  simp [u16Bytes]

@[simp] theorem length_u32Bytes (endian : Endian) (value : UInt32) :
    (endian.u32Bytes value).length = 4 := by
  simp [u32Bytes]

@[simp] theorem length_u64Bytes (endian : Endian) (value : UInt64) :
    (endian.u64Bytes value).length = 8 := by
  simp [u64Bytes]

@[simp] theorem u16_u16Bytes (endian : Endian) (value : UInt16) :
    endian.u16 (endian.u16Bytes value) = value := by
  have hlt : value.toNat < 256 ^ 2 := value.toNat_lt
  rw [u16, u16Bytes, order_order, ofLittle_toLittle_of_lt hlt, UInt16.ofNat_toNat]

@[simp] theorem u32_u32Bytes (endian : Endian) (value : UInt32) :
    endian.u32 (endian.u32Bytes value) = value := by
  have hlt : value.toNat < 256 ^ 4 := value.toNat_lt
  rw [u32, u32Bytes, order_order, ofLittle_toLittle_of_lt hlt, UInt32.ofNat_toNat]

@[simp] theorem u64_u64Bytes (endian : Endian) (value : UInt64) :
    endian.u64 (endian.u64Bytes value) = value := by
  have hlt : value.toNat < 256 ^ 8 := value.toNat_lt
  rw [u64, u64Bytes, order_order, ofLittle_toLittle_of_lt hlt, UInt64.ofNat_toNat]

theorem ofLittle_order_lt (endian : Endian) (bytes : List UInt8) :
    ofLittle (endian.order bytes) < 256 ^ bytes.length := by
  rw [← length_order endian bytes]
  exact ofLittle_lt _

theorem order_toLittle_order (endian : Endian) (bytes : List UInt8) :
    endian.order (toLittle bytes.length (ofLittle (endian.order bytes))) = bytes := by
  rw [← length_order endian bytes, toLittle_ofLittle, order_order]

theorem u16Bytes_u16 (endian : Endian) {bytes : List UInt8} (h : bytes.length = 2) :
    endian.u16Bytes (endian.u16 bytes) = bytes := by
  have hlt := ofLittle_order_lt endian bytes
  have hback := order_toLittle_order endian bytes
  rw [h] at hlt hback
  rw [u16Bytes, u16, UInt16.toNat_ofNat_of_lt' hlt, hback]

theorem u32Bytes_u32 (endian : Endian) {bytes : List UInt8} (h : bytes.length = 4) :
    endian.u32Bytes (endian.u32 bytes) = bytes := by
  have hlt := ofLittle_order_lt endian bytes
  have hback := order_toLittle_order endian bytes
  rw [h] at hlt hback
  rw [u32Bytes, u32, UInt32.toNat_ofNat_of_lt' hlt, hback]

theorem u64Bytes_u64 (endian : Endian) {bytes : List UInt8} (h : bytes.length = 8) :
    endian.u64Bytes (endian.u64 bytes) = bytes := by
  have hlt := ofLittle_order_lt endian bytes
  have hback := order_toLittle_order endian bytes
  rw [h] at hlt hback
  rw [u64Bytes, u64, UInt64.toNat_ofNat_of_lt' hlt, hback]

end Endian

abbrev OsAbi := UInt8

structure ElfIdent where
  elfClass : ElfClass
  data : Endian
  version : UInt8
  osAbi : OsAbi
  abiVersion : UInt8
  deriving DecidableEq, Repr

def elfMagic : List UInt8 := [0x7f, 0x45, 0x4c, 0x46]

def eiNident : ℕ := 16

namespace ElfIdent

def parse (bytes : List UInt8) : Exec ElfIdent := do
  if bytes.take 4 ≠ elfMagic then
    Outcome.fail .invalidMagic
  else
    let elfClass ← ElfClass.fromByte (bytes.getD 4 0)
    let data ← Endian.fromByte (bytes.getD 5 0)
    return {
      elfClass, data
      version := bytes.getD 6 0
      osAbi := bytes.getD 7 0
      abiVersion := bytes.getD 8 0 }

def toBytes (ident : ElfIdent) : List UInt8 :=
  elfMagic ++ [ident.elfClass.toByte, ident.data.toByte, ident.version, ident.osAbi,
    ident.abiVersion] ++ List.replicate 7 0

@[simp] theorem length_toBytes (ident : ElfIdent) : ident.toBytes.length = 16 := by
  simp [toBytes, elfMagic]

@[simp] theorem parse_toBytes (ident : ElfIdent) : parse ident.toBytes = .ok ident := by
  obtain ⟨elfClass, data, version, osAbi, abiVersion⟩ := ident
  cases elfClass <;> cases data <;> rfl

end ElfIdent

end Elfex
