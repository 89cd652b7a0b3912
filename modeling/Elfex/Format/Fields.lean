import Elfex.Foundation.Reaching
import Elfex.Format.Header

/-!
# Where the field readers fault

Nothing is asked of the source here: it may fail anywhere, deliver less than was asked,
lie about its counts, or answer at every address. An exact read checks every sum it makes
and never faults. The parsers of the table entries add the place of a field to the place
of the entry without a check, so they fault exactly when they come to a field that would
start past the last address.
-/

namespace Elfex

open Foundation

namespace Reader

variable (reader : Reader)

/-- The source fills an exact read of `width` bytes at `address`. -/
def Supplies (address : UInt64) (width : ℕ) : Prop :=
  ∃ bytes, reader.readExactAt address (List.replicate width 0) = .ok bytes

theorem readExactLoop_defined (offset : UInt64) (expected : ℕ) (filled rest : List UInt8) :
    (reader.readExactLoop offset expected filled rest).Defined := by
  fun_induction readExactLoop reader offset expected filled rest with
  | case1 filled => exact Outcome.defined_ok filled
  | case2 | case3 | case4 | case5 => exact Outcome.defined_fail _
  | case6 _ _ _ _ _ _ _ _ _ _ ih => exact ih

theorem readExactAt_defined (offset : UInt64) (buf : List UInt8) :
    (reader.readExactAt offset buf).Defined :=
  reader.readExactLoop_defined offset buf.length [] buf

theorem readBytesAt_defined (offset : UInt64) (len : ℕ) :
    (reader.readBytesAt offset len).Defined := by
  rw [readBytesAt]
  split
  · exact Outcome.defined_fail _
  · exact reader.readExactAt_defined offset _

/-- The sum that places a field of the entry at `start` is representable. -/
def FieldInside (start : UInt64) (field : UInt64 × ℕ) : Prop :=
  start.toNat + field.1.toNat < 2 ^ 64

/-- The source fills the read of a field of the entry at `start`. -/
def FieldSupplied (start : UInt64) (field : UInt64 × ℕ) : Prop :=
  reader.Supplies (start + field.1) field.2

/-- Every field of the entry at `start` that the parser comes to starts below the end of
the address space. -/
def EntryInside (start : UInt64) (fields : List (UInt64 × ℕ)) : Prop :=
  Reaching (reader.FieldSupplied start) (FieldInside start) fields

/-- The source fills the read of every field of the entry at `start`. -/
def EntrySupplied (start : UInt64) (fields : List (UInt64 × ℕ)) : Prop :=
  ∀ field ∈ fields, reader.FieldSupplied start field

theorem readExact_settles {α : Type} (decode : List UInt8 → α) (address : UInt64) (width : ℕ) :
    (reader.readExactAt address (List.replicate width 0) >>= fun buf =>
      (.ok (decode buf) : Exec α)).Settles True (reader.Supplies address width) :=
  (Outcome.Settles.of_defined (reader.readExactAt_defined address _)).map decode

theorem readU16At_settles (address : UInt64) (endian : Endian) :
    (reader.readU16At address endian).Settles True (reader.Supplies address 2) :=
  reader.readExact_settles endian.u16 address 2

theorem readU32At_settles (address : UInt64) (endian : Endian) :
    (reader.readU32At address endian).Settles True (reader.Supplies address 4) :=
  reader.readExact_settles endian.u32 address 4

theorem readU64At_settles (address : UInt64) (endian : Endian) :
    (reader.readU64At address endian).Settles True (reader.Supplies address 8) :=
  reader.readExact_settles endian.u64 address 8

/-- A read at an unchecked sum faults exactly when the sum is not representable. -/
theorem past_settles {α : Type} (read : UInt64 → Exec α) (start delta : UInt64) {width : ℕ}
    (h : ∀ address, (read address).Settles True (reader.Supplies address width)) :
    Outcome.Settles (Outcome.add start delta >>= read) (FieldInside start (delta, width))
      (reader.FieldSupplied start (delta, width)) := by
  by_cases hadd : start.toNat + delta.toNat < 2 ^ 64
  · rw [Outcome.add_of_lt hadd]
    exact (h _).congr (iff_true_intro hadd) fun _ => Iff.rfl
  · rw [Outcome.add_of_not_lt hadd]
    exact Outcome.Settles.fault hadd

theorem readU32Past_settles (start delta : UInt64) (endian : Endian) :
    (reader.readU32Past start delta endian).Settles (FieldInside start (delta, 4))
      (reader.FieldSupplied start (delta, 4)) :=
  reader.past_settles _ start delta fun address => reader.readU32At_settles address endian

theorem readU64Past_settles (start delta : UInt64) (endian : Endian) :
    (reader.readU64Past start delta endian).Settles (FieldInside start (delta, 8))
      (reader.FieldSupplied start (delta, 8)) :=
  reader.past_settles _ start delta fun address => reader.readU64At_settles address endian

/-- The first field of an entry is read at its very place. -/
theorem readFirst_settles (start : UInt64) (endian : Endian) :
    (reader.readU32At start endian).Settles (FieldInside start (0, 4))
      (reader.FieldSupplied start (0, 4)) := by
  refine (reader.readU32At_settles start endian).congr (iff_true_intro ?_) fun _ => ?_
  · exact start.toNat_lt
  · rw [FieldSupplied, UInt64.add_zero]

end Reader

/-! ## Table entries -/

/-- The places and widths of the fields of an entry, in the order they are read. -/
def ProgramHeader.fields : ElfClass → List (UInt64 × ℕ)
  | .elf64 => [(0, 4), (4, 4), (8, 8), (16, 8), (24, 8), (32, 8), (40, 8), (48, 8)]
  | .elf32 => [(0, 4), (4, 4), (8, 4), (12, 4), (16, 4), (20, 4), (24, 4), (28, 4)]

/-- The places and widths of the fields of an entry, in the order they are read. -/
def SectionHeader.fields : ElfClass → List (UInt64 × ℕ)
  | .elf64 => [(0, 4), (4, 4), (8, 8), (16, 8), (24, 8), (32, 8), (40, 4), (44, 4), (48, 8),
      (56, 8)]
  | .elf32 => [(0, 4), (4, 4), (8, 4), (12, 4), (16, 4), (20, 4), (24, 4), (28, 4), (32, 4),
      (36, 4)]

theorem ProgramHeader.parse_settles (reader : Reader) (start : UInt64) (endian : Endian)
    (elfClass : ElfClass) :
    (ProgramHeader.parse reader start endian elfClass).Settles
      (reader.EntryInside start (fields elfClass))
      (reader.EntrySupplied start (fields elfClass)) := by
  have h0 := reader.readFirst_settles start endian
  have h32 := fun delta => reader.readU32Past_settles start delta endian
  have h64 := fun delta => reader.readU64Past_settles start delta endian
  cases elfClass with
  | elf64 =>
      refine (h0.bind fun _ _ => (h32 4).bind fun _ _ => (h64 8).bind fun _ _ =>
        (h64 16).bind fun _ _ => (h64 24).bind fun _ _ => (h64 32).bind fun _ _ =>
        (h64 40).bind fun _ _ => (h64 48).map _).congr ?_ fun _ => ?_
      · simp [fields, Reader.EntryInside, Reaching]
      · simp [fields, Reader.EntrySupplied]
  | elf32 =>
      refine (h0.bind fun _ _ => (h32 4).bind fun _ _ => (h32 8).bind fun _ _ =>
        (h32 12).bind fun _ _ => (h32 16).bind fun _ _ => (h32 20).bind fun _ _ =>
        (h32 24).bind fun _ _ => (h32 28).map _).congr ?_ fun _ => ?_
      · simp [fields, Reader.EntryInside, Reaching]
      · simp [fields, Reader.EntrySupplied]

theorem SectionHeader.parse_settles (reader : Reader) (start : UInt64) (endian : Endian)
    (elfClass : ElfClass) :
    (SectionHeader.parse reader start endian elfClass).Settles
      (reader.EntryInside start (fields elfClass))
      (reader.EntrySupplied start (fields elfClass)) := by
  have h0 := reader.readFirst_settles start endian
  have h32 := fun delta => reader.readU32Past_settles start delta endian
  have h64 := fun delta => reader.readU64Past_settles start delta endian
  cases elfClass with
  | elf64 =>
      refine (h0.bind fun _ _ => (h32 4).bind fun _ _ => (h64 8).bind fun _ _ =>
        (h64 16).bind fun _ _ => (h64 24).bind fun _ _ => (h64 32).bind fun _ _ =>
        (h32 40).bind fun _ _ => (h32 44).bind fun _ _ => (h64 48).bind fun _ _ =>
        (h64 56).map _).congr ?_ fun _ => ?_
      · simp [fields, Reader.EntryInside, Reaching]
      · simp [fields, Reader.EntrySupplied]
  | elf32 =>
      refine (h0.bind fun _ _ => (h32 4).bind fun _ _ => (h32 8).bind fun _ _ =>
        (h32 12).bind fun _ _ => (h32 16).bind fun _ _ => (h32 20).bind fun _ _ =>
        (h32 24).bind fun _ _ => (h32 28).bind fun _ _ => (h32 32).bind fun _ _ =>
        (h32 36).map _).congr ?_ fun _ => ?_
      · simp [fields, Reader.EntryInside, Reaching]
      · simp [fields, Reader.EntrySupplied]

/-! ## The file header and the program header table -/

theorem ElfIdent.parse_defined (bytes : List UInt8) : (ElfIdent.parse bytes).Defined := by
  rw [ElfIdent.parse]
  split
  · exact Outcome.defined_fail _
  · refine Outcome.Defined.bind ?_ fun elfClass => Outcome.Defined.bind ?_ fun data =>
      Outcome.defined_ok _
    · rw [ElfClass.fromByte]
      split_ifs <;> simp
    · rw [Endian.fromByte]
      split_ifs <;> simp

theorem ElfHeader.parse_defined (reader : Reader) (ident : ElfIdent) :
    (ElfHeader.parse reader ident).Defined := by
  have h16 := fun address => (reader.readU16At_settles address ident.data).defined.2 trivial
  have h32 := fun address => (reader.readU32At_settles address ident.data).defined.2 trivial
  have h64 := fun address => (reader.readU64At_settles address ident.data).defined.2 trivial
  obtain ⟨elfClass, endian, version, osAbi, abiVersion⟩ := ident
  cases elfClass with
  | elf64 =>
      exact (h16 18).bind fun _ => (h64 24).bind fun _ => (h64 32).bind fun _ =>
        (h64 40).bind fun _ => (h16 16).bind fun _ => (h32 20).bind fun _ =>
        (h32 48).bind fun _ => (h16 52).bind fun _ => (h16 54).bind fun _ =>
        (h16 56).bind fun _ => (h16 58).bind fun _ => (h16 60).bind fun _ =>
        (h16 62).bind fun _ => Outcome.defined_ok _
  | elf32 =>
      exact (h16 18).bind fun _ => (h32 24).bind fun _ => (h32 28).bind fun _ =>
        (h32 32).bind fun _ => (h16 16).bind fun _ => (h32 20).bind fun _ =>
        (h32 36).bind fun _ => (h16 40).bind fun _ => (h16 42).bind fun _ =>
        (h16 44).bind fun _ => (h16 46).bind fun _ => (h16 48).bind fun _ =>
        (h16 50).bind fun _ => Outcome.defined_ok _

namespace ElfHeaders

/-- The file header that the source supplies. -/
def fileHeader (reader : Reader) : Exec ElfHeader := do
  let identBytes ← reader.readExactAt 0 (List.replicate eiNident 0)
  let ident ← ElfIdent.parse identBytes
  ElfHeader.parse reader ident

/-- Where the entry of an index starts, when the place is representable. -/
def programPlace (header : ElfHeader) (index : ℕ) : Option UInt64 :=
  checkedAdd header.phoff (UInt64.ofNat index * ProgramHeader.size header.ident.elfClass)

/-- Every field of the program header table that the parser comes to starts below the end
of the address space. -/
def ProgramTableInside (reader : Reader) (header : ElfHeader) : Prop :=
  let fields := ProgramHeader.fields header.ident.elfClass
  Reaching (fun index => ∃ start ∈ programPlace header index, reader.EntrySupplied start fields)
    (fun index => ∀ start ∈ programPlace header index, reader.EntryInside start fields)
    (List.range header.phnum.toNat)

theorem readProgramHeader_settles (reader : Reader) (header : ElfHeader) {index : ℕ}
    (hindex : index < header.phnum.toNat) :
    (readProgramHeader reader header index).Settles
      (∀ start ∈ programPlace header index,
        reader.EntryInside start (ProgramHeader.fields header.ident.elfClass))
      (∃ start ∈ programPlace header index,
        reader.EntrySupplied start (ProgramHeader.fields header.ident.elfClass)) := by
  have hphnum := header.phnum.toNat_lt
  have hsize : (ProgramHeader.size header.ident.elfClass).toNat ≤ 56 := by
    cases header.ident.elfClass <;> decide
  have hmul : (UInt64.ofNat index).toNat *
      (ProgramHeader.size header.ident.elfClass).toNat < 2 ^ 64 := by
    rw [toNat_ofNat_of_lt (by omega)]
    have := Nat.mul_le_mul hindex.le hsize
    omega
  unfold readProgramHeader
  rw [Outcome.mul_of_lt hmul, Outcome.ok_bind]
  simp only [programPlace]
  cases checkedAdd header.phoff
      (UInt64.ofNat index * ProgramHeader.size header.ident.elfClass) with
  | none => exact Outcome.Settles.fail _ (by simp) (by simp)
  | some start =>
      exact (ProgramHeader.parse_settles reader start _ _).congr (by simp) (by simp)

/-- The headers fault exactly where a field of the program header table would start past
the end of the address space. -/
theorem readFrom_defined_iff (reader : Reader) :
    (readFrom reader).Defined ↔
      ∀ header, fileHeader reader = .ok header → ProgramTableInside reader header := by
  have hrange : ∀ header : ElfHeader,
      Outcome.Defined ((List.range header.phnum.toNat).mapM (readProgramHeader reader header)) ↔
        ProgramTableInside reader header := fun header =>
    (Outcome.Settles.mapM _ fun index hindex =>
      readProgramHeader_settles reader header (List.mem_range.1 hindex)).defined
  simp only [readFrom, fileHeader, Outcome.defined_bind_iff, reader.readExactAt_defined,
    ElfIdent.parse_defined, ElfHeader.parse_defined, hrange, Outcome.bind_eq_ok, true_and]
  constructor
  · rintro h header ⟨bytes, hbytes, ident, hident, hheader⟩
    exact (h bytes hbytes ident hident header hheader).1
  · intro h bytes hbytes ident hident header hheader
    exact ⟨h header ⟨bytes, hbytes, ident, hident, hheader⟩, fun _ _ => Outcome.defined_ok _⟩

end ElfHeaders

end Elfex
