import Elfex.Image.Regular

/-!
# Address translation in a mapped image

The byte of an address is read at its distance from the base, and an address below the
base or past the end of the bytes has none. The parser of the mapped layout subtracts the
base from the address of a header and stops at zero, so a header below the base holds the
bytes at the start of the image instead.
-/

namespace Elfex

open Foundation

/-- The byte of an address in bytes mapped from `base` on, zero where they have none. -/
def byteAtAddress (mapped : List UInt8) (base : UInt64) (address : ℕ) : UInt8 :=
  if base.toNat ≤ address then mapped.getD (address - base.toNat) 0 else 0

/-- Every byte of `data` is the byte of its own address. -/
def HoldsAddresses (mapped : List UInt8) (base address : UInt64) (data : List UInt8) : Prop :=
  ∀ i x, data[i]? = some x → x = byteAtAddress mapped base (address.toNat + i)

/-- Bytes read at a saturated distance are those of their addresses exactly when the
distance did not saturate, as the first mapped byte is not zero. -/
theorem holdsAddresses_mappedBytes_iff {mapped : List UInt8} (hlen : mapped.length < 2 ^ 64)
    (hfirst : mapped.getD 0 0 ≠ 0) (base address : UInt64) (n : ℕ) :
    HoldsAddresses mapped base address
        (mappedBytes mapped (saturatingSub address base).toNat n) ↔
      (n ≠ 0 → base ≤ address) := by
  simp only [HoldsAddresses, getElem?_mappedBytes hlen, toNat_saturatingSub, byteAtAddress,
    UInt64.le_iff_toNat_le]
  constructor
  · intro h hn
    by_contra hbelow
    have hzero := h 0 (mapped.getD 0 0) (by rw [if_pos (Nat.pos_of_ne_zero hn),
      Nat.sub_eq_zero_of_le (by omega)])
    rw [if_neg (by omega)] at hzero
    exact hfirst hzero
  · intro h i x hx
    split at hx
    · rename_i hi
      have hle := h (by omega)
      rw [if_pos (by omega), Nat.sub_add_comm hle]
      exact (Option.some.inj hx).symm
    · cases hx

/-- Every segment and every allocated section holds the bytes of its own addresses. -/
def ElfImage.HoldsAddresses (image : ElfImage) (mapped : List UInt8) : Prop :=
  (∀ segment ∈ image.segments,
    Elfex.HoldsAddresses mapped image.imageBase segment.header.vaddr segment.data) ∧
  ∀ sec ∈ image.sections, sec.header.flags.isAlloc = true →
    Elfex.HoldsAddresses mapped image.imageBase sec.header.addr sec.data

/-- No header the parser reads bytes for lies below the base. -/
structure HeadersAboveBase (mapped : List UInt8) : Prop where
  segments : ∀ header ∈ programHeadersOf mapped, header.type ≠ SegmentType.null →
    header.mappedLength ≠ 0 → computeImageBase (programHeadersOf mapped) ≤ header.vaddr
  sections : ∀ header ∈ mappedSectionHeadersOf mapped, header.flags.isAlloc = true →
    Allocatable mapped header.mappedLength → header.mappedLength ≠ 0 →
    computeImageBase (programHeadersOf mapped) ≤ header.addr

section Described

variable {mapped : List UInt8}

/-- A file starts with a byte that is not zero. -/
theorem MappedGrammar.getD_zero_ne_zero (h : MappedGrammar mapped) :
    mapped.getD 0 0 ≠ 0 := by
  have hmagic := congrArg (fun bytes => bytes.getD 0 0) h.magic
  simp only [List.getD_eq_getElem?_getD, List.getElem?_take_of_lt (by decide : 0 < 4)]
    at hmagic
  rw [List.getD_eq_getElem?_getD, hmagic]
  decide

theorem holdsAddresses_segment_iff (hlen : mapped.length < 2 ^ 64)
    (h : MappedGrammar mapped) (base : UInt64) (header : ProgramHeader) :
    HoldsAddresses mapped base header.vaddr (mappedSegmentOf mapped base header).data ↔
      (header.type ≠ SegmentType.null → header.mappedLength ≠ 0 → base ≤ header.vaddr) := by
  by_cases hnull : header.type = SegmentType.null
  · rw [mappedSegmentOf, if_pos hnull]
    exact iff_of_true (fun i x hx => absurd hx (by simp)) fun hne => absurd hnull hne
  · rw [mappedSegmentOf, if_neg hnull,
      holdsAddresses_mappedBytes_iff hlen h.getD_zero_ne_zero, imp_iff_right hnull]
    simp [UInt64.toNat_inj.symm]

theorem holdsAddresses_section_iff (hlen : mapped.length < 2 ^ 64)
    (h : MappedGrammar mapped) (base : UInt64) {header : SectionHeader}
    (halloc : header.flags.isAlloc = true) :
    HoldsAddresses mapped base header.addr (mappedSectionOf mapped base header).data ↔
      (header.mappedLength ≠ 0 → base ≤ header.addr) := by
  rw [mappedSectionOf, mappedSectionStart, if_pos halloc,
    holdsAddresses_mappedBytes_iff hlen h.getD_zero_ne_zero]
  simp [UInt64.toNat_inj.symm]

/-- A mapped image holds the bytes of its addresses when no header with bytes lies below
the base, and only then. -/
theorem holdsAddresses_iff (hlen : mapped.length ≤ isizeMax) {image : ElfImage}
    (hparse : ElfImage.parseMapped mapped = .ok image) :
    image.HoldsAddresses mapped ↔ HeadersAboveBase mapped := by
  have hmax : isizeMax < 2 ^ 64 := by decide
  obtain ⟨hgrammar, rfl⟩ := (parseMapped_eq_ok (by omega)).1 hparse
  have hbase : (mappedImageOf mapped).imageBase =
      computeImageBase (programHeadersOf mapped) :=
    imageBase_mappedImageOf mapped _
  have hsegments : (∀ segment ∈ (mappedImageOf mapped).segments, HoldsAddresses mapped
      (mappedImageOf mapped).imageBase segment.header.vaddr segment.data) ↔
      ∀ header ∈ programHeadersOf mapped, header.type ≠ SegmentType.null →
        header.mappedLength ≠ 0 →
        computeImageBase (programHeadersOf mapped) ≤ header.vaddr := by
    rw [hbase, mappedImageOf, List.forall_mem_map]
    exact forall₂_congr fun header _ =>
      holdsAddresses_segment_iff (by omega) hgrammar _ header
  have hsections : (∀ sec ∈ (mappedImageOf mapped).sections,
      sec.header.flags.isAlloc = true → HoldsAddresses mapped
        (mappedImageOf mapped).imageBase sec.header.addr sec.data) ↔
      ∀ header ∈ mappedSectionHeadersOf mapped, header.flags.isAlloc = true →
        Allocatable mapped header.mappedLength → header.mappedLength ≠ 0 →
        computeImageBase (programHeadersOf mapped) ≤ header.addr := by
    rw [hbase, mappedImageOf, mappedSectionsOf, List.forall_mem_map]
    simp only [List.mem_filter, decide_eq_true_eq, and_imp]
    refine forall₂_congr fun header _ => ⟨fun hholds halloc hsize => ?_,
      fun habove hsize halloc => ?_⟩
    · exact (holdsAddresses_section_iff (by omega) hgrammar _ halloc).1 (hholds hsize halloc)
    · exact (holdsAddresses_section_iff (by omega) hgrammar _ halloc).2 (habove halloc hsize)
  rw [ElfImage.HoldsAddresses, hsegments, hsections]
  exact ⟨fun h => ⟨h.1, h.2⟩, fun h => ⟨h.segments, h.sections⟩⟩

end Described

/-- A mapped executable of 176 bytes: its headers, with a note of four bytes. -/
def noteMapped (vaddr : UInt64) : List UInt8 :=
  { smallHeader with phnum := 2, shoff := 0, shnum := 0, shstrndx := 0 }.write ++
    { smallLoad with offset := 0, filesz := 176, memsz := 176 }.write .little .elf64 ++
    { smallLoad with type := SegmentType.note, vaddr, filesz := 4 }.write .little .elf64

/-- A note inside the image holds the bytes of its addresses. -/
theorem noteMapped_holdsAddresses :
    ∃ image, ElfImage.parseMapped (noteMapped 0x1040) = .ok image ∧
      image.HoldsAddresses (noteMapped 0x1040) := by
  obtain ⟨image, himage⟩ := Outcome.exists_of_isOk
    (show (ElfImage.parseMapped (noteMapped 0x1040)).isOk = true by decide +kernel)
  refine ⟨image, himage, (holdsAddresses_iff (by decide +kernel) himage).2 ⟨?_, ?_⟩⟩
  · decide +kernel
  · decide +kernel

/-- A note below the base holds the first bytes of the image. -/
theorem noteMapped_below :
    ∃ image, ElfImage.parseMapped (noteMapped 0x10) = .ok image ∧
      ¬image.HoldsAddresses (noteMapped 0x10) ∧
      ∃ segment ∈ image.segments, segment.header.type = SegmentType.note ∧
        segment.header.vaddr < image.imageBase ∧ segment.data = elfMagic := by
  obtain ⟨image, himage⟩ := Outcome.exists_of_isOk
    (show (ElfImage.parseMapped (noteMapped 0x10)).isOk = true by decide +kernel)
  have hdescribed := ((parseMapped_eq_ok (by decide +kernel)).1 himage).2
  have hbelow : ∃ segment ∈ (mappedImageOf (noteMapped 0x10)).segments,
      segment.header.type = SegmentType.note ∧
        segment.header.vaddr < (mappedImageOf (noteMapped 0x10)).imageBase ∧
        segment.data = elfMagic := by decide +kernel
  rw [hdescribed] at hbelow
  refine ⟨image, himage, fun hholds => ?_, hbelow⟩
  obtain ⟨segment, hmem, -, hlt, hdata⟩ := hbelow
  have hbyte := hholds.1 segment hmem 0 0x7f (by rw [hdata]; rfl)
  rw [byteAtAddress, if_neg (by rw [UInt64.lt_iff_toNat_lt] at hlt; omega)] at hbyte
  exact absurd hbyte (by decide)

end Elfex
