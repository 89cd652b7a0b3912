import Elfex.Foundation.Codec
import Elfex.Format.Header

/-!
# The header codecs

Each header is laid out twice in the crate, as a list of field offsets for the parser and
as a sequence of appended fields for the serializer. The two are inverse: what is read of
an entry writes its bytes, and what is written of a header whose values fit the class reads
as that header. Of the identification the seven padding bytes are not kept.
-/

namespace Elfex

open Foundation

/-! ## What fits a class -/

theorem ElfClass.keep_elf32_eq_iff (value : UInt64) :
    ElfClass.elf32.keep value = value ↔ value.toNat < 2 ^ 32 := by
  constructor
  · intro h
    rw [← h, ElfClass.keep_elf32, UInt32.toNat_toUInt64]
    exact UInt32.toNat_lt _
  · exact ElfClass.keep_of_lt .elf32

/-- The values fit the address fields of the class. -/
def ElfClass.Holds (elfClass : ElfClass) (values : List UInt64) : Prop :=
  elfClass = .elf32 → ∀ value ∈ values, value.toNat < 2 ^ 32

theorem ElfClass.holds_iff (elfClass : ElfClass) (values : List UInt64) :
    elfClass.Holds values ↔ ∀ value ∈ values, elfClass.keep value = value := by
  cases elfClass with
  | elf64 => exact ⟨fun _ _ _ => rfl, fun _ h => nomatch h⟩
  | elf32 =>
      simp only [ElfClass.keep_elf32_eq_iff]
      exact ⟨fun h => h rfl, fun h _ => h⟩

namespace ProgramHeader

/-- The address fields of a program header. -/
def words (header : ProgramHeader) : List UInt64 :=
  [header.offset, header.vaddr, header.paddr, header.filesz, header.memsz, header.align]

theorem fits_iff (header : ProgramHeader) (elfClass : ElfClass) :
    header.Fits elfClass ↔ elfClass.Holds header.words := by
  obtain ⟨type, flags, offset, vaddr, paddr, filesz, memsz, align⟩ := header
  simp [Fits, narrow, ElfClass.holds_iff, words]

/-- What is read of an entry writes its bytes. -/
theorem write_decode (endian : Endian) (elfClass : ElfClass) {entry : List UInt8}
    (h : entry.length = (size elfClass).toNat) :
    (decode endian elfClass entry).write endian elfClass = entry := by
  have hfield : ∀ {o n}, o + n ≤ (size elfClass).toNat → (window entry o n).length = n :=
    fun hin => length_window_of_le (h ▸ hin)
  cases elfClass <;> simp only [write, decode]
  all_goals
    simp (disch := exact hfield (by decide)) only [Endian.u32Bytes_u32, Endian.u64Bytes_u64,
      low32, UInt32.toUInt32_toUInt64]
    simp (disch := decide) only [window_adjacent]
    exact window_eq_self h

end ProgramHeader

namespace SectionHeader

/-- The address fields of a section header. -/
def words (header : SectionHeader) : List UInt64 :=
  [header.flags, header.addr, header.offset, header.size, header.addralign, header.entsize]

theorem fits_iff (header : SectionHeader) (elfClass : ElfClass) :
    header.Fits elfClass ↔ elfClass.Holds header.words := by
  obtain ⟨nameIndex, type, flags, addr, offset, size, link, info, addralign, entsize⟩ := header
  simp [Fits, narrow, ElfClass.holds_iff, words]

/-- What is read of an entry writes its bytes. -/
theorem write_decode (endian : Endian) (elfClass : ElfClass) {entry : List UInt8}
    (h : entry.length = (entrySize elfClass).toNat) :
    (decode endian elfClass entry).write endian elfClass = entry := by
  have hfield : ∀ {o n}, o + n ≤ (entrySize elfClass).toNat → (window entry o n).length = n :=
    fun hin => length_window_of_le (h ▸ hin)
  cases elfClass <;> simp only [write, decode]
  all_goals
    simp (disch := exact hfield (by decide)) only [Endian.u32Bytes_u32, Endian.u64Bytes_u64,
      low32, UInt32.toUInt32_toUInt64]
    simp (disch := decide) only [window_adjacent]
    exact window_eq_self h

end SectionHeader

/-- The entries of a program header table. -/
def programHeaderCodec (endian : Endian) (elfClass : ElfClass) :
    RecordCodec ErrorKind ProgramHeader where
  width := (ProgramHeader.size elfClass).toNat
  width_pos := by cases elfClass <;> decide
  encode header := header.write endian elfClass
  decode entry := .ok (ProgramHeader.decode endian elfClass entry)
  Fits header := elfClass.Holds header.words
  length_encode header := header.length_write endian elfClass
  decode_encode header h := by
    rw [ProgramHeader.decode_write]
    exact congrArg Except.ok ((header.fits_iff elfClass).2 h)
  encode_decode entry hlen := ⟨_, rfl,
    (ProgramHeader.fits_iff _ elfClass).1 (ProgramHeader.decode_fits endian elfClass entry),
    ProgramHeader.write_decode endian elfClass hlen⟩

/-- The entries of a section header table. -/
def sectionHeaderCodec (endian : Endian) (elfClass : ElfClass) :
    RecordCodec ErrorKind SectionHeader where
  width := (SectionHeader.entrySize elfClass).toNat
  width_pos := by cases elfClass <;> decide
  encode header := header.write endian elfClass
  decode entry := .ok (SectionHeader.decode endian elfClass entry)
  Fits header := elfClass.Holds header.words
  length_encode header := header.length_write endian elfClass
  decode_encode header h := by
    rw [SectionHeader.decode_write]
    exact congrArg Except.ok ((header.fits_iff elfClass).2 h)
  encode_decode entry hlen := ⟨_, rfl,
    (SectionHeader.fits_iff _ elfClass).1 (SectionHeader.decode_fits endian elfClass entry),
    SectionHeader.write_decode endian elfClass hlen⟩

/-! ## The file header -/

theorem ElfClass.toByte_of_fromByte {value : UInt8} {elfClass : ElfClass}
    (h : ElfClass.fromByte value = .ok elfClass) : elfClass.toByte = value := by
  rw [ElfClass.fromByte] at h
  split_ifs at h with h1 h2
  · cases h
    exact h1.symm
  · cases h
    exact h2.symm
  · cases h

theorem Endian.toByte_of_fromByte {value : UInt8} {endian : Endian}
    (h : Endian.fromByte value = .ok endian) : endian.toByte = value := by
  rw [Endian.fromByte] at h
  split_ifs at h with h1 h2
  · cases h
    exact h1.symm
  · cases h
    exact h2.symm
  · cases h

/-- The identification with its padding bytes zero. -/
def clearPadding (bytes : List UInt8) : List UInt8 := splice bytes 9 (List.replicate 7 0)

theorem clearPadding_append {head : List UInt8} (h : head.length = 16) (tail : List UInt8) :
    clearPadding (head ++ tail) = clearPadding head ++ tail := by
  rw [clearPadding, clearPadding, splice, splice, List.take_append_of_le_length (by omega),
    List.drop_append_of_le_length (by simp; omega), List.append_assoc, List.append_assoc,
    List.append_assoc]

/-- What is read of an identification writes its bytes, but for the padding. -/
theorem ElfIdent.toBytes_of_parse {bytes : List UInt8} (hlen : bytes.length = 16)
    {ident : ElfIdent} (h : ElfIdent.parse bytes = .ok ident) :
    ident.toBytes = clearPadding bytes := by
  match bytes, hlen with
  | [m0, m1, m2, m3, c, e, v, o, a, _, _, _, _, _, _, _], _ =>
      rw [ElfIdent.parse] at h
      split at h
      · cases h
      · rename_i hmagic
        obtain ⟨elfClass, hclass, h⟩ := Outcome.bind_eq_ok.1 h
        obtain ⟨endian, hendian, h⟩ := Outcome.bind_eq_ok.1 h
        cases h
        have hclass' := ElfClass.toByte_of_fromByte hclass
        have hendian' := Endian.toByte_of_fromByte hendian
        rw [toBytes, ← not_not.1 hmagic, hclass', hendian']
        rfl

/-- A numbered type that is not the number of a named one is in its named form. -/
theorem ElfType.normalize_eq {type : ElfType}
    (h : ∀ value, type = .other value → 4 < value) : type.normalize = type := by
  cases type with
  | other value =>
      have hlt := UInt16.lt_iff_toNat_lt.1 (h value rfl)
      have hne : ∀ k : UInt16, k.toNat ≤ 4 → value ≠ k := by
        rintro k hk rfl
        exact absurd hlt (Nat.not_lt.2 hk)
      rw [normalize, toU16, fromU16, if_neg (hne 0 (by decide)), if_neg (hne 1 (by decide)),
        if_neg (hne 2 (by decide)), if_neg (hne 3 (by decide)), if_neg (hne 4 (by decide))]
  | _ => rfl

/-- A parsed type has no number of a named one. -/
theorem ElfType.lt_of_fromU16 {raw value : UInt16} (h : fromU16 raw = .other value) :
    4 < value := by
  unfold fromU16 at h
  split_ifs at h with h0 h1 h2 h3 h4
  cases h
  have hne : ∀ k : UInt16, raw ≠ k → raw.toNat ≠ k.toNat := fun k => mt UInt16.toNat_inj.1
  have h0 := hne 0 h0
  have h1 := hne 1 h1
  have h2 := hne 2 h2
  have h3 := hne 3 h3
  have h4 := hne 4 h4
  simp only [UInt16.lt_iff_toNat_lt, UInt16.reduceToNat] at h0 h1 h2 h3 h4 ⊢
  omega

namespace ElfHeader

/-- The fields fit the class, and a numbered type is not the number of a named one. -/
structure Encodable (header : ElfHeader) : Prop where
  words : header.ident.elfClass.Holds [header.entry, header.phoff, header.shoff]
  type : ∀ value, header.type = .other value → 4 < value

theorem Encodable.fits {header : ElfHeader} (h : header.Encodable) : header.Fits := by
  have hwords := (ElfClass.holds_iff _ _).1 h.words
  simp only [List.forall_mem_cons] at hwords
  obtain ⟨hentry, hphoff, hshoff, -⟩ := hwords
  rw [Fits, narrow, ElfType.normalize_eq h.type, hentry, hphoff, hshoff]

theorem encodable_decode (ident : ElfIdent) (bytes : List UInt8) :
    (decode ident bytes).Encodable := by
  refine ⟨(ElfClass.holds_iff _ _).2 ?_, fun value h => ?_⟩
  · obtain ⟨elfClass, endian, version, osAbi, abiVersion⟩ := ident
    cases elfClass <;> simp [decode, low32]
  · have hraw : ElfType.fromU16 (ident.data.u16 (window bytes 16 2)) = .other value := by
      rw [← h]
      cases hclass : ident.elfClass <;> simp only [decode, hclass]
    exact ElfType.lt_of_fromU16 hraw

/-- What is read of a file header writes its bytes behind the identification. -/
theorem write_decode (ident : ElfIdent) {bytes : List UInt8}
    (h : bytes.length = (size ident.elfClass).toNat) :
    (decode ident bytes).write =
      ident.toBytes ++ window bytes 16 ((size ident.elfClass).toNat - 16) := by
  have hfield : ∀ {o n}, o + n ≤ (size ident.elfClass).toNat → (window bytes o n).length = n :=
    fun hin => length_window_of_le (h ▸ hin)
  cases hclass : ident.elfClass <;> rw [hclass] at hfield <;>
    simp only [write, decode, hclass, ElfType.toU16_fromU16]
  all_goals
    simp (disch := exact hfield (by decide)) only [Endian.u16Bytes_u16, Endian.u32Bytes_u32,
      Endian.u64Bytes_u64, low32, UInt32.toUInt32_toUInt64, List.append_assoc]
    simp (disch := decide) only [window_adjacent]
    rfl

end ElfHeader

/-! ## Parsing and writing -/

/-- Parsing an entry of `width` bytes inside a string and writing a value are inverse, on
the values that fit. -/
structure InverseCodec {α : Type} (width : ℕ) (parse : List UInt8 → UInt64 → Exec α)
    (write : α → List UInt8) (Fits : α → Prop) : Prop where
  write_parse : ∀ (data : List UInt8) (offset : UInt64), data.length ≤ isizeMax →
    offset.toNat + width ≤ data.length → ∃ value, parse data offset = .ok value ∧
      Fits value ∧ write value = window data offset.toNat width
  length_write : ∀ value, Fits value → (write value).length = width
  parse_write : ∀ value, Fits value → ∀ out rest : List UInt8,
    (out ++ write value ++ rest).length ≤ isizeMax →
      parse (out ++ write value ++ rest) (UInt64.ofNat out.length) = .ok value

/-- A parser that reads the records of a codec is inverse to its writer. -/
theorem InverseCodec.of_codec {α : Type} (codec : RecordCodec ErrorKind α)
    {parse : List UInt8 → UInt64 → Exec α}
    (h : ∀ (data : List UInt8) (offset : UInt64), data.length ≤ isizeMax →
      offset.toNat + codec.width ≤ data.length →
        parse data offset = codec.decode (window data offset.toNat codec.width)) :
    InverseCodec codec.width parse codec.encode codec.Fits where
  write_parse data offset hdata hin := by
    obtain ⟨value, hdecode, hfits, hwrite⟩ :=
      codec.encode_decode _ (length_window_of_le hin)
    exact ⟨value, (h data offset hdata hin).trans hdecode, hfits, hwrite⟩
  length_write value _ := codec.length_encode value
  parse_write value hfits out rest hlen := by
    have hmax : isizeMax < 2 ^ 64 := by decide
    have hwidth := codec.length_encode value
    have htotal := hlen
    rw [List.length_append, List.length_append, hwidth] at htotal
    have hoffset : (UInt64.ofNat out.length).toNat = out.length :=
      toNat_ofNat_of_lt (by omega)
    rw [h _ _ hlen (by rw [hoffset, List.length_append, List.length_append, hwidth]; omega),
      hoffset, List.append_assoc, window_append_of_le _ (Nat.le_refl _), Nat.sub_self,
      window_append_left _ (by omega), window_eq_self hwidth, codec.decode_encode value hfits]

theorem programHeader_inverseCodec (endian : Endian) (elfClass : ElfClass) :
    InverseCodec (ProgramHeader.size elfClass).toNat
      (fun data offset => ProgramHeader.parse (sliceReader data) offset endian elfClass)
      (fun header => header.write endian elfClass)
      (fun header => elfClass.Holds header.words) :=
  InverseCodec.of_codec (programHeaderCodec endian elfClass) fun _ offset hdata hin =>
    (ProgramHeader.parse_decides (sliceReader_serves (hdata.trans_lt (by decide))) offset endian
      elfClass).ok hin

theorem sectionHeader_inverseCodec (endian : Endian) (elfClass : ElfClass) :
    InverseCodec (SectionHeader.entrySize elfClass).toNat
      (fun data offset => SectionHeader.parse (sliceReader data) offset endian elfClass)
      (fun header => header.write endian elfClass)
      (fun header => elfClass.Holds header.words) :=
  InverseCodec.of_codec (sectionHeaderCodec endian elfClass) fun _ offset hdata hin =>
    (SectionHeader.parse_decides (sliceReader_serves (hdata.trans_lt (by decide))) offset endian
      elfClass).ok hin

/-- Parsing the identification and the file header at the start of a string and writing a
file header are inverse, on the headers that can be encoded and up to the padding. -/
structure InverseHeaderCodec : Prop where
  write_parse : ∀ (data : List UInt8) (ident : ElfIdent), data.length ≤ isizeMax →
    (ElfHeader.size ident.elfClass).toNat ≤ data.length →
      ElfIdent.parse (window data 0 eiNident) = .ok ident →
        ∃ header, ElfHeader.parse (sliceReader data) ident = .ok header ∧ header.Encodable ∧
          header.ident = ident ∧
          header.write = clearPadding (window data 0 (ElfHeader.size ident.elfClass).toNat)
  length_write : ∀ header : ElfHeader, header.Encodable →
    header.write.length = (ElfHeader.size header.ident.elfClass).toNat
  parse_write : ∀ header : ElfHeader, header.Encodable → ∀ rest : List UInt8,
    (header.write ++ rest).length ≤ isizeMax →
      ElfIdent.parse (window (header.write ++ rest) 0 eiNident) = .ok header.ident ∧
        ElfHeader.parse (sliceReader (header.write ++ rest)) header.ident = .ok header

theorem header_inverseCodec : InverseHeaderCodec where
  write_parse data ident hdata hin hident := by
    have hsixteen := sixteen_le_size ident.elfClass
    have hserves := sliceReader_serves (hdata.trans_lt (show isizeMax < 2 ^ 64 by decide))
    have hwindow : (window data 0 (ElfHeader.size ident.elfClass).toNat).length =
        (ElfHeader.size ident.elfClass).toNat := length_window_of_le (by rwa [Nat.zero_add])
    refine ⟨_, (ElfHeader.parse_decides hserves ident).ok hin, ElfHeader.encodable_decode _ _,
      ElfHeader.decode_ident _ _, ?_⟩
    have hhead : (window data 0 16).length = 16 := length_window_of_le (by omega)
    have hsplit := window_adjacent data (Nat.zero_add 16)
      (m := (ElfHeader.size ident.elfClass).toNat - 16)
    rw [Nat.add_sub_of_le hsixteen] at hsplit
    rw [ElfHeader.write_decode ident hwindow, ElfIdent.toBytes_of_parse hhead hident,
      window_window _ (by omega), Nat.zero_add, ← hsplit, clearPadding_append hhead]
  length_write header _ := header.length_write
  parse_write header h rest hlen := by
    have hsixteen := sixteen_le_size header.ident.elfClass
    have hserves := sliceReader_serves (hlen.trans_lt (show isizeMax < 2 ^ 64 by decide))
    have hwritten := header.length_write
    constructor
    · rw [window_append_left _ (by rw [hwritten]; exact hsixteen), eiNident,
        ElfHeader.window_write_ident, ElfIdent.parse_toBytes]
    · rw [(ElfHeader.parse_decides hserves header.ident).ok
        (by rw [List.length_append, hwritten]; omega), window_append_left _ (by omega),
        window_eq_self hwritten, ElfHeader.decode_write]
      exact congrArg Except.ok h.fits

/-- The parsers and the serializers of the three headers are inverse. -/
theorem header_codecs_inverse : InverseHeaderCodec ∧ ∀ (endian : Endian) (elfClass : ElfClass),
    InverseCodec (ProgramHeader.size elfClass).toNat
      (fun data offset => ProgramHeader.parse (sliceReader data) offset endian elfClass)
      (fun header => header.write endian elfClass)
      (fun header => elfClass.Holds header.words) ∧
    InverseCodec (SectionHeader.entrySize elfClass).toNat
      (fun data offset => SectionHeader.parse (sliceReader data) offset endian elfClass)
      (fun header => header.write endian elfClass)
      (fun header => elfClass.Holds header.words) :=
  ⟨header_inverseCodec, fun endian elfClass =>
    ⟨programHeader_inverseCodec endian elfClass, sectionHeader_inverseCodec endian elfClass⟩⟩

end Elfex
