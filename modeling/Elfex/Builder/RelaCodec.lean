import Elfex.Builder.Serialize
import Elfex.Foundation.Codec
import Mathlib.Data.Nat.Bitwise

/-!
# The relocation table codec

`serializeRela` and `RelocationSection.parse` are inverse. The fields of an entry are
fixed-width words, so an entry is a record of the class's width; the two classes differ
in the widths, in where `r_info` is split and in how the addend is extended.
-/

namespace Elfex

open Foundation

/-! ## The two halves of `r_info` -/

theorem toNat_info64 (entry : RelocationEntry) :
    (entry.info .elf64).toNat = entry.symbol.toNat * 2 ^ 32 + entry.rType.toNat := by
  have hsymbol : entry.symbol.toNat < 2 ^ 32 := entry.symbol.toNat_lt
  have htype : entry.rType.toNat < 2 ^ 32 := entry.rType.toNat_lt
  have hshift : (32 : UInt64).toNat % 64 = 32 := rfl
  rw [RelocationEntry.info, UInt64.toNat_or, UInt64.toNat_shiftLeft, UInt32.toNat_toUInt64,
    UInt32.toNat_toUInt64, hshift, Nat.shiftLeft_eq, Nat.mod_eq_of_lt (by omega),
    ← Nat.shiftLeft_eq, ← Nat.shiftLeft_add_eq_or_of_lt htype, Nat.shiftLeft_eq]

theorem toNat_info32 (entry : RelocationEntry) (h : entry.symbol.toNat < 2 ^ 24) :
    (entry.info .elf32).toNat = entry.symbol.toNat * 2 ^ 8 + entry.rType.toNat % 2 ^ 8 := by
  have htype : entry.rType.toNat % 2 ^ 8 < 2 ^ 8 := Nat.mod_lt _ (by decide)
  have hshift : (8 : UInt32).toNat % 32 = 8 := rfl
  have hmask : (0xff : UInt32).toNat = 2 ^ 8 - 1 := rfl
  rw [RelocationEntry.info, UInt32.toNat_toUInt64, UInt32.toNat_or, UInt32.toNat_shiftLeft,
    UInt32.toNat_and, hshift, hmask, Nat.and_two_pow_sub_one_eq_mod, Nat.shiftLeft_eq,
    Nat.mod_eq_of_lt (by omega), ← Nat.shiftLeft_eq, ← Nat.shiftLeft_add_eq_or_of_lt htype,
    Nat.shiftLeft_eq]

theorem toNat_splitSymbol64 (info : UInt64) :
    (splitSymbol .elf64 info).toNat = info.toNat / 2 ^ 32 := by
  have hlt : info.toNat < 2 ^ 64 := info.toNat_lt
  have hshift : (32 : UInt64).toNat % 64 = 32 := rfl
  rw [splitSymbol, low32, UInt64.toNat_toUInt32, UInt64.toNat_shiftRight, hshift,
    Nat.shiftRight_eq_div_pow, Nat.mod_eq_of_lt (by omega)]

theorem toNat_splitType64 (info : UInt64) :
    (splitType .elf64 info).toNat = info.toNat % 2 ^ 32 := by
  have hmask : (0xffffffff : UInt64).toNat = 2 ^ 32 - 1 := rfl
  rw [splitType, low32, UInt64.toNat_toUInt32, UInt64.toNat_and, hmask,
    Nat.and_two_pow_sub_one_eq_mod, Nat.mod_mod]

theorem toNat_splitSymbol32 {info : UInt64} (h : info.toNat < 2 ^ 32) :
    (splitSymbol .elf32 info).toNat = info.toNat / 2 ^ 8 := by
  have hshift : (8 : UInt64).toNat % 64 = 8 := rfl
  rw [splitSymbol, low32, UInt64.toNat_toUInt32, UInt64.toNat_shiftRight, hshift,
    Nat.shiftRight_eq_div_pow, Nat.mod_eq_of_lt (by omega)]

theorem toNat_splitType32 (info : UInt64) :
    (splitType .elf32 info).toNat = info.toNat % 2 ^ 8 := by
  have hmask : (0xff : UInt64).toNat = 2 ^ 8 - 1 := rfl
  rw [splitType, low32, UInt64.toNat_toUInt32, UInt64.toNat_and, hmask,
    Nat.and_two_pow_sub_one_eq_mod, Nat.mod_eq_of_lt (by omega)]

/-! ## Addends of the narrow class -/

/-- The value fits a signed 32-bit field. -/
def InInt32 (value : Int64) : Prop := -2 ^ 31 ≤ value.toInt ∧ value.toInt < 2 ^ 31

instance (value : Int64) : Decidable (InInt32 value) :=
  inferInstanceAs (Decidable (_ ∧ _))

theorem inInt32_toInt64 (value : Int32) : InInt32 value.toInt64 := by
  rw [InInt32, Int32.toInt_toInt64]
  exact ⟨value.le_toInt, value.toInt_lt⟩

theorem inInt32_iff (value : Int64) :
    InInt32 value ↔ Int32.minValue.toInt64 ≤ value ∧ value ≤ Int32.maxValue.toInt64 := by
  have hmin : Int32.minValue.toInt64.toInt = -2 ^ 31 := by decide
  have hmax : Int32.maxValue.toInt64.toInt = 2 ^ 31 - 1 := by decide
  rw [InInt32, Int64.le_iff_toInt_le, Int64.le_iff_toInt_le, hmin, hmax]
  omega

theorem toInt64_i32OrZero {value : Int64} (h : InInt32 value) :
    (i32OrZero value).toInt64 = value := by
  rw [i32OrZero, if_pos ((inInt32_iff value).1 h)]
  apply Int64.toInt.inj
  rw [Int32.toInt_toInt64, Int64.toInt_toInt32, Int.bmod_eq_of_le h.1 h.2]

theorem i32OrZero_toInt64 (value : Int32) : i32OrZero value.toInt64 = value := by
  rw [i32OrZero, if_pos ((inInt32_iff _).1 (inInt32_toInt64 value)), Int32.toInt32_toInt64]

/-! ## The codec -/

/-- The entry has an explicit addend and its values fit the fields of the class. -/
def RelocationEntry.FitsRela (entry : RelocationEntry) : ElfClass → Prop
  | .elf64 => entry.addend.isSome
  | .elf32 => entry.offset.toNat < 2 ^ 32 ∧ entry.symbol.toNat < 2 ^ 24 ∧
      entry.rType.toNat < 2 ^ 8 ∧ ∃ addend, entry.addend = some addend ∧ InInt32 addend

theorem length_serializeRelaEntry (endian : Endian) (elfClass : ElfClass)
    (entry : RelocationEntry) : (serializeRelaEntry endian elfClass entry).length =
      RelocationSection.entrySize true elfClass := by
  cases elfClass <;> simp [serializeRelaEntry, RelocationSection.entrySize]

theorem parse_rela64 (endian : Endian) {entry : List UInt8} (h : entry.length = 24) :
    RelocationEntry.parse true endian .elf64 entry = .ok {
      offset := endian.u64 (window entry 0 8)
      symbol := splitSymbol .elf64 (endian.u64 (window entry 8 8))
      rType := splitType .elf64 (endian.u64 (window entry 8 8))
      addend := some (endian.u64 (window entry 16 8)).toInt64 } := by
  have hoffset : array8 entry 0 = .ok (window entry 0 8) := arrayAt_eq (by omega)
  have hinfo : array8 entry 8 = .ok (window entry 8 8) := arrayAt_eq (by omega)
  have haddend : array8 entry 16 = .ok (window entry 16 8) := arrayAt_eq (by omega)
  simp only [RelocationEntry.parse, hoffset, hinfo, haddend, Outcome.ok_bind]
  rfl

theorem parse_rela32 (endian : Endian) {entry : List UInt8} (h : entry.length = 12) :
    RelocationEntry.parse true endian .elf32 entry = .ok {
      offset := (endian.u32 (window entry 0 4)).toUInt64
      symbol := splitSymbol .elf32 (endian.u32 (window entry 4 4)).toUInt64
      rType := splitType .elf32 (endian.u32 (window entry 4 4)).toUInt64
      addend := some (endian.u32 (window entry 8 4)).toInt32.toInt64 } := by
  have hoffset : array4 entry 0 = .ok (window entry 0 4) := arrayAt_eq (by omega)
  have hinfo : array4 entry 4 = .ok (window entry 4 4) := arrayAt_eq (by omega)
  have haddend : array4 entry 8 = .ok (window entry 8 4) := arrayAt_eq (by omega)
  simp only [RelocationEntry.parse, hoffset, hinfo, haddend, Outcome.ok_bind]
  rfl

/-- Splitting the `r_info` of an entry gives its symbol and its type. -/
theorem split_info {elfClass : ElfClass} {entry : RelocationEntry}
    (h : entry.FitsRela elfClass) :
    splitSymbol elfClass (entry.info elfClass) = entry.symbol ∧
      splitType elfClass (entry.info elfClass) = entry.rType := by
  have htype : entry.rType.toNat < 2 ^ 32 := entry.rType.toNat_lt
  cases elfClass with
  | elf64 =>
      rw [← UInt32.toNat_inj, ← UInt32.toNat_inj, toNat_splitSymbol64, toNat_splitType64,
        toNat_info64]
      omega
  | elf32 =>
      obtain ⟨-, hsymbol, hnarrow, -⟩ := h
      have hinfo := toNat_info32 entry hsymbol
      rw [← UInt32.toNat_inj, ← UInt32.toNat_inj, toNat_splitSymbol32 (by omega),
        toNat_splitType32, hinfo]
      omega

/-- Joining the halves of an `r_info` field gives the field back. -/
theorem info_split (elfClass : ElfClass) {info : UInt64} {entry : RelocationEntry}
    (hinfo : elfClass = .elf32 → info.toNat < 2 ^ 32)
    (hsymbol : entry.symbol = splitSymbol elfClass info)
    (htype : entry.rType = splitType elfClass info) : entry.info elfClass = info := by
  rw [← UInt64.toNat_inj]
  cases elfClass with
  | elf64 =>
      rw [toNat_info64, hsymbol, htype, toNat_splitSymbol64, toNat_splitType64]
      omega
  | elf32 =>
      have hlt := hinfo rfl
      have hnarrow := toNat_splitSymbol32 hlt
      rw [toNat_info32 entry (by rw [hsymbol]; omega), hsymbol, htype, hnarrow,
        toNat_splitType32]
      omega

theorem info32_lt (entry : RelocationEntry) : (entry.info .elf32).toNat < 2 ^ 32 := by
  rw [RelocationEntry.info, UInt32.toNat_toUInt64]
  exact UInt32.toNat_lt _

theorem parse_serializeRelaEntry (endian : Endian) (elfClass : ElfClass)
    (entry : RelocationEntry) (h : entry.FitsRela elfClass) :
    RelocationEntry.parse true endian elfClass (serializeRelaEntry endian elfClass entry) =
      .ok entry := by
  have hlen := length_serializeRelaEntry endian elfClass entry
  have hsplit := split_info h
  cases elfClass with
  | elf64 =>
      obtain ⟨addend, haddend⟩ := Option.isSome_iff_exists.1 h
      rw [parse_rela64 endian hlen, serializeRelaEntry]
      obtain ⟨hfirst, hsecond, hthird⟩ := window_fields
        (endian.length_u64Bytes entry.offset) (endian.length_u64Bytes (entry.info .elf64))
        (endian.length_u64Bytes (entry.addend.getD 0).toUInt64)
      rw [hfirst, hsecond, hthird]
      simp only [Endian.u64_u64Bytes, hsplit, haddend, Option.getD_some,
        Int64.toInt64_toUInt64]
      rw [← haddend]
  | elf32 =>
      obtain ⟨hoffset, -, -, addend, haddend, hfits⟩ := h
      have hkept : (low32 entry.offset).toUInt64 = entry.offset :=
        ElfClass.keep_of_lt .elf32 hoffset
      have hinfo : (low32 (entry.info .elf32)).toUInt64 = entry.info .elf32 :=
        ElfClass.keep_of_lt .elf32 (info32_lt entry)
      rw [parse_rela32 endian hlen, serializeRelaEntry]
      obtain ⟨hfirst, hsecond, hthird⟩ := window_fields
        (endian.length_u32Bytes (low32 entry.offset))
        (endian.length_u32Bytes (low32 (entry.info .elf32)))
        (endian.length_u32Bytes (i32OrZero (entry.addend.getD 0)).toUInt32)
      rw [hfirst, hsecond, hthird]
      simp only [Endian.u32_u32Bytes, hkept, hinfo, hsplit, haddend, Option.getD_some,
        Int32.toInt32_toUInt32, toInt64_i32OrZero hfits]
      rw [← haddend]

theorem serializeRelaEntry_parse64 (endian : Endian) {bytes : List UInt8}
    (hlen : bytes.length = 24) : ∃ entry,
      RelocationEntry.parse true endian .elf64 bytes = .ok entry ∧ entry.FitsRela .elf64 ∧
        serializeRelaEntry endian .elf64 entry = bytes := by
  refine ⟨_, parse_rela64 endian hlen, rfl, ?_⟩
  rw [serializeRelaEntry, info_split .elf64 (fun h => nomatch h) rfl rfl]
  dsimp only [Option.getD_some]
  rw [UInt64.toUInt64_toInt64, Endian.u64Bytes_u64 endian (length_window_of_le (by omega)),
    Endian.u64Bytes_u64 endian (length_window_of_le (by omega)),
    Endian.u64Bytes_u64 endian (length_window_of_le (by omega))]
  exact fields_window hlen

theorem serializeRelaEntry_parse32 (endian : Endian) {bytes : List UInt8}
    (hlen : bytes.length = 12) : ∃ entry,
      RelocationEntry.parse true endian .elf32 bytes = .ok entry ∧ entry.FitsRela .elf32 ∧
        serializeRelaEntry endian .elf32 entry = bytes := by
  have hoffset : (endian.u32 (window bytes 0 4)).toNat < 2 ^ 32 := UInt32.toNat_lt _
  have hinfo : (endian.u32 (window bytes 4 4)).toUInt64.toNat < 2 ^ 32 := by
    rw [UInt32.toNat_toUInt64]
    exact UInt32.toNat_lt _
  refine ⟨_, parse_rela32 endian hlen, ⟨?_, ?_, ?_, _, rfl, inInt32_toInt64 _⟩, ?_⟩
  · rw [UInt32.toNat_toUInt64]
    exact hoffset
  · rw [toNat_splitSymbol32 hinfo]
    omega
  · rw [toNat_splitType32]
    exact Nat.mod_lt _ (by decide)
  · rw [serializeRelaEntry, info_split .elf32 (fun _ => hinfo) rfl rfl]
    dsimp only [Option.getD_some]
    rw [i32OrZero_toInt64, UInt32.toUInt32_toInt32, low32, UInt32.toUInt32_toUInt64, low32,
      UInt32.toUInt32_toUInt64,
      Endian.u32Bytes_u32 endian (length_window_of_le (by omega)),
      Endian.u32Bytes_u32 endian (length_window_of_le (by omega)),
      Endian.u32Bytes_u32 endian (length_window_of_le (by omega))]
    exact fields_window hlen

/-- The entries of a relocation table with explicit addends. -/
def relaCodec (endian : Endian) (elfClass : ElfClass) :
    RecordCodec ErrorKind RelocationEntry where
  width := RelocationSection.entrySize true elfClass
  width_pos := by cases elfClass <;> decide
  encode := serializeRelaEntry endian elfClass
  decode := RelocationEntry.parse true endian elfClass
  Fits entry := entry.FitsRela elfClass
  length_encode := length_serializeRelaEntry endian elfClass
  decode_encode := parse_serializeRelaEntry endian elfClass
  encode_decode _ hlen :=
    match elfClass with
    | .elf64 => serializeRelaEntry_parse64 endian hlen
    | .elf32 => serializeRelaEntry_parse32 endian hlen

/-- The table parser is the codec's loop over the records of the table. -/
theorem parse_rela_eq (data : List UInt8) (endian : Endian) (elfClass : ElfClass)
    (h : data.length % RelocationSection.entrySize true elfClass = 0) :
    RelocationSection.parse data true endian elfClass =
      (chunks (relaCodec endian elfClass).width data).mapM (relaCodec endian elfClass).decode >>=
        fun entries => .ok { entries, isRela := true } := by
  rw [RelocationSection.parse, if_neg (not_not.2 h)]
  rfl

theorem length_serializeRela_mod (entries : List RelocationEntry) (endian : Endian)
    (elfClass : ElfClass) : (serializeRela entries endian elfClass).length %
      RelocationSection.entrySize true elfClass = 0 := by
  have hlen : (serializeRela entries endian elfClass).length =
      entries.length * RelocationSection.entrySize true elfClass :=
    length_flatMap_of_width _ entries fun entry _ =>
      length_serializeRelaEntry endian elfClass entry
  rw [hlen, Nat.mul_mod_left]

theorem parse_serializeRela (endian : Endian) (elfClass : ElfClass)
    {entries : List RelocationEntry} (h : ∀ entry ∈ entries, entry.FitsRela elfClass) :
    RelocationSection.parse (serializeRela entries endian elfClass) true endian elfClass =
      .ok { entries, isRela := true } := by
  rw [parse_rela_eq _ endian elfClass (length_serializeRela_mod entries endian elfClass)]
  have htable := (relaCodec endian elfClass).mapM_decode_encode h
  change (chunks _ (serializeRela entries endian elfClass)).mapM _ = _ at htable
  rw [htable, Outcome.ok_bind]

/-- A string of whole entries is parsed to entries that fit and write the string. -/
theorem exists_parse_rela {data : List UInt8} (endian : Endian) (elfClass : ElfClass)
    (h : data.length % RelocationSection.entrySize true elfClass = 0) :
    ∃ entries, RelocationSection.parse data true endian elfClass =
        .ok { entries, isRela := true } ∧
      (∀ entry ∈ entries, entry.FitsRela elfClass) ∧
      serializeRela entries endian elfClass = data := by
  obtain ⟨entries, hread, hfits, hwritten⟩ :=
    (relaCodec endian elfClass).mapM_decode_of_dvd (Nat.dvd_of_mod_eq_zero h)
  refine ⟨entries, ?_, hfits, hwritten⟩
  rw [parse_rela_eq data endian elfClass h, hread, Outcome.ok_bind]

/-- Parsing and serializing are inverse bijections between the tables of whole entries
and the lists of entries that fit the class. -/
theorem rela_codec_bijective (endian : Endian) (elfClass : ElfClass) :
    (∀ data : List UInt8, data.length % RelocationSection.entrySize true elfClass = 0 →
      ∃ table, RelocationSection.parse data true endian elfClass = .ok table ∧
        (∀ entry ∈ table.entries, entry.FitsRela elfClass) ∧
        serializeRela table.entries endian elfClass = data) ∧
    ∀ entries : List RelocationEntry, (∀ entry ∈ entries, entry.FitsRela elfClass) →
      RelocationSection.parse (serializeRela entries endian elfClass) true endian elfClass =
        .ok { entries, isRela := true } := by
  refine ⟨fun data hdata => ?_, fun entries => parse_serializeRela endian elfClass⟩
  obtain ⟨entries, hparse, hfits, hwritten⟩ := exists_parse_rela endian elfClass hdata
  exact ⟨_, hparse, hfits, hwritten⟩

/-- A table of one entry with a negative addend, both ways. -/
theorem rela_codec_at_negative_addend :
    (∃ table, RelocationSection.parse
        [0, 0, 0, 16, 0, 0, 5, 8, 0xff, 0xff, 0xff, 0xfc] true .big .elf32 = .ok table ∧
      (∀ entry ∈ table.entries, entry.FitsRela .elf32) ∧
      serializeRela table.entries .big .elf32 =
        [0, 0, 0, 16, 0, 0, 5, 8, 0xff, 0xff, 0xff, 0xfc]) ∧
    RelocationSection.parse (serializeRela
        [{ offset := 16, symbol := 5, rType := 8, addend := some (-4) }] .big .elf32)
        true .big .elf32 =
      .ok { entries := [{ offset := 16, symbol := 5, rType := 8, addend := some (-4) }]
            isRela := true } :=
  ⟨(rela_codec_bijective .big .elf32).1 _ (by decide),
    (rela_codec_bijective .big .elf32).2 _ (by
      rw [List.forall_mem_singleton]
      exact ⟨by decide, by decide, by decide, -4, rfl, by decide⟩)⟩

end Elfex
