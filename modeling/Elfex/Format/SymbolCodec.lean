import Elfex.Format.HeaderCodec
import Elfex.Format.Tables

/-!
# The symbol table codec

A symbol table is a sequence of fixed-width records, and parsing it is decoding the records
and resolving their names. The binding, the type and the visibility are the raw bits under
other names, so the only part of a record that a symbol does not carry is the index of its
name and the reserved bits of `st_other`.
-/

namespace Elfex

open Foundation

/-! ## Raw values -/

@[simp] theorem SymbolBind.toU8_fromU8 (value : UInt8) : (fromU8 value).toU8 = value := by
  unfold fromU8
  repeat' split
  all_goals first | rfl | simp_all [toU8]

@[simp] theorem SymbolType.toU8_fromU8 (value : UInt8) : (fromU8 value).toU8 = value := by
  unfold fromU8
  repeat' split
  all_goals first | rfl | simp_all [toU8]

theorem SymbolVisibility.toU8_fromU8 (value : UInt8) :
    (fromU8 value).toU8 = value &&& 3 := by
  have hcases : value &&& 3 = 0 ∨ value &&& 3 = 1 ∨ value &&& 3 = 2 ∨ value &&& 3 = 3 := by
    have hlt : (value &&& 3).toNat < 4 := by
      rw [UInt8.toNat_and]
      exact Nat.lt_of_le_of_lt Nat.and_le_right (by decide)
    simp only [← UInt8.toNat_inj]
    show _ = 0 ∨ _ = 1 ∨ _ = 2 ∨ _ = 3
    omega
  unfold fromU8
  rcases hcases with h | h | h | h <;> rw [h] <;> rfl

/-- A record of a symbol table. -/
structure SymbolRecord where
  nameIndex : UInt32
  info : UInt8
  other : UInt8
  shndx : UInt16
  value : UInt64
  size : UInt64
  deriving DecidableEq, Repr

namespace SymbolRecord

def width : ElfClass → ℕ
  | .elf64 => 24
  | .elf32 => 16

def encode (endian : Endian) (elfClass : ElfClass) (record : SymbolRecord) : List UInt8 :=
  match elfClass with
  | .elf64 =>
      endian.u32Bytes record.nameIndex ++ [record.info] ++ [record.other] ++
        endian.u16Bytes record.shndx ++ endian.u64Bytes record.value ++
        endian.u64Bytes record.size
  | .elf32 =>
      endian.u32Bytes record.nameIndex ++ endian.u32Bytes (low32 record.value) ++
        endian.u32Bytes (low32 record.size) ++ [record.info] ++ [record.other] ++
        endian.u16Bytes record.shndx

def decode (endian : Endian) (elfClass : ElfClass) (entry : List UInt8) : SymbolRecord :=
  match elfClass with
  | .elf64 =>
      { nameIndex := endian.u32 (window entry 0 4)
        info := entry.getD 4 0
        other := entry.getD 5 0
        shndx := endian.u16 (window entry 6 2)
        value := endian.u64 (window entry 8 8)
        size := endian.u64 (window entry 16 8) }
  | .elf32 =>
      { nameIndex := endian.u32 (window entry 0 4)
        value := (endian.u32 (window entry 4 4)).toUInt64
        size := (endian.u32 (window entry 8 4)).toUInt64
        info := entry.getD 12 0
        other := entry.getD 13 0
        shndx := endian.u16 (window entry 14 2) }

/-- The symbol of a record, named by a string table. -/
def symbol (strtab : List UInt8) (record : SymbolRecord) : Symbol where
  name := StringTable.name strtab record.nameIndex.toNat
  value := record.value
  size := record.size
  bind := SymbolBind.fromU8 (record.info >>> 4)
  symType := SymbolType.fromU8 (record.info &&& 0x0f)
  visibility := SymbolVisibility.fromU8 (record.other &&& 0x03)
  shndx := record.shndx

theorem length_encode (endian : Endian) (elfClass : ElfClass) (record : SymbolRecord) :
    (record.encode endian elfClass).length = width elfClass := by
  cases elfClass <;> simp [encode, width]

theorem decode_encode (endian : Endian) (elfClass : ElfClass) {record : SymbolRecord}
    (h : elfClass.Holds [record.value, record.size]) :
    decode endian elfClass (record.encode endian elfClass) = record := by
  -- the two bytes in front are skipped by computation
  have hskip : ∀ (l : List UInt8) (o n : ℕ),
      window (record.info :: record.other :: l) (o + 2) n = window l o n := fun _ _ _ => rfl
  cases elfClass with
  | elf64 =>
      simp [encode, decode, hskip _ 0, hskip _ 2, hskip _ 10, window_append_left,
        window_append_of_le, window_eq_self]
  | elf32 =>
      obtain ⟨hvalue, hsize⟩ : record.value.toNat < 2 ^ 32 ∧ record.size.toNat < 2 ^ 32 := by
        simpa using h rfl
      have hvalue' : (low32 record.value).toUInt64 = record.value :=
        ElfClass.keep_of_lt .elf32 hvalue
      have hsize' : (low32 record.size).toUInt64 = record.size :=
        ElfClass.keep_of_lt .elf32 hsize
      simp [encode, decode, hskip _ 0, window_append_left, window_append_of_le, window_eq_self,
        hvalue', hsize']

theorem encode_decode (endian : Endian) (elfClass : ElfClass) {entry : List UInt8}
    (h : entry.length = width elfClass) :
    (decode endian elfClass entry).encode endian elfClass = entry := by
  have hfield : ∀ {o n}, o + n ≤ width elfClass → (window entry o n).length = n :=
    fun hin => length_window_of_le (h ▸ hin)
  have hbyte : ∀ {o}, o < width elfClass → [entry.getD o 0] = window entry o 1 := by
    intro o ho
    apply List.ext_getElem?
    intro i
    have hget : entry[o]? = some (entry.getD o 0) := by
      rw [List.getD_eq_getElem?_getD, List.getElem?_eq_getElem (by omega), Option.getD_some]
    rw [getElem?_window]
    cases i with
    | zero =>
        rw [if_pos Nat.one_pos, Nat.add_zero, hget]
        rfl
    | succ i =>
        rw [if_neg (by omega)]
        rfl
  cases elfClass <;> simp only [encode, decode]
  all_goals
    simp (disch := exact hfield (by decide)) only [Endian.u16Bytes_u16, Endian.u32Bytes_u32,
      Endian.u64Bytes_u64, low32, UInt32.toUInt32_toUInt64]
    simp (disch := decide) only [hbyte, window_adjacent]
    exact window_eq_self h

/-- The values a record holds fit its class. -/
theorem holds_decode (endian : Endian) (elfClass : ElfClass) (entry : List UInt8) :
    elfClass.Holds [(decode endian elfClass entry).value, (decode endian elfClass entry).size] := by
  rintro rfl value hvalue
  have hlt : ∀ word : UInt32, word.toUInt64.toNat < 2 ^ 32 := fun word => by
    rw [UInt32.toNat_toUInt64]
    exact word.toNat_lt
  simp only [decode, List.mem_cons, List.not_mem_nil, or_false] at hvalue
  rcases hvalue with rfl | rfl <;> exact hlt _

end SymbolRecord

/-- The records of a symbol table. -/
def symbolCodec (endian : Endian) (elfClass : ElfClass) : RecordCodec ErrorKind SymbolRecord where
  width := SymbolRecord.width elfClass
  width_pos := by cases elfClass <;> decide
  encode record := record.encode endian elfClass
  decode entry := .ok (SymbolRecord.decode endian elfClass entry)
  Fits record := elfClass.Holds [record.value, record.size]
  length_encode record := record.length_encode endian elfClass
  decode_encode _ h := congrArg Except.ok (SymbolRecord.decode_encode endian elfClass h)
  encode_decode entry h := ⟨_, rfl, SymbolRecord.holds_decode endian elfClass entry,
    SymbolRecord.encode_decode endian elfClass h⟩

/-- The parser of an entry decodes the record and names it. -/
theorem Symbol.parse_eq (strtab : List UInt8) (endian : Endian) (elfClass : ElfClass)
    {entry : List UInt8} (h : entry.length = SymbolRecord.width elfClass) :
    Symbol.parse strtab endian elfClass entry =
      .ok ((SymbolRecord.decode endian elfClass entry).symbol strtab) := by
  cases elfClass with
  | elf64 =>
      have hlength : entry.length = 24 := h
      rw [Symbol.parse, array4, arrayAt_eq (by omega), Outcome.ok_bind]
      simp only [array8, array2]
      rw [arrayAt_eq (by omega), arrayAt_eq (by omega), arrayAt_eq (by omega)]
      rfl
  | elf32 =>
      have hlength : entry.length = 16 := h
      rw [Symbol.parse, array4, arrayAt_eq (by omega), Outcome.ok_bind]
      simp only [array2]
      rw [arrayAt_eq (by omega), arrayAt_eq (by omega), arrayAt_eq (by omega)]
      rfl

namespace SymbolTable

variable (strtab : List UInt8) (endian : Endian) (elfClass : ElfClass)

theorem parse_eq (data : List UInt8) : parse data strtab endian elfClass =
    if data.length % SymbolRecord.width elfClass ≠ 0 then
      Outcome.fail (.invalidSection "symbol table is not a whole number of entries")
    else do
      let symbols ← (chunksExact (SymbolRecord.width elfClass) data).mapM
        (Symbol.parse strtab endian elfClass)
      return { symbols } := by
  cases elfClass <;> rfl

/-- A table of whole records is parsed to their symbols. -/
theorem parse_encode {records : List SymbolRecord}
    (h : ∀ record ∈ records, (symbolCodec endian elfClass).Fits record) :
    parse (records.flatMap (SymbolRecord.encode endian elfClass)) strtab endian elfClass =
      .ok ⟨records.map (SymbolRecord.symbol strtab)⟩ := by
  have hchunks : chunksExact (SymbolRecord.width elfClass)
      (records.flatMap (SymbolRecord.encode endian elfClass)) =
        records.map (SymbolRecord.encode endian elfClass) :=
    (symbolCodec endian elfClass).chunks_encode records
  have hloop : (records.map (SymbolRecord.encode endian elfClass)).mapM
      (Symbol.parse strtab endian elfClass) =
        .ok (records.map (SymbolRecord.symbol strtab)) := by
    clear hchunks
    induction records with
    | nil => rfl
    | cons record records ih =>
        have hlength := record.length_encode endian elfClass
        rw [List.map_cons, List.mapM_cons, Symbol.parse_eq strtab endian elfClass hlength,
          SymbolRecord.decode_encode endian elfClass (h record List.mem_cons_self),
          Outcome.ok_bind, ih fun next hnext => h next (List.mem_cons_of_mem record hnext)]
        rfl
  have hlength : (records.flatMap (SymbolRecord.encode endian elfClass)).length %
      SymbolRecord.width elfClass = 0 := by
    rw [length_flatMap_of_width _ records fun record _ => record.length_encode endian elfClass,
      Nat.mul_mod_left]
  rw [parse_eq, if_neg (not_not.2 hlength), hchunks, hloop]
  rfl

/-- A parsed table is one of whole records. -/
theorem exists_records {data : List UInt8} {table : SymbolTable}
    (h : parse data strtab endian elfClass = .ok table) :
    ∃ records : List SymbolRecord, (∀ record ∈ records, (symbolCodec endian elfClass).Fits record) ∧
      records.flatMap (SymbolRecord.encode endian elfClass) = data := by
  refine (symbolCodec endian elfClass).exists_table (Nat.dvd_of_mod_eq_zero ?_)
  rw [parse_eq] at h
  split at h
  · cases h
  · rename_i hwhole
    exact not_not.1 hwhole

/-- Parsing a symbol table is decoding its records and naming them: the accepted strings are
the sequences of whole records, each is that of exactly one list of records, and the symbols
are theirs in order. -/
theorem parse_iff_records (data : List UInt8) (table : SymbolTable) :
    parse data strtab endian elfClass = .ok table ↔
      ∃! records : List SymbolRecord,
        (∀ record ∈ records, (symbolCodec endian elfClass).Fits record) ∧
        records.flatMap (SymbolRecord.encode endian elfClass) = data ∧
        table.symbols = records.map (SymbolRecord.symbol strtab) := by
  constructor
  · intro h
    obtain ⟨records, hfits, rfl⟩ := exists_records strtab endian elfClass h
    rw [parse_encode strtab endian elfClass hfits] at h
    obtain rfl := Except.ok.inj h
    refine ⟨records, ⟨hfits, rfl, rfl⟩, ?_⟩
    rintro others ⟨hothers, hsame, -⟩
    have hdecoded := (symbolCodec endian elfClass).mapM_decode_encode hothers
    rw [show others.flatMap (symbolCodec endian elfClass).encode =
      records.flatMap (symbolCodec endian elfClass).encode from hsame,
      (symbolCodec endian elfClass).mapM_decode_encode hfits] at hdecoded
    exact (Except.ok.inj hdecoded).symm
  · rintro ⟨records, ⟨hfits, rfl, hsymbols⟩, -⟩
    rw [parse_encode strtab endian elfClass hfits, ← hsymbols]

end SymbolTable

/-! ## What a symbol keeps -/

/-- The two halves of a byte determine it. -/
theorem eq_of_nibbles {value value' : UInt8} (hhigh : value >>> 4 = value' >>> 4)
    (hlow : value &&& 0x0f = value' &&& 0x0f) : value = value' := by
  have hsplit : ∀ byte : UInt8,
      byte.toNat = (byte >>> 4).toNat * 16 + (byte &&& 0x0f).toNat := by
    intro byte
    have hshift : (byte >>> 4).toNat = byte.toNat / 16 := by
      rw [UInt8.toNat_shiftRight, Nat.shiftRight_eq_div_pow]
      rfl
    have hmask : (byte &&& 0x0f).toNat = byte.toNat % 16 := by
      rw [UInt8.toNat_and]
      exact Nat.and_two_pow_sub_one_eq_mod byte.toNat 4
    rw [hshift, hmask, Nat.div_add_mod']
  rw [← UInt8.toNat_inj, hsplit value, hsplit value', hhigh, hlow]

namespace SymbolRecord

/-- The records agree in all but the way they name a symbol and the reserved bits. -/
structure Alike (strtab : List UInt8) (record record' : SymbolRecord) : Prop where
  name : StringTable.name strtab record.nameIndex.toNat =
    StringTable.name strtab record'.nameIndex.toNat
  value : record.value = record'.value
  size : record.size = record'.size
  info : record.info = record'.info
  visibility : record.other &&& 0x03 = record'.other &&& 0x03
  shndx : record.shndx = record'.shndx

theorem symbol_eq_iff (strtab : List UInt8) (record record' : SymbolRecord) :
    record.symbol strtab = record'.symbol strtab ↔ Alike strtab record record' := by
  constructor
  · intro h
    obtain ⟨hname, hvalue, hsize, hbind, htype, hvisibility, hshndx⟩ := Symbol.mk.inj h
    have hhigh := congrArg SymbolBind.toU8 hbind
    have hlow := congrArg SymbolType.toU8 htype
    have hmask := congrArg SymbolVisibility.toU8 hvisibility
    rw [SymbolBind.toU8_fromU8, SymbolBind.toU8_fromU8] at hhigh
    rw [SymbolType.toU8_fromU8, SymbolType.toU8_fromU8] at hlow
    rw [SymbolVisibility.toU8_fromU8, SymbolVisibility.toU8_fromU8, UInt8.and_assoc,
      UInt8.and_assoc] at hmask
    exact ⟨hname, hvalue, hsize, eq_of_nibbles hhigh hlow, hmask, hshndx⟩
  · intro h
    rw [symbol, symbol, h.name, h.value, h.size, h.info, h.visibility, h.shndx]

end SymbolRecord

/-- Two tables parse to the same symbols exactly when they have as many records and these
agree, one by one, in all that a symbol keeps. -/
theorem SymbolTable.parse_same_iff (strtab : List UInt8) (endian : Endian) (elfClass : ElfClass)
    {records records' : List SymbolRecord}
    (h : ∀ record ∈ records, (symbolCodec endian elfClass).Fits record)
    (h' : ∀ record ∈ records', (symbolCodec endian elfClass).Fits record) :
    parse (records.flatMap (SymbolRecord.encode endian elfClass)) strtab endian elfClass =
        parse (records'.flatMap (SymbolRecord.encode endian elfClass)) strtab endian elfClass ↔
      List.Forall₂ (SymbolRecord.Alike strtab) records records' := by
  rw [parse_encode strtab endian elfClass h, parse_encode strtab endian elfClass h',
    Except.ok.injEq, SymbolTable.mk.injEq, ← List.forall₂_eq_eq_eq, List.forall₂_map_left_iff,
    List.forall₂_map_right_iff]
  simp only [SymbolRecord.symbol_eq_iff]

/-- Two records that differ in the reserved bits of `st_other` give one symbol. -/
theorem reserved_bits_lost :
    SymbolTable.parse ([⟨1, 0x12, 0xff, 5, 0x1000, 8⟩].flatMap
        (SymbolRecord.encode .little .elf64)) [0, 102, 0] .little .elf64 =
      SymbolTable.parse ([⟨1, 0x12, 0x03, 5, 0x1000, 8⟩].flatMap
        (SymbolRecord.encode .little .elf64)) [0, 102, 0] .little .elf64 :=
  (SymbolTable.parse_same_iff _ .little .elf64 (List.forall_mem_singleton.2 nofun)
    (List.forall_mem_singleton.2 nofun)).2
      (.cons ⟨rfl, rfl, rfl, rfl, by decide, rfl⟩ .nil)

end Elfex
