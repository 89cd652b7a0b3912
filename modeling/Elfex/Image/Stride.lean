import Elfex.Format.HeaderCodec
import Elfex.Image.Regular

/-!
# The stride of the program header table

A file header announces how far apart the entries of the program header table are. The
walk of the section header table goes by the announced distance, the walk of the program
header table by the entry size of the class. The two distances differ only for a file that
announces larger entries, and there only from the second entry on.
-/

namespace Elfex

open Foundation

/-- Where the file header announces the `i`-th program header. -/
def declaredStart (data : List UInt8) (i : ℕ) : ℕ :=
  (headerOf data).phoff.toNat + i * (headerOf data).phentsize.toNat

def declaredHeaderAt (data : List UInt8) (i : ℕ) : ProgramHeader :=
  ProgramHeader.decode (identOf data).data (identOf data).elfClass
    (window data (declaredStart data i) (ProgramHeader.size (identOf data).elfClass).toNat)

/-- The program header table as the file header announces it. -/
def declaredHeadersOf (data : List UInt8) : List ProgramHeader :=
  (List.range (headerOf data).phnum.toNat).map (declaredHeaderAt data)

/-- A valid file header announces a program header table in bounds whose entries are at
least as large as the class's. -/
structure DeclaresTable (data : List UInt8) : Prop where
  magic : data.take 4 = elfMagic
  classByte : data.getD 4 0 = 1 ∨ data.getD 4 0 = 2
  dataByte : data.getD 5 0 = 1 ∨ data.getD 5 0 = 2
  header : (ElfHeader.size (identOf data).elfClass).toNat ≤ data.length
  entrySize : (ProgramHeader.size (identOf data).elfClass).toNat ≤
    (headerOf data).phentsize.toNat
  table : ∀ i < (headerOf data).phnum.toNat,
    declaredStart data i + (headerOf data).phentsize.toNat ≤ data.length

/-- The bytes the walk reads for the `i`-th program header are the announced ones. -/
def StrideAgrees (data : List UInt8) (i : ℕ) : Prop :=
  window data (programHeaderStart data i) (ProgramHeader.size (identOf data).elfClass).toNat =
    window data (declaredStart data i) (ProgramHeader.size (identOf data).elfClass).toNat

instance (data : List UInt8) (i : ℕ) : Decidable (StrideAgrees data i) :=
  inferInstanceAs (Decidable (_ = _))

/-- The headers of the file, and those of the image parsed from it, are the announced
ones. -/
def WalksDeclaredStride (data : List UInt8) : Prop :=
  (∃ headers, ElfHeaders.fromSlice data = .ok headers ∧
      headers.programHeaders = declaredHeadersOf data) ∧
    ∀ image, ElfImage.parse data = .ok image →
      image.segments.map Segment.header = declaredHeadersOf data

variable {data : List UInt8}

/-- The walk goes no further than the announced entries. -/
theorem DeclaresTable.programHeaderStart_le (h : DeclaresTable data) (i : ℕ) :
    programHeaderStart data i ≤ declaredStart data i :=
  Nat.add_le_add_left (Nat.mul_le_mul_left i h.entrySize) _

theorem DeclaresTable.headersInside (h : DeclaresTable data) : HeadersInside data where
  magic := h.magic
  classByte := h.classByte
  dataByte := h.dataByte
  header := h.header
  programHeaders i hi :=
    (Nat.add_le_add (h.programHeaderStart_le i) h.entrySize).trans (h.table i hi)

/-- Entries of the class's own size, and the first entry in any case, are read where they
are announced. -/
theorem strideAgrees_of_standard {i : ℕ}
    (h : i = 0 ∨ (headerOf data).phentsize.toNat =
      (ProgramHeader.size (identOf data).elfClass).toNat) : StrideAgrees data i := by
  rw [StrideAgrees, programHeaderStart, declaredStart]
  rcases h with rfl | hsize
  · rw [Nat.zero_mul, Nat.zero_mul]
  · rw [hsize]

/-- The decoded header is the announced one exactly when the bytes are. -/
theorem DeclaresTable.programHeaderAt_eq_iff (h : DeclaresTable data) {i : ℕ}
    (hi : i < (headerOf data).phnum.toNat) :
    programHeaderAt data i = declaredHeaderAt data i ↔ StrideAgrees data i := by
  have hinj := (programHeaderCodec (identOf data).data (identOf data).elfClass).decode_inj
    (length_window_of_le (h.headersInside.programHeaders i hi))
    (length_window_of_le ((Nat.add_le_add_left h.entrySize _).trans (h.table i hi)))
  exact ⟨fun heq => hinj.1 (congrArg Except.ok heq), fun heq => Except.ok.inj (hinj.2 heq)⟩

theorem DeclaresTable.programHeadersOf_eq_iff (h : DeclaresTable data) :
    programHeadersOf data = declaredHeadersOf data ↔
      (headerOf data).phentsize.toNat = (ProgramHeader.size (identOf data).elfClass).toNat ∨
        ∀ i, 0 < i → i < (headerOf data).phnum.toNat → StrideAgrees data i := by
  have hall : programHeadersOf data = declaredHeadersOf data ↔
      ∀ i < (headerOf data).phnum.toNat, StrideAgrees data i := by
    rw [programHeadersOf, declaredHeadersOf, List.map_inj_left]
    refine forall_congr' fun i => ?_
    rw [List.mem_range]
    exact forall_congr' fun hi => h.programHeaderAt_eq_iff hi
  rw [hall]
  constructor
  · exact fun hagree => Or.inr fun i _ hi => hagree i hi
  · rintro (hsize | hagree) i hi
    · exact strideAgrees_of_standard (Or.inr hsize)
    · rcases Nat.eq_zero_or_pos i with hzero | hpos
      · exact strideAgrees_of_standard (Or.inl hzero)
      · exact hagree i hpos hi

/-- The segments of a parsed image carry the walked headers. -/
theorem segments_header_imageOf (data : List UInt8) :
    (imageOf data).segments.map Segment.header = programHeadersOf data := by
  rw [imageOf, List.map_map]
  exact List.map_id _

/-- The program headers are walked at the announced stride exactly when that is the
class's own, or every entry after the first holds the announced bytes where the class's
own stride finds it. -/
theorem walksDeclaredStride_iff (hdata : data.length ≤ isizeMax) (h : DeclaresTable data) :
    WalksDeclaredStride data ↔
      (headerOf data).phentsize.toNat = (ProgramHeader.size (identOf data).elfClass).toNat ∨
        ∀ i, 0 < i → i < (headerOf data).phnum.toNat → StrideAgrees data i := by
  have hserves := sliceReader_serves (hdata.trans_lt (by decide))
  have hread : ElfHeaders.fromSlice data = .ok (headersOf data) :=
    (ElfHeaders.readFrom_decides hserves).ok h.headersInside
  rw [← h.programHeadersOf_eq_iff]
  constructor
  · rintro ⟨⟨headers, hheaders, hdeclared⟩, -⟩
    obtain rfl := Except.ok.inj (hread.symm.trans hheaders)
    exact hdeclared
  · intro hsame
    refine ⟨⟨headersOf data, hread, hsame⟩, fun image himage => ?_⟩
    obtain ⟨-, rfl⟩ := (parse_eq_ok hdata).1 himage
    rw [segments_header_imageOf, hsame]

instance (data : List UInt8) : Decidable (DeclaresTable data) :=
  decidable_of_iff (data.take 4 = elfMagic ∧ (data.getD 4 0 = 1 ∨ data.getD 4 0 = 2) ∧
      (data.getD 5 0 = 1 ∨ data.getD 5 0 = 2) ∧
      (ElfHeader.size (identOf data).elfClass).toNat ≤ data.length ∧
      (ProgramHeader.size (identOf data).elfClass).toNat ≤ (headerOf data).phentsize.toNat ∧
      ∀ i < (headerOf data).phnum.toNat,
        declaredStart data i + (headerOf data).phentsize.toNat ≤ data.length)
    ⟨fun ⟨hmagic, hclass, hbyte, hheader, hsize, htable⟩ =>
        ⟨hmagic, hclass, hbyte, hheader, hsize, htable⟩,
      fun h => ⟨h.magic, h.classByte, h.dataByte, h.header, h.entrySize, h.table⟩⟩

/-- Two loads in a table whose entries are padded with `gap` zero bytes. -/
def paddedTableFile (gap : ℕ) : List UInt8 :=
  { smallHeader with
    phentsize := UInt16.ofNat (56 + gap), phnum := 2, shoff := 0, shnum := 0
    shstrndx := 0 }.write ++
    ({ smallLoad with filesz := 0, memsz := 16 }.write .little .elf64 ++ List.replicate gap 0) ++
    ({ smallLoad with vaddr := 0x3000, filesz := 0, memsz := 16 }.write .little .elf64 ++
      List.replicate gap 0)

/-- Two loads in a table of larger entries, the first padded with a copy of the second. -/
def repeatedTableFile : List UInt8 :=
  { smallHeader with
    phentsize := 112, phnum := 2, shoff := 0, shnum := 0, shstrndx := 0 }.write ++
    ({ smallLoad with filesz := 0, memsz := 16 }.write .little .elf64 ++
      { smallLoad with vaddr := 0x3000, filesz := 0, memsz := 16 }.write .little .elf64) ++
    ({ smallLoad with vaddr := 0x3000, filesz := 0, memsz := 16 }.write .little .elf64 ++
      List.replicate 56 0)

/-- Entries of the class's own size are walked as announced, and larger ones whose
padding holds the next entry. -/
theorem paddedTableFile_walked :
    WalksDeclaredStride (paddedTableFile 0) ∧
      (headerOf repeatedTableFile).phentsize = 112 ∧
      (declaredHeadersOf repeatedTableFile).map ProgramHeader.vaddr = [0x1000, 0x3000] ∧
      WalksDeclaredStride repeatedTableFile := by
  have hagree : ∀ i < (headerOf repeatedTableFile).phnum.toNat,
      StrideAgrees repeatedTableFile i := by decide +kernel
  refine ⟨?_, by decide +kernel, by decide +kernel, ?_⟩
  · exact (walksDeclaredStride_iff (by decide +kernel) (by decide +kernel)).2
      (Or.inl (by decide +kernel))
  · exact (walksDeclaredStride_iff (by decide +kernel) (by decide +kernel)).2
      (Or.inr fun i _ hi => hagree i hi)

/-- The second entry of a padded table is read from the padding of the first on. -/
theorem paddedTableFile_shifted : DeclaresTable (paddedTableFile 8) ∧
    (ElfImage.parse (paddedTableFile 8) >>= fun image =>
        .ok (image.segments.map fun segment => segment.header.type)) =
      .ok [SegmentType.load, SegmentType.null] ∧
    (declaredHeadersOf (paddedTableFile 8)).map ProgramHeader.type =
      [SegmentType.load, SegmentType.load] ∧
    ¬WalksDeclaredStride (paddedTableFile 8) := by
  have htypes : (programHeadersOf (paddedTableFile 8)).map ProgramHeader.type =
        [SegmentType.load, SegmentType.null] ∧
      (declaredHeadersOf (paddedTableFile 8)).map ProgramHeader.type =
        [SegmentType.load, SegmentType.load] := by decide +kernel
  refine ⟨by decide +kernel, by decide +kernel, htypes.2, ?_⟩
  rintro ⟨-, hparse⟩
  obtain ⟨image, himage⟩ := Outcome.exists_of_isOk
    (show (ElfImage.parse (paddedTableFile 8)).isOk = true by decide +kernel)
  have hsame := hparse image himage
  obtain ⟨-, rfl⟩ := (parse_eq_ok (by decide +kernel)).1 himage
  rw [segments_header_imageOf] at hsame
  have hlists := congrArg (List.map ProgramHeader.type) hsame
  rw [htypes.1, htypes.2] at hlists
  exact absurd hlists (by decide)

end Elfex
