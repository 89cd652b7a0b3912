import Mathlib.Logic.Relation
import Elfex.Format.Fields
import Elfex.File

/-!
# Where parsing faults

What parsing does with a source of which nothing is known. A lenient read adds the bytes it
has counted to its offset and every reported count to them, without a check; `Round` is one
turn of its loop, and `LenientInside` says that the turns it comes to stay inside. The
parsers of both layouts and of the file container fault exactly where a field of a table or
a turn of a lenient read leaves the address space, and otherwise end with a value or an
error.
-/

namespace Elfex

open Foundation

/-! ## Lenient reads -/

/-- One turn of a lenient read at `offset`, from the bytes counted so far and the part of
the buffer still to be filled. -/
def Reader.Round (reader : Reader) (offset : UInt64) (before after : ℕ × List UInt8) : Prop :=
  before.2 ≠ [] ∧ ∃ count : UInt64, count ≠ 0 ∧
    (reader.readAt (offset + UInt64.ofNat before.1) before.2).1 = .ok count ∧
    after = (before.1 + count.toNat,
      (reader.readAt (offset + UInt64.ofNat before.1) before.2).2.drop count.toNat)

/-- The turn at the state adds the offset to what is counted, and the count it is told to
what is counted, without an overflow. -/
def Reader.TurnInside (reader : Reader) (offset : UInt64) (state : ℕ × List UInt8) : Prop :=
  offset.toNat + state.1 < 2 ^ 64 ∧
    ∀ count, (reader.readAt (offset + UInt64.ofNat state.1) state.2).1 = .ok count →
      state.1 + count.toNat < 2 ^ 64

/-- Every turn that the loop comes to from a state on stays inside. -/
def Reader.TurnsInside (reader : Reader) (offset : UInt64) (start : ℕ × List UInt8) : Prop :=
  ∀ state, Relation.ReflTransGen (reader.Round offset) start state → state.2 ≠ [] →
    reader.TurnInside offset state

/-- Every turn of a lenient read into a buffer of `length` zeros stays inside. -/
def Reader.LenientInside (reader : Reader) (offset : UInt64) (length : ℕ) : Prop :=
  reader.TurnsInside offset (0, List.replicate length 0)

theorem Reader.turnsInside_iff (reader : Reader) (offset : UInt64) (start : ℕ × List UInt8) :
    reader.TurnsInside offset start ↔ (start.2 ≠ [] → reader.TurnInside offset start) ∧
      ∀ next, reader.Round offset start next → reader.TurnsInside offset next := by
  constructor
  · intro h
    refine ⟨h start Relation.ReflTransGen.refl, fun next hnext state hstate => ?_⟩
    exact h state (Relation.ReflTransGen.head hnext hstate)
  · rintro ⟨hstart, hnext⟩ state hstate
    rcases Relation.ReflTransGen.cases_head hstate with rfl | ⟨next, hround, hrest⟩
    · exact hstart
    · exact hnext next hround state hrest

theorem Reader.turnsInside_nil (reader : Reader) (offset : UInt64) (filled : ℕ) :
    reader.TurnsInside offset (filled, []) := by
  rw [turnsInside_iff]
  exact ⟨fun h => absurd rfl h, fun next hnext => absurd rfl hnext.1⟩

/-- A turn that fails, or fills nothing, is the last one. -/
theorem Reader.turnsInside_of_last {reader : Reader} {offset : UInt64} {filled : ℕ}
    {rest : List UInt8} (hrest : rest ≠ []) (hfilled : filled < 2 ^ 64)
    (hread : ∀ count, (reader.readAt (offset + UInt64.ofNat filled) rest).1 = .ok count →
      count = 0) :
    reader.TurnsInside offset (filled, rest) ↔ offset.toNat + filled < 2 ^ 64 := by
  rw [turnsInside_iff]
  constructor
  · rintro ⟨hturn, -⟩
    exact (hturn hrest).1
  · refine fun hadd => ⟨fun _ => ⟨hadd, fun count hcount => ?_⟩, ?_⟩
    · rw [hread count hcount, UInt64.toNat_zero]
      exact hfilled
    · rintro next ⟨-, count, hne, hcount, -⟩
      exact absurd (hread count hcount) hne

/-- A turn that fills something is followed by the rest of the loop. -/
theorem Reader.turnsInside_of_count {reader : Reader} {offset : UInt64} {filled : ℕ}
    {rest : List UInt8} {count : UInt64} (hrest : rest ≠ []) (hne : count ≠ 0)
    (hread : (reader.readAt (offset + UInt64.ofNat filled) rest).1 = .ok count) :
    reader.TurnsInside offset (filled, rest) ↔ offset.toNat + filled < 2 ^ 64 ∧
      filled + count.toNat < 2 ^ 64 ∧ reader.TurnsInside offset (filled + count.toNat,
        (reader.readAt (offset + UInt64.ofNat filled) rest).2.drop count.toNat) := by
  rw [turnsInside_iff]
  constructor
  · rintro ⟨hturn, hnext⟩
    exact ⟨(hturn hrest).1, (hturn hrest).2 count hread,
      hnext _ ⟨hrest, count, hne, hread, rfl⟩⟩
  · rintro ⟨hadd, hcount, hnext⟩
    refine ⟨fun _ => ⟨hadd, fun count' hread' => ?_⟩, ?_⟩
    · rw [hread] at hread'
      cases hread'
      exact hcount
    · rintro next ⟨-, count', -, hread', rfl⟩
      rw [hread] at hread'
      cases hread'
      exact hnext

theorem readLenientLoop_settles (reader : Reader) (offset : UInt64)
    {filled rest : List UInt8} (hlen : filled.length + rest.length < 2 ^ 64) :
    (readLenientLoop reader offset filled rest).Settles
      (reader.TurnsInside offset (filled.length, rest)) True := by
  induction hn : rest.length using Nat.strong_induction_on generalizing filled rest with
  | _ n ih =>
      subst hn
      rw [readLenientLoop]
      by_cases hrest : rest = []
      · rw [dif_pos hrest]
        subst hrest
        exact Outcome.Settles.ok filled (reader.turnsInside_nil offset _) trivial
      have hpos := List.length_pos_iff.2 hrest
      rw [dif_neg hrest]
      have hofNat : (UInt64.ofNat filled.length).toNat = filled.length :=
        toNat_ofNat_of_lt (by omega)
      by_cases hadd : offset.toNat + filled.length < 2 ^ 64
      · rw [Outcome.add_of_lt (by rwa [hofNat]), Outcome.ok_bind]
        have hbuf := reader.length_readAt (offset + UInt64.ofNat filled.length) rest
        cases hread : (reader.readAt (offset + UInt64.ofNat filled.length) rest).1 with
        | error e =>
            rw [Reader.turnsInside_of_last hrest (by omega) (by simp [hread])]
            exact Outcome.Settles.ok _ hadd trivial
        | ok count =>
            dsimp only
            by_cases hzero : count = 0
            · rw [dif_pos hzero, Reader.turnsInside_of_last hrest (by omega)
                (by simp [hread, hzero])]
              exact Outcome.Settles.ok _ hadd trivial
            rw [dif_neg hzero, Reader.turnsInside_of_count hrest hzero hread]
            by_cases hcount : filled.length + count.toNat < 2 ^ 64
            · rw [if_neg (by omega), and_iff_right hadd, and_iff_right hcount]
              by_cases hle : rest.length ≤ count.toNat
              · rw [List.drop_eq_nil_of_le (by omega), readLenientLoop, dif_pos rfl]
                exact Outcome.Settles.ok _ (reader.turnsInside_nil offset _) trivial
              -- the count is honest, so what is counted is what is filled
              have hlength : (filled ++ (reader.readAt (offset + UInt64.ofNat filled.length)
                  rest).2.take count.toNat).length = filled.length + count.toNat := by
                rw [List.length_append, List.length_take, hbuf]
                omega
              have hne : count.toNat ≠ 0 := fun h => hzero (UInt64.toNat_inj.1 h)
              rw [← hlength]
              refine ih _ ?_ ?_ rfl
              · rw [List.length_drop, hbuf]
                omega
              · rw [hlength, List.length_drop, hbuf]
                omega
            · rw [if_pos (by omega)]
              exact Outcome.Settles.fault fun h => hcount h.2.1
      · rw [Outcome.add_of_not_lt (by rwa [hofNat])]
        refine Outcome.Settles.fault fun h => hadd ?_
        exact (((reader.turnsInside_iff offset _).1 h).1 hrest).1

theorem readLenient_settles (reader : Reader) (offset : UInt64) {length : ℕ}
    (hlength : length < 2 ^ 64) :
    (readLenient reader offset (List.replicate length 0)).Settles
      (reader.LenientInside offset length) True :=
  readLenientLoop_settles reader offset (by simpa using hlength)

theorem Reader.lenientInside_zero (reader : Reader) (offset : UInt64) :
    reader.LenientInside offset 0 :=
  reader.turnsInside_nil offset 0

/-! ## Section header tables and payloads -/

namespace ElfHeaders

/-- Where the entry of an index of the section header table starts. -/
def sectionPlace (headers : ElfHeaders) (index : ℕ) : UInt64 :=
  saturatingAdd headers.header.shoff (saturatingMul (UInt64.ofNat index)
    (max headers.header.shentsize.toUInt64
      (SectionHeader.entrySize headers.ident.elfClass)))

/-- Every field of the section header table that the parser comes to starts below the end
of the address space. -/
def SectionTableInside (reader : Reader) (headers : ElfHeaders) : Prop :=
  let fields := SectionHeader.fields headers.ident.elfClass
  Reaching (fun index => reader.EntrySupplied (headers.sectionPlace index) fields)
    (fun index => reader.EntryInside (headers.sectionPlace index) fields)
    (List.range headers.header.shnum.toNat)

end ElfHeaders

/-- The size is one that the parser allocates for this source. -/
def Reader.Admits (reader : Reader) (size : UInt64) : Prop :=
  size ≤ min (reader.size.getD maxAlloc) maxAlloc

instance (reader : Reader) (size : UInt64) : Decidable (reader.Admits size) :=
  inferInstanceAs (Decidable (_ ≤ _))

section

variable (reader : Reader) (headers : ElfHeaders)

theorem readSectionHeaders_settles :
    (readSectionHeaders reader headers).Settles (headers.SectionTableInside reader)
      (∀ index ∈ List.range headers.header.shnum.toNat,
        reader.EntrySupplied (headers.sectionPlace index)
          (SectionHeader.fields headers.ident.elfClass)) :=
  Outcome.Settles.mapM _ fun _ _ => SectionHeader.parse_settles reader _ _ _

theorem checkedLen_admits (size : UInt64) :
    (checkedLen size reader.size).Decides (reader.Admits size) size.toNat := by
  unfold checkedLen
  by_cases h : min (reader.size.getD maxAlloc) maxAlloc < size
  · rw [if_pos h]
    exact ⟨fun hadmits => absurd hadmits (UInt64.not_le.2 h), fun _ => Outcome.isErr_fail _⟩
  · rw [if_neg h]
    exact ⟨fun _ => rfl, fun hnot => absurd (UInt64.not_lt.1 h) hnot⟩

/-- What the parser allocates is far below what the language allows. -/
theorem Reader.Admits.le_isizeMax {reader : Reader} {size : UInt64} (h : reader.Admits size) :
    size.toNat ≤ isizeMax := by
  have hmax : maxAlloc.toNat ≤ isizeMax := by decide
  rw [Admits, UInt64.le_iff_toNat_le, toNat_min] at h
  omega

theorem readPayload_settles (offset size : UInt64) :
    (readPayload reader offset size).Settles True
      (reader.Admits size ∧ reader.Supplies offset size.toNat) := by
  rw [readPayload]
  by_cases hadmits : reader.Admits size
  · rw [(checkedLen_admits reader size).ok hadmits, Outcome.ok_bind, Reader.readBytesAt,
      if_neg (Nat.not_lt.2 hadmits.le_isizeMax)]
    exact (Outcome.Settles.of_defined (reader.readExactAt_defined offset _)).congr Iff.rfl
      fun _ => and_iff_right hadmits
  · obtain ⟨e, herr⟩ := (checkedLen_admits reader size).err hadmits
    rw [herr, Outcome.fail_bind]
    exact Outcome.Settles.fail e trivial fun h => hadmits h.1

theorem readPayload_defined (offset size : UInt64) : (readPayload reader offset size).Defined :=
  (readPayload_settles reader offset size).defined.2 trivial

theorem readFileSection_defined (name : String) (header : SectionHeader) :
    (readFileSection reader name header).Defined := by
  rw [readFileSection]
  split
  · exact Outcome.defined_ok _
  · exact (readPayload_defined reader _ _).bind fun _ => Outcome.defined_ok _

theorem sectionNames_defined (raw : List SectionHeader) :
    (sectionNames reader headers raw).Defined := by
  unfold sectionNames
  split
  · exact Outcome.defined_ok _
  · split
    · refine (readPayload_defined reader _ _).attempt.bind fun data => ?_
      cases data with
      | none => exact Outcome.defined_ok _
      | some data => exact Outcome.defined_ok _
    · exact Outcome.defined_ok _

theorem readFileSections_defined_iff :
    (readFileSections reader headers).Defined ↔ (headers.header.shoff ≠ 0 →
      headers.header.shnum ≠ 0 → headers.SectionTableInside reader) := by
  rw [readFileSections]
  by_cases hnone : headers.header.shoff = 0 ∨ headers.header.shnum = 0
  · rw [if_pos hnone]
    exact iff_of_true (Outcome.defined_ok _) fun hoff hnum => absurd hnone (by simp [hoff, hnum])
  · rw [if_neg hnone, Outcome.defined_bind_iff, (readSectionHeaders_settles reader headers).defined]
    have hrest : ∀ raw, Outcome.Defined (sectionNames reader headers raw >>= fun names =>
        raw.zipIdx.mapM fun entry => readFileSection reader (names.getD entry.2 "") entry.1) :=
      fun raw => (sectionNames_defined reader headers raw).bind fun names =>
        Outcome.Defined.mapM _ fun entry => readFileSection_defined reader _ _
    rw [not_or] at hnone
    simp only [hrest, implies_true, and_true, ne_eq, hnone, not_false_eq_true, forall_const]

end

/-! ## File layout -/

/-- The source fills the payload of the segment, if the file layout reads one. -/
def SegmentSupplied (reader : Reader) (header : ProgramHeader) : Prop :=
  header.type = SegmentType.null ∨ header.filesz = 0 ∨
    reader.Admits header.filesz ∧ reader.Supplies header.offset header.filesz.toNat

/-- Every field that the file layout comes to starts below the end of the address space.
It comes to the section header table past the payloads of the segments. -/
structure FileInside (reader : Reader) : Prop where
  programTable : ∀ header, ElfHeaders.fileHeader reader = .ok header →
    ElfHeaders.ProgramTableInside reader header
  sectionTable : ∀ headers, ElfHeaders.readFrom reader = .ok headers →
    (∀ header ∈ headers.programHeaders, SegmentSupplied reader header) →
    headers.header.shoff ≠ 0 → headers.header.shnum ≠ 0 → headers.SectionTableInside reader

theorem readFileSegment_settles (reader : Reader) (header : ProgramHeader) :
    (readFileSegment reader header).Settles True (SegmentSupplied reader header) := by
  rw [readFileSegment]
  by_cases hnone : header.type = SegmentType.null ∨ header.filesz = 0
  · rw [if_pos hnone]
    exact Outcome.Settles.ok _ trivial (or_assoc.1 (Or.inl hnone))
  · rw [if_neg hnone]
    rw [not_or] at hnone
    refine ((readPayload_settles reader header.offset header.filesz).map _).congr Iff.rfl ?_
    simp [SegmentSupplied, hnone]

theorem readFileLayout_defined_iff (reader : Reader) :
    (ElfImage.readFileLayout reader).Defined ↔ FileInside reader := by
  have hsegments : ∀ headers : ElfHeaders,
      (headers.programHeaders.mapM (readFileSegment reader)).Settles True
        (∀ header ∈ headers.programHeaders, SegmentSupplied reader header) := fun headers =>
    (Outcome.Settles.mapM _ fun header _ => readFileSegment_settles reader header).congr
      (iff_of_true trivial (reaching_of_forall fun _ _ => trivial)) fun _ => Iff.rfl
  rw [ElfImage.readFileLayout, Outcome.defined_bind_iff, ElfHeaders.readFrom_defined_iff]
  have hrest : ∀ headers : ElfHeaders, _ := fun headers =>
    ((hsegments headers).bind fun segments _ =>
      (Outcome.Settles.of_defined_iff (readFileSections_defined_iff reader headers)).map
        fun sections => ({
          ident := headers.ident, header := headers.header, segments, sections
          runtimeBase := 0 } : ElfImage)).defined
  constructor
  · rintro ⟨hprogram, h⟩
    exact ⟨hprogram, fun headers hread => ((hrest headers).1 (h headers hread)).2⟩
  · rintro ⟨hprogram, hsection⟩
    exact ⟨hprogram, fun headers hread => (hrest headers).2 ⟨trivial, hsection headers hread⟩⟩

/-! ## Mapped layout -/

/-- The size of the segment is one that the mapped layout accepts. -/
def SegmentAdmitted (reader : Reader) (header : ProgramHeader) : Prop :=
  header.type = SegmentType.null ∨ reader.Admits header.mappedLength

/-- The lenient read of the segment, if the mapped layout makes one, stays inside. -/
def MappedSegmentInside (reader : Reader) (imageBase : UInt64) (header : ProgramHeader) : Prop :=
  header.type ≠ SegmentType.null → reader.Admits header.mappedLength →
    reader.LenientInside (saturatingSub header.vaddr imageBase) header.mappedLength.toNat

/-- The lenient read of the section's bytes, if the mapped layout makes one, stays
inside. -/
def MappedSectionInside (reader : Reader) (imageBase : UInt64) (header : SectionHeader) : Prop :=
  reader.Admits header.size →
    reader.LenientInside (mappedSectionStart header imageBase) header.size.toNat

/-- Every field and every turn of a lenient read that the section loop of the mapped layout
comes to stays inside. -/
structure MappedSectionsInside (reader : Reader) (headers : ElfHeaders) (imageBase : UInt64) :
    Prop where
  table : headers.SectionTableInside reader
  names : ∀ raw, readSectionHeaders reader headers = .ok raw →
    ∀ header ∈ raw[headers.header.shstrndx.toNat]?, header.type = SectionType.strtab →
      MappedSectionInside reader imageBase header
  sections : ∀ raw, readSectionHeaders reader headers = .ok raw →
    ∀ header ∈ raw, header.isNobits = false → MappedSectionInside reader imageBase header

/-- Every field and every turn of a lenient read that the mapped layout comes to stays
inside. It comes to the sections past the segments, whose sizes it must accept. -/
structure MappedInside (reader : Reader) : Prop where
  programTable : ∀ header, ElfHeaders.fileHeader reader = .ok header →
    ElfHeaders.ProgramTableInside reader header
  segments : ∀ headers, ElfHeaders.readFrom reader = .ok headers →
    Reaching (SegmentAdmitted reader)
      (MappedSegmentInside reader (computeImageBase headers.programHeaders)) headers.programHeaders
  sections : ∀ headers, ElfHeaders.readFrom reader = .ok headers →
    (∀ header ∈ headers.programHeaders, SegmentAdmitted reader header) →
    MappedSectionsInside reader headers (computeImageBase headers.programHeaders)

section

variable (reader : Reader) (imageBase : UInt64)

theorem readMappedSegment_settles (header : ProgramHeader) :
    (readMappedSegment reader imageBase header).Settles
      (MappedSegmentInside reader imageBase header) (SegmentAdmitted reader header) := by
  rw [readMappedSegment]
  by_cases hnull : header.type = SegmentType.null
  · rw [if_pos (Or.inl hnull)]
    exact Outcome.Settles.ok _ (fun h => absurd hnull h) (Or.inl hnull)
  by_cases hzero : header.mappedLength = 0
  · rw [if_pos (Or.inr hzero)]
    refine Outcome.Settles.ok _ (fun _ _ => ?_) (Or.inr ?_)
    · rw [hzero]
      exact reader.lenientInside_zero _
    · rw [Reader.Admits, hzero]
      exact UInt64.zero_le
  rw [if_neg (not_or.2 ⟨hnull, hzero⟩)]
  by_cases hadmits : reader.Admits header.mappedLength
  · rw [(checkedLen_admits reader _).ok hadmits, Outcome.ok_bind]
    exact ((readLenient_settles reader _ header.mappedLength.toNat_lt).map _).congr
      (by simp [MappedSegmentInside, hnull, hadmits])
      (fun _ => iff_of_true (Or.inr hadmits) trivial)
  · obtain ⟨e, herr⟩ := (checkedLen_admits reader _).err hadmits
    rw [herr, Outcome.fail_bind]
    exact Outcome.Settles.fail e (fun _ h => absurd h hadmits)
      (not_or.2 ⟨hnull, hadmits⟩)

theorem checkedAlloc_admits (size : UInt64) :
    (checkedAlloc size reader.size).Decides (reader.Admits size)
      (List.replicate size.toNat 0) :=
  (checkedLen_admits reader size).map fun len => List.replicate len 0

theorem readMappedSection_settles (strtab : List UInt8) (header : SectionHeader) :
    (readMappedSection reader imageBase strtab header).Settles
      (header.isNobits = false → MappedSectionInside reader imageBase header) True := by
  rw [readMappedSection]
  cases hnobits : header.isNobits with
  | true =>
      rw [if_pos rfl, (checkedAlloc_admits reader 0).ok UInt64.zero_le, Outcome.attempt_ok,
        Outcome.ok_bind]
      exact ((readLenient_settles reader _ (UInt64.toNat_lt 0)).map _).congr
        (iff_of_true (fun h => absurd h.symm Bool.false_ne_true)
          (reader.lenientInside_zero _)) fun _ => Iff.rfl
  | false =>
      rw [if_neg Bool.false_ne_true]
      rw [(checkedAlloc_admits reader _).attempt, Outcome.ok_bind]
      by_cases hadmits : reader.Admits header.size
      · rw [if_pos hadmits]
        exact ((readLenient_settles reader _ header.size.toNat_lt).map _).congr
          (by simp [MappedSectionInside, hadmits]) fun _ => Iff.rfl
      · rw [if_neg hadmits]
        exact Outcome.Settles.ok _ (fun _ h => absurd h hadmits) trivial

theorem mappedStrtab_settles (headers : ElfHeaders) (raw : List SectionHeader) :
    (mappedStrtab reader headers imageBase raw).Settles
      (∀ header ∈ raw[headers.header.shstrndx.toNat]?, header.type = SectionType.strtab →
        MappedSectionInside reader imageBase header) True := by
  unfold mappedStrtab
  cases raw[headers.header.shstrndx.toNat]? with
  | none => exact Outcome.Settles.ok _ (by simp) trivial
  | some header =>
      dsimp only
      by_cases htype : header.type = SectionType.strtab
      · rw [if_pos htype, (checkedAlloc_admits reader _).attempt, Outcome.ok_bind]
        by_cases hadmits : reader.Admits header.size
        · rw [if_pos hadmits]
          exact (readLenient_settles reader _ header.size.toNat_lt).congr
            (by simp [MappedSectionInside, htype, hadmits]) fun _ => Iff.rfl
        · rw [if_neg hadmits]
          exact Outcome.Settles.ok _ (by simp [MappedSectionInside, hadmits]) trivial
      · rw [if_neg htype]
        exact Outcome.Settles.ok _ (by simp [htype]) trivial

theorem readMappedSections_defined_iff (headers : ElfHeaders) :
    (readMappedSections reader headers imageBase).Defined ↔
      MappedSectionsInside reader headers imageBase := by
  have hloop : ∀ raw : List SectionHeader,
      Outcome.Defined (mappedStrtab reader headers imageBase raw >>= fun strtab =>
        raw.mapM (readMappedSection reader imageBase strtab) >>= fun sections =>
          (.ok sections.reduceOption : Exec (List Section))) ↔
        (∀ header ∈ raw[headers.header.shstrndx.toNat]?, header.type = SectionType.strtab →
          MappedSectionInside reader imageBase header) ∧
        ∀ header ∈ raw, header.isNobits = false →
          MappedSectionInside reader imageBase header := by
    intro raw
    refine (((mappedStrtab_settles reader imageBase headers raw).bind fun strtab _ =>
      (Outcome.Settles.mapM raw fun header _ =>
        readMappedSection_settles reader imageBase strtab header).map
          List.reduceOption).defined).trans (and_congr_right fun _ => ?_)
    rw [forall_const, reaching_true]
  rw [readMappedSections, Outcome.defined_bind_iff,
    (readSectionHeaders_settles reader headers).attempt.defined]
  constructor
  · rintro ⟨htable, h⟩
    have hraw := fun raw hread => (hloop raw).1 (h (some raw) (Outcome.attempt_eq_ok_some.2 hread))
    exact ⟨htable, fun raw hread => (hraw raw hread).1, fun raw hread => (hraw raw hread).2⟩
  · intro h
    refine ⟨h.table, fun found hfound => ?_⟩
    cases found with
    | none => exact Outcome.defined_ok _
    | some raw =>
        rw [Outcome.attempt_eq_ok_some] at hfound
        exact (hloop raw).2 ⟨h.names raw hfound, h.sections raw hfound⟩

theorem readMappedLayout_defined_iff :
    (ElfImage.readMappedLayout reader).Defined ↔ MappedInside reader := by
  rw [ElfImage.readMappedLayout, Outcome.defined_bind_iff, ElfHeaders.readFrom_defined_iff]
  have hrest : ∀ headers : ElfHeaders, _ := fun headers =>
    ((Outcome.Settles.mapM headers.programHeaders fun header _ =>
      readMappedSegment_settles reader (computeImageBase headers.programHeaders) header).bind
        fun segments _ => (Outcome.Settles.of_defined_iff
          (readMappedSections_defined_iff reader
            (computeImageBase headers.programHeaders) headers)).map
          fun sections => ({
            ident := headers.ident, header := headers.header, segments, sections
            runtimeBase := 0 } : ElfImage)).defined
  constructor
  · rintro ⟨hprogram, h⟩
    have hall := fun headers hread => (hrest headers).1 (h headers hread)
    exact ⟨hprogram, fun headers hread => (hall headers hread).1,
      fun headers hread => (hall headers hread).2⟩
  · intro h
    refine ⟨h.programTable, fun headers hread => (hrest headers).2 ?_⟩
    exact ⟨h.segments headers hread, h.sections headers hread⟩

end

/-! ## All three parsers -/

theorem readTrailing_defined (reader : Reader) (fileEnd : UInt64) :
    (ElfFile.readTrailing reader fileEnd).Defined := by
  rw [ElfFile.readTrailing]
  split
  · exact Outcome.defined_ok _
  · exact (reader.readBytesAt_defined _ _).attempt.bind fun _ => Outcome.defined_ok _

theorem readFrom_file_defined_iff (reader : Reader) (base : UInt64) :
    (ElfImage.readFrom reader base .file).Defined ↔ FileInside (offsetReader reader base) := by
  rw [ElfImage.readFrom, ← readFileLayout_defined_iff]
  exact Outcome.defined_map_iff _

theorem readFrom_mapped_defined_iff (reader : Reader) (base : UInt64) :
    (ElfImage.readFrom reader base .mapped).Defined ↔
      MappedInside (offsetReader reader base) := by
  rw [ElfImage.readFrom, ← readMappedLayout_defined_iff]
  exact Outcome.defined_map_iff _

theorem readMappedFrom_defined_iff (reader : Reader) (base loadBase : UInt64) :
    (ElfImage.readMappedFrom reader base loadBase).Defined ↔
      MappedInside (offsetReader reader base) := by
  rw [ElfImage.readMappedFrom, ← readMappedLayout_defined_iff]
  exact Outcome.defined_map_iff _

theorem file_readFrom_defined_iff (reader : Reader) :
    (ElfFile.readFrom reader).Defined ↔ FileInside reader := by
  rw [ElfFile.readFrom, Outcome.defined_bind_iff, readFrom_file_defined_iff, offsetReader_zero]
  exact and_iff_left fun image _ =>
    (readTrailing_defined reader _).bind fun _ => Outcome.defined_ok _

/-- Parsing a source of which nothing is known ends with a value or an error exactly when
the fields and the turns of lenient reads that it comes to stay inside the address space. -/
theorem parsers_defined_iff (reader : Reader) (base loadBase : UInt64) :
    ((ElfImage.readFrom reader base .file).Defined ↔ FileInside (offsetReader reader base)) ∧
    ((ElfImage.readFrom reader base .mapped).Defined ↔
      MappedInside (offsetReader reader base)) ∧
    ((ElfImage.readMappedFrom reader base loadBase).Defined ↔
      MappedInside (offsetReader reader base)) ∧
    ((ElfFile.readFrom reader).Defined ↔ FileInside reader) :=
  ⟨readFrom_file_defined_iff reader base, readFrom_mapped_defined_iff reader base,
    readMappedFrom_defined_iff reader base loadBase, file_readFrom_defined_iff reader⟩

/-- A source that answers at every address, with the bytes of a string and zeros past its
end, and reports a count that depends on the length of the buffer only. -/
def endlessReader (data : List UInt8) (report : ℕ → UInt64) : Reader where
  readAt offset buf :=
    (.ok (report buf.length), (data.drop offset.toNat).takeD buf.length 0)
  size := none
  length_readAt _ _ := List.takeD_length _ _ _

/-- A file header whose program header table starts 48 bytes below the end of the address
space. -/
def highTable : ElfHeader where
  ident := { elfClass := .elf64, data := .little, version := 1, osAbi := 0, abiVersion := 0 }
  type := .dyn
  machine := Machine.x86_64
  version := 1
  entry := 0
  phoff := 0xffffffffffffffd0
  shoff := 0
  flags := 0
  ehsize := 64
  phentsize := 56
  phnum := 1
  shentsize := 64
  shnum := 0
  shstrndx := 0

/-- A loadable segment of 32 bytes at address zero. -/
def lowLoad : ProgramHeader where
  type := SegmentType.load
  flags := SegmentFlags.read
  offset := 0
  vaddr := 0
  paddr := 0
  filesz := 32
  memsz := 32
  align := 1

/-- Reports one byte for a buffer of 32, and all a word can hold for the 31 that are left. -/
def boast (length : ℕ) : UInt64 :=
  if length = 32 then 1 else if length = 31 then wordMax else UInt64.ofNat length

/-- Every parser faults on a source that answers up to the end of the address space, and the
mapped layout also on one that reports more than was asked. -/
theorem endlessReader_faults :
    ¬(ElfImage.readFrom (endlessReader highTable.write UInt64.ofNat) 0 .file).Defined ∧
    ¬(ElfImage.readFrom (endlessReader highTable.write UInt64.ofNat) 0 .mapped).Defined ∧
    ¬(ElfImage.readMappedFrom (endlessReader highTable.write UInt64.ofNat) 0 0).Defined ∧
    ¬(ElfFile.readFrom (endlessReader highTable.write UInt64.ofNat)).Defined ∧
    ¬(ElfImage.readFrom (endlessReader
      ({ highTable with phoff := 64 }.write ++ lowLoad.write .little .elf64) boast)
        0 .mapped).Defined := by
  unfold Outcome.Defined
  decide +kernel

/-! ## Sources that end -/

/-- Nothing the source reports to have read lies at or past `stop`. -/
def Reader.Ends (reader : Reader) (stop : ℕ) : Prop :=
  ∀ offset buf count, (reader.readAt offset buf).1 = .ok count → count ≠ 0 →
    offset.toNat + count.toNat ≤ stop

theorem sliceReader_ends {data : List UInt8} (hdata : data.length < 2 ^ 64) :
    (sliceReader data).Ends data.length := by
  intro offset buf count hread hne
  by_cases hlt : data.length < offset.toNat
  · simp only [sliceReader, if_pos hlt, Except.ok.injEq] at hread
    exact absurd hread.symm hne
  · simp only [sliceReader, if_neg hlt, Except.ok.injEq, List.length_drop] at hread
    rw [← hread, toNat_ofNat_of_lt (by omega)]
    omega

namespace Reader.Ends

variable {reader : Reader} {stop : ℕ}

theorem offset (h : reader.Ends stop) (base : UInt64) : (offsetReader reader base).Ends stop := by
  intro offset buf count hread hne
  cases hadd : checkedAdd base offset with
  | none =>
      simp only [offsetReader, hadd, Except.ok.injEq] at hread
      exact absurd hread.symm hne
  | some shifted =>
      simp only [offsetReader, hadd] at hread
      have := h shifted buf count hread hne
      have := checkedAdd_eq_some.1 hadd
      omega

theorem readExactLoop (h : reader.Ends stop) (offset : UInt64) (expected : ℕ)
    (filled rest : List UInt8) {out : List UInt8} (hrest : rest ≠ [])
    (hlen : filled.length + rest.length = expected) (hexpected : expected < 2 ^ 64)
    (hread : reader.readExactLoop offset expected filled rest = .ok out) :
    offset.toNat + expected ≤ stop := by
  fun_induction Reader.readExactLoop reader offset expected filled rest with
  | case1 filled => exact absurd rfl hrest
  | case2 | case3 | case4 | case5 => cases hread
  | case6 filled rest _ current hadd buf count hcount hzero hle ih =>
      have hend := h current rest count hcount hzero
      have hcurrent := checkedAdd_eq_some.1 hadd
      rw [toNat_ofNat_of_lt (by omega)] at hcurrent
      have hbuf : buf.length = rest.length := reader.length_readAt current rest
      by_cases hlast : rest.length ≤ count.toNat
      · omega
      · refine ih ?_ ?_ hread
        · rw [Ne, List.drop_eq_nil_iff]
          omega
        · rw [List.length_append, List.length_take, List.length_drop]
          omega

/-- What the source supplies lies below its end. -/
theorem of_supplies (h : reader.Ends stop) {address : UInt64} {width : ℕ} (hwidth : 0 < width)
    (hmax : width < 2 ^ 64) (hsupplies : reader.Supplies address width) :
    address.toNat + width ≤ stop := by
  obtain ⟨bytes, hbytes⟩ := hsupplies
  have hend := h.readExactLoop address _ [] (List.replicate width 0)
    (by simpa using hwidth.ne') (by simp) (by simpa using hmax) hbytes
  rwa [List.length_replicate] at hend

/-- In an entry whose fields lie next to each other, a source that ends below the end of
the address space never supplies the field before one that starts past it. -/
theorem entryInside (h : reader.Ends stop) (hstop : stop < 2 ^ 64) {start : UInt64}
    {fields : List (UInt64 × ℕ)} {field : UInt64 × ℕ}
    (hchain : (field :: fields).IsChain fun f g => 0 < f.2 ∧ g.1.toNat = f.1.toNat + f.2)
    (hfield : FieldInside start field) : reader.EntryInside start (field :: fields) := by
  induction fields generalizing field with
  | nil => exact ⟨hfield, fun _ => trivial⟩
  | cons next fields ih =>
      obtain ⟨⟨hwidth, hnext⟩, hchain⟩ := List.isChain_cons_cons.1 hchain
      refine ⟨hfield, fun hsupplied => ih hchain ?_⟩
      have hlt := next.1.toNat_lt
      have hend := h.of_supplies hwidth (by omega) hsupplied
      rw [toNat_add_of_lt hfield] at hend
      rw [FieldInside]
      omega

theorem programEntry (h : reader.Ends stop) (hstop : stop < 2 ^ 64) (start : UInt64)
    (elfClass : ElfClass) : reader.EntryInside start (ProgramHeader.fields elfClass) := by
  cases elfClass with
  | elf32 => exact h.entryInside hstop (by decide) start.toNat_lt
  | elf64 => exact h.entryInside hstop (by decide) start.toNat_lt

theorem sectionEntry (h : reader.Ends stop) (hstop : stop < 2 ^ 64) (start : UInt64)
    (elfClass : ElfClass) : reader.EntryInside start (SectionHeader.fields elfClass) := by
  cases elfClass with
  | elf32 => exact h.entryInside hstop (by decide) start.toNat_lt
  | elf64 => exact h.entryInside hstop (by decide) start.toNat_lt

/-- A lenient read counts nothing past the end of the source. -/
theorem lenientInside (h : reader.Ends stop) (hstop : stop < 2 ^ 64) (offset : UInt64)
    (length : ℕ) : reader.LenientInside offset length := by
  -- where the next turn reads, without a wrap, while what is counted lies in the source
  have hplace : ∀ n : ℕ, n = 0 ∨ offset.toNat + n ≤ stop →
      (offset + UInt64.ofNat n).toNat = offset.toNat + n := by
    intro n hn
    have hoffset := offset.toNat_lt
    have hofNat : (UInt64.ofNat n).toNat = n := toNat_ofNat_of_lt (by omega)
    rw [toNat_add_of_lt (by omega), hofNat]
  have hcounted : ∀ state, Relation.ReflTransGen (reader.Round offset)
      (0, List.replicate length 0) state → state.1 = 0 ∨ offset.toNat + state.1 ≤ stop := by
    intro state hstate
    induction hstate with
    | refl => exact Or.inl rfl
    | tail _ hround ih =>
        obtain ⟨-, count, hne, hread, rfl⟩ := hround
        have hend := h _ _ count hread hne
        rw [hplace _ ih] at hend
        exact Or.inr (by omega)
  intro state hstate _
  have hn := hcounted state hstate
  have hoffset := offset.toNat_lt
  refine ⟨by omega, fun count hread => ?_⟩
  by_cases hzero : count = 0
  · rw [hzero, UInt64.toNat_zero]
    omega
  · have hend := h _ _ count hread hzero
    rw [hplace _ hn] at hend
    omega

theorem fileInside (h : reader.Ends stop) (hstop : stop < 2 ^ 64) : FileInside reader where
  programTable _ _ := reaching_of_forall fun _ _ start _ => h.programEntry hstop start _
  sectionTable _ _ _ _ _ := reaching_of_forall fun _ _ => h.sectionEntry hstop _ _

theorem mappedInside (h : reader.Ends stop) (hstop : stop < 2 ^ 64) : MappedInside reader where
  programTable _ _ := reaching_of_forall fun _ _ start _ => h.programEntry hstop start _
  segments _ _ := reaching_of_forall fun _ _ _ _ => h.lenientInside hstop _ _
  sections _ _ _ := {
    table := reaching_of_forall fun _ _ => h.sectionEntry hstop _ _
    names := fun _ _ _ _ _ _ => h.lenientInside hstop _ _
    sections := fun _ _ _ _ _ _ => h.lenientInside hstop _ _ }

end Reader.Ends

/-- A source that ends below the end of the address space is parsed without a fault,
whatever else it does. -/
theorem parsers_defined_of_ends {reader : Reader} {stop : ℕ} (h : reader.Ends stop)
    (hstop : stop < 2 ^ 64) (base loadBase : UInt64) (layout : Layout) :
    (ElfImage.readFrom reader base layout).Defined ∧
    (ElfImage.readMappedFrom reader base loadBase).Defined ∧
    (ElfFile.readFrom reader).Defined := by
  have hshift := h.offset base
  refine ⟨?_, (readMappedFrom_defined_iff reader base loadBase).2 (hshift.mappedInside hstop),
    (file_readFrom_defined_iff reader).2 (h.fileInside hstop)⟩
  cases layout with
  | file => exact (readFrom_file_defined_iff reader base).2 (hshift.fileInside hstop)
  | mapped => exact (readFrom_mapped_defined_iff reader base).2 (hshift.mappedInside hstop)

/-- Parsing a byte string never faults. -/
theorem slice_parsers_defined {data : List UInt8} (hdata : data.length < 2 ^ 64)
    (base loadBase : UInt64) (layout : Layout) :
    (ElfImage.readFrom (sliceReader data) base layout).Defined ∧
    (ElfImage.readMappedFrom (sliceReader data) base loadBase).Defined ∧
    (ElfFile.readFrom (sliceReader data)).Defined :=
  parsers_defined_of_ends (sliceReader_ends hdata) hdata base loadBase layout

end Elfex
