import Elfex.Trailing

/-!
# What the parser depends on

The parser reads a finite number of ranges, and which ones is decided by the bytes in them.
Two strings that agree there are parsed to the same image, whatever surrounds the ranges;
so an accepted file can be cut anywhere behind its consumed end, and nowhere before it.
-/

namespace Elfex

open Foundation

/-- The ranges the parser reads, each as an offset and a length. -/
def consumedSpans (data : List UInt8) : List (ℕ × ℕ) :=
  (0, (ElfHeader.size (identOf data).elfClass).toNat) ::
    ((List.range (headerOf data).phnum.toNat).map fun i =>
      (programHeaderStart data i, (ProgramHeader.size (identOf data).elfClass).toNat)) ++
    (((programHeadersOf data).filter fun header =>
      header.type ≠ SegmentType.null ∧ 0 < header.filesz).map fun header =>
        (header.offset.toNat, header.filesz.toNat)) ++
    (if HasSectionTable data then
      (List.range (headerOf data).shnum.toNat).map fun i =>
        (sectionHeaderStart data i, (SectionHeader.entrySize (identOf data).elfClass).toNat)
    else []) ++
    ((sectionHeadersOf data).filter fun header =>
      header.isNobits = false ∧ 0 < header.size).map fun header =>
        (header.offset.toNat, header.size.toNat)

/-- The second string holds what the parser reads of the first one. -/
def HoldsConsumed (data data' : List UInt8) : Prop :=
  ∀ span ∈ consumedSpans data, window data' span.1 span.2 = window data span.1 span.2

instance (data data' : List UInt8) : Decidable (HoldsConsumed data data') :=
  inferInstanceAs (Decidable (∀ span ∈ consumedSpans data, _))

section Holds

variable {data data' : List UInt8}

/-- What is read for each structure of the file is held. -/
structure StructuresHeld (data data' : List UInt8) : Prop where
  header : window data' 0 (ElfHeader.size (identOf data).elfClass).toNat =
    window data 0 (ElfHeader.size (identOf data).elfClass).toNat
  programHeaders : ∀ i < (headerOf data).phnum.toNat,
    window data' (programHeaderStart data i)
        (ProgramHeader.size (identOf data).elfClass).toNat =
      window data (programHeaderStart data i)
        (ProgramHeader.size (identOf data).elfClass).toNat
  segments : ∀ header ∈ programHeadersOf data, header.type ≠ SegmentType.null →
    window data' header.offset.toNat header.filesz.toNat =
      window data header.offset.toNat header.filesz.toNat
  sectionHeaders : HasSectionTable data → ∀ i < (headerOf data).shnum.toNat,
    window data' (sectionHeaderStart data i)
        (SectionHeader.entrySize (identOf data).elfClass).toNat =
      window data (sectionHeaderStart data i)
        (SectionHeader.entrySize (identOf data).elfClass).toNat
  sections : ∀ header ∈ sectionHeadersOf data, header.type ≠ SectionType.nobits →
    window data' header.offset.toNat header.size.toNat =
      window data header.offset.toNat header.size.toNat

theorem HoldsConsumed.structures (h : HoldsConsumed data data') :
    StructuresHeld data data' := by
  rw [HoldsConsumed, consumedSpans] at h
  simp only [List.forall_mem_cons, List.forall_mem_append, List.forall_mem_map, List.mem_range,
    List.mem_filter, decide_eq_true_eq, and_imp] at h
  obtain ⟨⟨⟨⟨hheader, hprograms⟩, hsegments⟩, htable⟩, hsections⟩ := h
  refine ⟨hheader, hprograms, fun header hmem hnull => ?_, fun hhas i hi => ?_,
    fun header hmem hnobits => ?_⟩
  · by_cases hsize : header.filesz.toNat = 0
    · rw [hsize, window_zero_right, window_zero_right]
    · exact hsegments header hmem hnull (UInt64.lt_iff_toNat_lt.2 (Nat.pos_of_ne_zero hsize))
  · rw [if_pos hhas] at htable
    exact htable _ (List.mem_map.2 ⟨i, List.mem_range.2 hi, rfl⟩)
  · by_cases hsize : header.size.toNat = 0
    · rw [hsize, window_zero_right, window_zero_right]
    · exact hsections header hmem (by simpa [SectionHeader.isNobits] using hnobits)
        (UInt64.lt_iff_toNat_lt.2 (Nat.pos_of_ne_zero hsize))

namespace StructuresHeld

variable (h : StructuresHeld data data')

include h

/-- The sixteen bytes of the identification. -/
theorem window_ident : window data' 0 16 = window data 0 16 := by
  have hsize := sixteen_le_size (identOf data).elfClass
  have hwindow := congrArg (fun bytes => window bytes 0 16) h.header
  simpa only [window_window _ (show 0 + 16 ≤ _ by omega), Nat.add_zero] using hwindow

theorem identOf_eq : identOf data' = identOf data := by
  rw [← (identOf_window data').1, window_ident h, (identOf_window data).1]

theorem headerOf_eq : headerOf data' = headerOf data := by
  rw [headerOf, headerOf, identOf_eq h, h.header]

theorem programHeadersOf_eq : programHeadersOf data' = programHeadersOf data := by
  rw [programHeadersOf, headerOf_eq h]
  refine List.map_congr_left fun i hi => ?_
  have hstart : programHeaderStart data' i = programHeaderStart data i := by
    rw [programHeaderStart, identOf_eq h, headerOf_eq h, programHeaderStart]
  rw [programHeaderAt, hstart, identOf_eq h,
    h.programHeaders i (List.mem_range.1 hi), programHeaderAt]

theorem sectionHeadersOf_eq : sectionHeadersOf data' = sectionHeadersOf data := by
  unfold sectionHeadersOf
  rw [headerOf_eq h]
  split
  · rfl
  · rename_i htable
    refine List.map_congr_left fun i hi => ?_
    have hstart : sectionHeaderStart data' i = sectionHeaderStart data i := by
      rw [sectionHeaderStart, identOf_eq h, headerOf_eq h,
        sectionHeaderStart]
    rw [sectionHeaderAt, hstart, identOf_eq h,
      h.sectionHeaders (not_or.1 htable) i (List.mem_range.1 hi), sectionHeaderAt]

theorem segmentOf_eq {header : ProgramHeader} (hmem : header ∈ programHeadersOf data) :
    segmentOf data' header = segmentOf data header := by
  unfold segmentOf
  split
  · rfl
  · rename_i hnull
    rw [h.segments header hmem hnull]

theorem shstrtabOf_eq : shstrtabOf data' = shstrtabOf data := by
  unfold shstrtabOf
  rw [headerOf_eq h, sectionHeadersOf_eq h]
  cases hindex : (sectionHeadersOf data)[(headerOf data).shstrndx.toNat]? with
  | none => rfl
  | some table =>
      by_cases htype : table.type = SectionType.strtab
      · have hnobits : table.type ≠ SectionType.nobits := by
          rw [htype]
          decide
        simp only [if_pos htype, h.sections table (List.mem_of_getElem? hindex) hnobits]
      · simp only [if_neg htype]

theorem sectionOf_eq {header : SectionHeader} (hmem : header ∈ sectionHeadersOf data) :
    sectionOf data' header = sectionOf data header := by
  unfold sectionOf
  rw [shstrtabOf_eq h]
  split
  · rfl
  · rename_i hnobits
    rw [h.sections header hmem hnobits]

theorem imageOf_eq : imageOf data' = imageOf data := by
  unfold imageOf
  rw [identOf_eq h, headerOf_eq h, programHeadersOf_eq h,
    sectionHeadersOf_eq h,
    List.map_congr_left fun header hmem => segmentOf_eq h hmem,
    List.map_congr_left fun header hmem => sectionOf_eq h hmem]

/-- A string that holds what is read of an accepted file is accepted. -/
theorem grammar (hgrammar : FileGrammar data) : FileGrammar data' := by
  have hident := identOf_eq h
  have hheader := headerOf_eq h
  have hinside : ∀ {o n : ℕ}, window data' o n = window data o n → o + n ≤ data.length →
      0 < n → o + n ≤ data'.length := by
    intro o n hwindow hle hpos
    have hlength := congrArg List.length hwindow
    rw [length_window_of_le hle, length_window] at hlength
    omega
  have hstart : ∀ (d : List UInt8), d.take 4 = (window d 0 16).take 4 := fun d =>
    (identOf_window d).2.1.symm
  have hbytes : ∀ k < 16, data'.getD k 0 = data.getD k 0 := by
    intro k hk
    have hbyte := congrArg (·[k]?) (window_ident h)
    simp only [getElem?_window, if_pos hk, Nat.zero_add] at hbyte
    rw [List.getD_eq_getElem?_getD, List.getD_eq_getElem?_getD, hbyte]
  refine ⟨?_, ?_, ?_, ?_, ?_, ?_, ?_, ?_⟩
  · rw [hstart, window_ident h, ← hstart]
    exact hgrammar.magic
  · rw [hbytes 4 (by omega)]
    exact hgrammar.classByte
  · rw [hbytes 5 (by omega)]
    exact hgrammar.dataByte
  · have hsize := sixteen_le_size (identOf data).elfClass
    have hle := hinside h.header (by simpa using hgrammar.header) (by omega)
    rw [hident]
    simpa using hle
  · rw [hheader, hident]
    intro i hi
    rw [programHeaderStart, hheader, hident]
    refine hinside (h.programHeaders i hi) (hgrammar.programHeaders i hi) ?_
    cases (identOf data).elfClass <;> decide
  · rw [programHeadersOf_eq h]
    intro header hmem hnull hpos
    obtain ⟨hlimit, hin⟩ := hgrammar.segments header hmem hnull hpos
    exact ⟨hlimit, hinside (h.segments header hmem hnull) hin hpos⟩
  · rw [hheader, hident]
    intro hoff hnum i hi
    rw [sectionHeaderStart, hheader, hident]
    refine hinside (h.sectionHeaders ⟨hoff, hnum⟩ i hi) (hgrammar.sectionHeaders hoff hnum i hi) ?_
    cases (identOf data).elfClass <;> decide
  · rw [sectionHeadersOf_eq h]
    intro header hmem hnobits hpos
    obtain ⟨hlimit, hin⟩ := hgrammar.sections header hmem hnobits hpos
    exact ⟨hlimit, hinside (h.sections header hmem hnobits) hin hpos⟩

end StructuresHeld

end Holds

/-- Parsing depends on the ranges it reads only. -/
theorem parse_of_holdsConsumed {data data' : List UInt8} (hdata : data.length ≤ isizeMax)
    (hdata' : data'.length ≤ isizeMax) {image : ElfImage}
    (hparse : ElfImage.parse data = .ok image) (hholds : HoldsConsumed data data') :
    ElfImage.parse data' = .ok image := by
  obtain ⟨hgrammar, hdescribed⟩ := (parse_eq_ok hdata).1 hparse
  have hstructures := hholds.structures
  exact (parse_eq_ok hdata').2
    ⟨hstructures.grammar hgrammar, hstructures.imageOf_eq.trans hdescribed⟩

/-- A byte of the padding between two section headers is not read. -/
theorem stridedFile_padding :
    ElfImage.parse (stridedFile.set 210 9) = .ok (imageOf stridedFile) ∧
      stridedFile.set 210 9 ≠ stridedFile :=
  ⟨parse_of_holdsConsumed (by decide +kernel) (by decide +kernel)
    (parse_imageOf (by decide +kernel) (by decide +kernel)) (by decide +kernel),
    by decide +kernel⟩

/-! ## Cutting a file -/

section Cut

variable {data : List UInt8}

/-- Every range the parser reads ends by the consumed end. -/
theorem stop_le_consumedEnd {span : ℕ × ℕ} (hspan : span ∈ consumedSpans data) :
    span.1 + span.2 ≤ consumedEnd data := by
  obtain ⟨hothers, hentries⟩ := (consumedEnd_le_iff data _).1 le_rfl
  simp only [consumedSpans, List.mem_cons, List.mem_append, List.mem_map] at hspan
  rcases hspan with (((rfl | ⟨i, hi, rfl⟩) | ⟨header, hmem, rfl⟩) | hspan) | ⟨header, hmem, rfl⟩
  · exact hothers _ (by simp [otherEnds])
  · exact hothers _ (by
      simp only [otherEnds, List.mem_cons, List.mem_append, List.mem_map]
      exact Or.inl (Or.inl (Or.inr ⟨i, hi, rfl⟩)))
  · exact hothers _ (by
      simp only [otherEnds, List.mem_cons, List.mem_append, List.mem_map]
      exact Or.inl (Or.inr ⟨header, hmem, rfl⟩))
  · split at hspan
    · rename_i htable
      obtain ⟨i, hi, rfl⟩ := List.mem_map.1 hspan
      refine hentries _ ?_
      rw [sectionEntryEnds, if_pos htable]
      exact List.mem_map.2 ⟨i, hi, rfl⟩
    · exact absurd hspan List.not_mem_nil
  · exact hothers _ (by
      simp only [otherEnds, List.mem_cons, List.mem_append, List.mem_map]
      exact Or.inr ⟨header, hmem, rfl⟩)

/-- The consumed end is decided by what is read. -/
theorem StructuresHeld.consumedEnd_eq {data' : List UInt8} (h : StructuresHeld data data') :
    consumedEnd data' = consumedEnd data := by
  have hothers : otherEnds data' = otherEnds data := by
    simp only [otherEnds, programHeaderStart, h.identOf_eq, h.headerOf_eq,
      h.programHeadersOf_eq, h.sectionHeadersOf_eq]
  have htable : HasSectionTable data' ↔ HasSectionTable data := by
    rw [HasSectionTable, HasSectionTable, h.headerOf_eq]
  have hentries : sectionEntryEnds data' = sectionEntryEnds data := by
    rw [sectionEntryEnds, sectionEntryEnds]
    refine if_congr htable ?_ rfl
    simp only [sectionHeaderStart, h.identOf_eq, h.headerOf_eq]
  rw [consumedEnd, consumedEnd, hothers, hentries]

/-- A string with the same bytes up to the consumed end holds what is read. -/
theorem holdsConsumed_of_agree {data' : List UInt8} {n : ℕ} (hn : consumedEnd data ≤ n)
    (hagree : ∀ i < n, data'[i]? = data[i]?) : HoldsConsumed data data' := by
  intro span hspan
  have hstop := (stop_le_consumedEnd hspan).trans hn
  apply List.ext_getElem?
  intro i
  rw [getElem?_window, getElem?_window]
  split
  · exact hagree _ (by omega)
  · rfl

/-- A cut file is accepted exactly when the cut is behind the consumed end. -/
theorem grammar_take_iff (h : FileGrammar data) (n : ℕ) :
    FileGrammar (data.take n) ↔ consumedEnd data ≤ n := by
  constructor
  · intro hcut
    have hlength := consumedEnd_le_length hcut
    have hholds : HoldsConsumed (data.take n) data := by
      refine holdsConsumed_of_agree hlength fun i hi => ?_
      rw [List.length_take] at hi
      exact (List.getElem?_take_of_lt (by omega)).symm
    rw [hholds.structures.consumedEnd_eq]
    rw [List.length_take] at hlength
    omega
  · intro hn
    exact (holdsConsumed_of_agree hn fun i hi =>
      List.getElem?_take_of_lt hi).structures.grammar h

/-- An accepted file can be cut behind its consumed end and nowhere before it. -/
theorem parse_take_iff (hdata : data.length ≤ isizeMax) {image : ElfImage}
    (hparse : ElfImage.parse data = .ok image) (n : ℕ) :
    (ElfImage.parse (data.take n) = .ok image ↔ consumedEnd data ≤ n) ∧
      (n < consumedEnd data → (ElfImage.parse (data.take n)).IsErr) := by
  have hlength : (data.take n).length ≤ isizeMax := (List.length_take_le' n data).trans hdata
  have hgrammar := ((parse_eq_ok hdata).1 hparse).1
  refine ⟨⟨fun hcut => ?_, fun hn => ?_⟩, fun hn => ?_⟩
  · exact (grammar_take_iff hgrammar n).1 ((parse_eq_ok hlength).1 hcut).1
  · have hstructures := (holdsConsumed_of_agree hn fun i hi =>
      List.getElem?_take_of_lt (l := data) hi).structures
    exact (parse_eq_ok hlength).2 ⟨hstructures.grammar hgrammar,
      hstructures.imageOf_eq.trans ((parse_eq_ok hdata).1 hparse).2⟩
  · refine (parse_decides hlength).err fun hcut => ?_
    exact absurd ((grammar_take_iff hgrammar n).1 hcut) (Nat.not_le_of_lt hn)

/-- The executable ends with the last byte that is read. -/
theorem smallFile_take :
    consumedEnd smallFile = smallFile.length ∧ ∀ n < smallFile.length,
      (ElfImage.parse (smallFile.take n)).IsErr := by
  have hend : consumedEnd smallFile = smallFile.length := by decide +kernel
  obtain ⟨image, himage⟩ := Outcome.exists_of_isOk smallFile_parses
  exact ⟨hend, fun n hn => (parse_take_iff smallFile_length himage n).2 (hend ▸ hn)⟩

end Cut

end Elfex
