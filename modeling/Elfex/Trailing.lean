import Elfex.File

/-!
# What the trailing bytes are

The bytes the parser consumes end at `consumedEnd`; the trailing bytes start at the
end `lastStructureEnd` computes. The two walks differ in which headers they count
and in the stride of the section header table, and `EndsAgree` is exactly when the
difference does not show.
-/

namespace Elfex

open Foundation

def HasSectionTable (data : List UInt8) : Prop :=
  (headerOf data).shoff ≠ 0 ∧ (headerOf data).shnum ≠ 0

instance (data : List UInt8) : Decidable (HasSectionTable data) :=
  inferInstanceAs (Decidable (_ ∧ _))

/-- The ends of the section header entries, at the stride the parser walks. -/
def sectionEntryEnds (data : List UInt8) : List ℕ :=
  if HasSectionTable data then
    (List.range (headerOf data).shnum.toNat).map fun i =>
      sectionHeaderStart data i + (SectionHeader.entrySize (identOf data).elfClass).toNat
  else []

/-- The ends of everything else the parser consumes: the file header, the program header
entries, the payloads of the segments that are not `PT_NULL` and of the sections that are
not `NOBITS`. -/
def otherEnds (data : List UInt8) : List ℕ :=
  (ElfHeader.size (identOf data).elfClass).toNat ::
    ((List.range (headerOf data).phnum.toNat).map fun i =>
      programHeaderStart data i + (ProgramHeader.size (identOf data).elfClass).toNat) ++
    ((programHeadersOf data).filter fun header =>
      header.type ≠ SegmentType.null ∧ 0 < header.filesz).map
        (fun header => header.offset.toNat + header.filesz.toNat) ++
    ((sectionHeadersOf data).filter fun header =>
      header.isNobits = false ∧ 0 < header.size).map
        fun header => header.offset.toNat + header.size.toNat

/-- One past the last byte the parser consumes. -/
def consumedEnd (data : List UInt8) : ℕ :=
  (otherEnds data ++ sectionEntryEnds data).foldl max 0

/-- The ends that are counted although the parser consumes nothing there: the offset of
an empty program header table, the extents of `PT_NULL` entries, and the extent of a
section header table that is not read. -/
def strayEnds (data : List UInt8) : List ℕ :=
  (if (headerOf data).phnum = 0 then [(headerOf data).phoff.toNat] else []) ++
    ((programHeadersOf data).filter fun header =>
      header.type = SegmentType.null ∧ 0 < header.filesz ∧
        header.offset.toNat + header.filesz.toNat < 2 ^ 64).map
          (fun header => header.offset.toNat + header.filesz.toNat) ++
    (if HasSectionTable data then [] else
      [(headerOf data).shoff.toNat + (headerOf data).shnum.toNat *
        (SectionHeader.entrySize (identOf data).elfClass).toNat])

/-- The counted ends and the consumed ones agree: no stray end lies beyond the consumed
end (within the longest slice there is), and where the section header entries are further
apart than their size, something else that is counted reaches as far as the last of them. -/
def EndsAgree (data : List UInt8) : Prop :=
  (∀ e ∈ strayEnds data, min e isizeMax ≤ consumedEnd data) ∧
    (1 < (headerOf data).shnum.toNat →
      (SectionHeader.entrySize (identOf data).elfClass).toNat <
        (headerOf data).shentsize.toNat →
      ∀ last ∈ sectionEntryEnds data, ∃ e ∈ otherEnds data ++ strayEnds data, last ≤ e)

instance (data : List UInt8) : Decidable (EndsAgree data) :=
  inferInstanceAs (Decidable (_ ∧ _))

section Ends

variable {data : List UInt8}

theorem consumedEnd_le_iff (data : List UInt8) (m : ℕ) :
    consumedEnd data ≤ m ↔
      (∀ e ∈ otherEnds data, e ≤ m) ∧ ∀ e ∈ sectionEntryEnds data, e ≤ m := by
  have hfold : ∀ (ends : List ℕ) (n : ℕ), ends.foldl max n ≤ m ↔ n ≤ m ∧ ∀ e ∈ ends, e ≤ m := by
    intro ends
    induction ends with
    | nil => simp
    | cons e ends ih =>
        intro n
        rw [List.foldl_cons, ih, Nat.max_le, List.forall_mem_cons, and_assoc]
  rw [consumedEnd, hfold, List.forall_mem_append]
  simp

theorem consumedEnd_le_length (h : FileGrammar data) : consumedEnd data ≤ data.length := by
  rw [consumedEnd_le_iff]
  constructor
  · simp only [otherEnds, List.forall_mem_cons, List.forall_mem_append, List.forall_mem_map,
      List.mem_filter, List.mem_range, decide_eq_true_eq, and_imp]
    refine ⟨⟨⟨h.header, h.programHeaders⟩, ?_⟩, ?_⟩
    · intro header hmem hnull hsize
      exact (h.segments header hmem hnull hsize).2
    · intro header hmem hnobits hsize
      exact (h.sections header hmem (by simpa [SectionHeader.isNobits] using hnobits) hsize).2
  · rw [sectionEntryEnds]
    split
    · rename_i htable
      simp only [List.forall_mem_map, List.mem_range]
      exact h.sectionHeaders htable.1 htable.2
    · simp

/-- The end of a table of entries at their own size. -/
def narrowTableEnd (data : List UInt8) : ℕ :=
  (headerOf data).shoff.toNat + (headerOf data).shnum.toNat *
    (SectionHeader.entrySize (identOf data).elfClass).toNat

theorem programTable_le_iff (hcount : (headerOf data).phnum ≠ 0) (m : ℕ) :
    (programTableRange data).2 ≤ m ↔ ∀ i < (headerOf data).phnum.toNat,
      programHeaderStart data i + (ProgramHeader.size (identOf data).elfClass).toNat ≤ m := by
  have hpos : (headerOf data).phnum.toNat ≠ 0 := fun h => hcount (UInt16.toNat_inj.1 h)
  have hentry : ∀ i, programHeaderStart data i +
      (ProgramHeader.size (identOf data).elfClass).toNat = (headerOf data).phoff.toNat +
        (i + 1) * (ProgramHeader.size (identOf data).elfClass).toNat := by
    intro i
    rw [programHeaderStart, Nat.add_assoc, Nat.succ_mul]
  simp only [programTableRange, hentry]
  constructor
  · intro h i hi
    exact (Nat.add_le_add_left (Nat.mul_le_mul_right _ hi) _).trans h
  · intro h
    have hlast := h ((headerOf data).phnum.toNat - 1) (by omega)
    rwa [Nat.sub_add_cancel (by omega)] at hlast

/-- A table read at a stride no smaller than its entries reaches past its narrow end. -/
theorem narrowTableEnd_le (htable : HasSectionTable data) :
    ∃ last ∈ sectionEntryEnds data, narrowTableEnd data ≤ last ∧
      (1 < (headerOf data).shnum.toNat →
        (SectionHeader.entrySize (identOf data).elfClass).toNat <
          (headerOf data).shentsize.toNat → narrowTableEnd data < last) := by
  have hpos : (headerOf data).shnum.toNat ≠ 0 := fun h => htable.2 (UInt16.toNat_inj.1 h)
  obtain ⟨n, hn⟩ := Nat.exists_eq_succ_of_ne_zero hpos
  set size := (SectionHeader.entrySize (identOf data).elfClass).toNat with hsize
  refine ⟨sectionHeaderStart data n + size, ?_, ?_, ?_⟩
  · rw [sectionEntryEnds, if_pos htable]
    exact List.mem_map.2 ⟨n, List.mem_range.2 (by omega), rfl⟩
  · rw [narrowTableEnd, sectionHeaderStart, hn, Nat.succ_mul, ← Nat.add_assoc]
    exact Nat.add_le_add_right (Nat.add_le_add_left
      (Nat.mul_le_mul_left n (Nat.le_max_right _ _)) _) _
  · intro hmore hstride
    rw [narrowTableEnd, sectionHeaderStart, hn, Nat.succ_mul, ← Nat.add_assoc]
    refine Nat.add_lt_add_right (Nat.add_lt_add_left (Nat.mul_lt_mul_of_pos_left ?_ ?_) _) _
    · exact hstride.trans_le (Nat.le_max_left _ _)
    · omega

/-- With a single entry, or entries as close as their size, the table ends where its
narrow end is. -/
theorem sectionEntryEnds_le (hstride : ¬(1 < (headerOf data).shnum.toNat ∧
      (SectionHeader.entrySize (identOf data).elfClass).toNat <
        (headerOf data).shentsize.toNat)) {e : ℕ} (he : e ∈ sectionEntryEnds data) :
    e ≤ narrowTableEnd data := by
  rw [sectionEntryEnds] at he
  split at he
  · rcases List.mem_map.1 he with ⟨i, hi, rfl⟩
    have hi := List.mem_range.1 hi
    rw [sectionHeaderStart, narrowTableEnd, Nat.add_assoc]
    refine Nat.add_le_add_left ?_ _
    by_cases hone : 1 < (headerOf data).shnum.toNat
    · rw [Nat.max_eq_right (Nat.le_of_not_lt fun h => hstride ⟨hone, h⟩), ← Nat.succ_mul]
      exact Nat.mul_le_mul_right _ hi
    · obtain rfl : i = 0 := by omega
      rw [Nat.zero_mul, Nat.zero_add]
      exact Nat.le_mul_of_pos_left _ (by omega)
  · exact absurd he (by simp)

theorem narrowTableEnd_lt (hdata : data.length < 2 ^ 64) (h : FileGrammar data) :
    narrowTableEnd data < 2 ^ 64 := by
  by_cases htable : HasSectionTable data
  · obtain ⟨last, hlast, hle, -⟩ := narrowTableEnd_le htable
    exact (hle.trans (((consumedEnd_le_iff data _).1
      (consumedEnd_le_length h)).2 last hlast)).trans_lt hdata
  · have hshoff := (headerOf data).shoff.toNat_lt
    have hshnum := (headerOf data).shnum.toNat_lt
    have hsize : (SectionHeader.entrySize (identOf data).elfClass).toNat ≤ 64 := by
      cases (identOf data).elfClass <;> decide
    have hmul : (headerOf data).shnum.toNat *
        (SectionHeader.entrySize (identOf data).elfClass).toNat ≤
          (headerOf data).shnum.toNat * 64 := Nat.mul_le_mul_left _ hsize
    rw [HasSectionTable, not_and_or, not_not, not_not] at htable
    rw [narrowTableEnd]
    rcases htable with hzero | hzero
    · rw [hzero]
      exact lt_of_le_of_lt (by simpa using hmul) (by omega : _ * 64 < 2 ^ 64)
    · rw [hzero]
      simpa using hshoff

/-- The end of the program header table that is counted is the one of its entries, or the
table's offset when it is empty. -/
theorem programTable_counted_iff (hdata : data.length < 2 ^ 64) (h : FileGrammar data)
    (m : ℕ) :
    ((programTableRange data).2 < 2 ^ 64 → (programTableRange data).2 ≤ m) ↔
      (∀ i < (headerOf data).phnum.toNat,
        programHeaderStart data i + (ProgramHeader.size (identOf data).elfClass).toNat ≤ m) ∧
      ((headerOf data).phnum = 0 → (headerOf data).phoff.toNat ≤ m) := by
  by_cases hcount : (headerOf data).phnum = 0
  · have hphoff := (headerOf data).phoff.toNat_lt
    simp [programTableRange, hcount, hphoff]
  · have hfit := (programTable_le_iff hcount data.length).2 h.programHeaders
    simp only [hcount, false_imp_iff, and_true, hfit.trans_lt hdata, true_imp_iff]
    exact programTable_le_iff hcount m

/-- The payloads of segments that are counted are the ones read, and those of `PT_NULL`
entries. -/
theorem segments_counted_iff (hdata : data.length < 2 ^ 64) (h : FileGrammar data) (m : ℕ) :
    (∀ header ∈ programHeadersOf data, 0 < header.filesz →
        header.offset.toNat + header.filesz.toNat < 2 ^ 64 →
        header.offset.toNat + header.filesz.toNat ≤ m) ↔
      (∀ header ∈ programHeadersOf data, header.type ≠ SegmentType.null → 0 < header.filesz →
        header.offset.toNat + header.filesz.toNat ≤ m) ∧
      ∀ header ∈ programHeadersOf data, header.type = SegmentType.null → 0 < header.filesz →
        header.offset.toNat + header.filesz.toNat < 2 ^ 64 →
        header.offset.toNat + header.filesz.toNat ≤ m := by
  constructor
  · intro hall
    refine ⟨fun header hmem hnull hsize => ?_, fun header hmem _ => hall header hmem⟩
    exact hall header hmem hsize ((h.segments header hmem hnull hsize).2.trans_lt hdata)
  · rintro ⟨hread, hnull⟩ header hmem hsize hfit
    by_cases htype : header.type = SegmentType.null
    · exact hnull header hmem htype hsize hfit
    · exact hread header hmem htype hsize

/-- What the recomputed end of an accepted file counts. -/
theorem lastStructureEnd_le_iff_ends (hdata : data.length < 2 ^ 64) (h : FileGrammar data)
    (m : ℕ) :
    (lastStructureEnd (imageOf data)).toNat ≤ m ↔
      (∀ e ∈ otherEnds data, e ≤ m) ∧ (∀ e ∈ strayEnds data, e ≤ m) ∧
        (HasSectionTable data → narrowTableEnd data ≤ m) := by
  have hnarrow := narrowTableEnd_lt hdata h
  have hsections : (∀ header ∈ sectionHeadersOf data, header.isNobits = false →
        0 < header.size → header.offset.toNat + header.size.toNat < 2 ^ 64 →
        header.offset.toNat + header.size.toNat ≤ m) ↔
      ∀ header ∈ sectionHeadersOf data, header.isNobits = false → 0 < header.size →
        header.offset.toNat + header.size.toNat ≤ m := by
    refine forall₄_congr fun header hmem hnobits hsize => ?_
    have hin := (h.sections header hmem (by simpa [SectionHeader.isNobits] using hnobits) hsize).2
    exact ⟨fun hle => hle (hin.trans_lt hdata), fun hle _ => hle⟩
  rw [lastStructureEnd_imageOf_le_iff, programTable_counted_iff hdata h,
    segments_counted_iff hdata h, hsections, ← narrowTableEnd]
  simp only [otherEnds, strayEnds, List.forall_mem_cons, List.forall_mem_append,
    List.forall_mem_map, List.mem_filter, List.mem_range, decide_eq_true_eq, and_imp, hnarrow,
    true_imp_iff]
  have hempty : (∀ e ∈ (if (headerOf data).phnum = 0 then [(headerOf data).phoff.toNat]
      else []), e ≤ m) ↔ ((headerOf data).phnum = 0 → (headerOf data).phoff.toNat ≤ m) := by
    split <;> simp [*]
  have hunread : (∀ e ∈ (if HasSectionTable data then [] else [narrowTableEnd data]), e ≤ m) ↔
      (¬HasSectionTable data → narrowTableEnd data ≤ m) := by
    split <;> simp [*]
  rw [hempty, ← narrowTableEnd, hunread]
  constructor
  · rintro ⟨hheader, ⟨htable, hstray⟩, ⟨hread, hnull⟩, hsections, hend⟩
    exact ⟨⟨⟨⟨hheader, htable⟩, hread⟩, hsections⟩, ⟨⟨hstray, hnull⟩, fun _ => hend⟩,
      fun _ => hend⟩
  · rintro ⟨⟨⟨⟨hheader, htable⟩, hread⟩, hsections⟩, ⟨⟨hstray, hnull⟩, hwithout⟩, hwith⟩
    exact ⟨hheader, ⟨htable, hstray⟩, ⟨hread, hnull⟩, hsections,
      (em (HasSectionTable data)).elim hwith hwithout⟩

theorem lastStructureEnd_eq_consumedEnd_iff (hdata : data.length ≤ isizeMax)
    (h : FileGrammar data) :
    min (lastStructureEnd (imageOf data)).toNat isizeMax = consumedEnd data ↔
      EndsAgree data := by
  have hmax : isizeMax < 2 ^ 64 := by decide
  have hcounted := lastStructureEnd_le_iff_ends (by omega) h
  have hconsumed : consumedEnd data ≤ isizeMax := (consumedEnd_le_length h).trans hdata
  set counted := (lastStructureEnd (imageOf data)).toNat
  rcases (hcounted counted).1 le_rfl with ⟨hother, hstray, hnarrow⟩
  rcases (consumedEnd_le_iff data _).1 le_rfl with ⟨hother', hentries⟩
  constructor
  · intro heq
    refine ⟨fun e he => (min_le_min_right _ (hstray e he)).trans heq.le, ?_⟩
    intro hmore hstride last hlast
    -- otherwise everything counted ends before the last entry does
    by_contra hnone
    push Not at hnone
    have htable : HasSectionTable data := by
      by_contra htable
      rw [sectionEntryEnds, if_neg htable] at hlast
      exact absurd hlast (by simp)
    obtain ⟨widest, hwidest, -, hnarrow'⟩ := narrowTableEnd_le htable
    have hpos : 0 < last := (Nat.zero_le _).trans_lt
      (hnone _ (List.mem_append_left _ List.mem_cons_self))
    have hle : counted ≤ max (narrowTableEnd data) (last - 1) := by
      refine (hcounted _).2 ⟨fun e he => ?_, fun e he => ?_, fun _ => Nat.le_max_left _ _⟩
      · exact (Nat.le_sub_one_of_lt (hnone e (List.mem_append_left _ he))).trans
          (Nat.le_max_right _ _)
      · exact (Nat.le_sub_one_of_lt (hnone e (List.mem_append_right _ he))).trans
          (Nat.le_max_right _ _)
    have hlast' := hentries last hlast
    have hwidest' := hentries widest hwidest
    have hstrict := hnarrow' hmore hstride
    omega
  · rintro ⟨hstray', hwide⟩
    apply Nat.le_antisymm
    · rcases hconsumed.eq_or_lt with hfull | hfull
      · exact hfull ▸ Nat.min_le_right _ _
      refine (Nat.min_le_left _ _).trans ((hcounted _).2 ⟨hother', fun e he => ?_, ?_⟩)
      · exact (min_le_iff.1 (hstray' e he)).resolve_right hfull.not_ge
      · intro htable
        obtain ⟨last, hlast, hle, -⟩ := narrowTableEnd_le htable
        exact hle.trans (hentries last hlast)
    · refine Nat.le_min.2 ⟨(consumedEnd_le_iff data _).2 ⟨hother, fun e he => ?_⟩, hconsumed⟩
      by_cases hstride : 1 < (headerOf data).shnum.toNat ∧
          (SectionHeader.entrySize (identOf data).elfClass).toNat <
            (headerOf data).shentsize.toNat
      · rcases hwide hstride.1 hstride.2 e he with ⟨e', he', hle⟩
        rcases List.mem_append.1 he' with hmem | hmem
        · exact hle.trans (hother e' hmem)
        · exact hle.trans (hstray e' hmem)
      · have htable : HasSectionTable data := by
          by_contra htable
          rw [sectionEntryEnds, if_neg htable] at he
          exact absurd he (by simp)
        exact (sectionEntryEnds_le hstride he).trans (hnarrow htable)

end Ends

/-! ## Appending to a file -/

section Append

variable {data : List UInt8} (t : List UInt8)

theorem headerOf_append (h : FileGrammar data) :
    identOf (data ++ t) = identOf data ∧ headerOf (data ++ t) = headerOf data := by
  have hsize := (sixteen_le_size (identOf data).elfClass).trans h.header
  have hident : identOf (data ++ t) = identOf data := by
    rw [← (identOf_window data).1, ← window_append_left t (by omega)]
    exact (identOf_window (data ++ t)).1.symm
  refine ⟨hident, ?_⟩
  rw [headerOf, headerOf, hident, window_append_left t (by rw [Nat.zero_add]; exact h.header)]

theorem programHeadersOf_append (h : FileGrammar data) :
    programHeadersOf (data ++ t) = programHeadersOf data := by
  obtain ⟨hident, hheader⟩ := headerOf_append t h
  rw [programHeadersOf, hheader]
  apply List.map_congr_left
  intro i hi
  have hstart : programHeaderStart (data ++ t) i = programHeaderStart data i := by
    rw [programHeaderStart, hident, hheader, programHeaderStart]
  rw [programHeaderAt, hstart, hident,
    window_append_left t (h.programHeaders i (List.mem_range.1 hi)), programHeaderAt]

theorem sectionHeadersOf_append (h : FileGrammar data) :
    sectionHeadersOf (data ++ t) = sectionHeadersOf data := by
  obtain ⟨hident, hheader⟩ := headerOf_append t h
  unfold sectionHeadersOf
  rw [hheader]
  split
  · rfl
  · rename_i htable
    rcases not_or.1 htable with ⟨hoff, hnum⟩
    apply List.map_congr_left
    intro i hi
    have hstart : sectionHeaderStart (data ++ t) i = sectionHeaderStart data i := by
      rw [sectionHeaderStart, hident, hheader, sectionHeaderStart]
    rw [sectionHeaderAt, hstart, hident,
      window_append_left t (h.sectionHeaders hoff hnum i (List.mem_range.1 hi)),
      sectionHeaderAt]

theorem window_append_payload {offset size : UInt64}
    (h : 0 < size.toNat → PayloadInside data offset size) :
    window (data ++ t) offset.toNat size.toNat = window data offset.toNat size.toNat := by
  by_cases hzero : size.toNat = 0
  · rw [hzero, window_zero_right, window_zero_right]
  · exact window_append_left t (h (Nat.pos_of_ne_zero hzero)).2

theorem segmentOf_append (h : FileGrammar data) {header : ProgramHeader}
    (hmem : header ∈ programHeadersOf data) :
    segmentOf (data ++ t) header = segmentOf data header := by
  unfold segmentOf
  by_cases hnull : header.type = SegmentType.null
  · rw [if_pos hnull, if_pos hnull]
  · rw [if_neg hnull, if_neg hnull,
      window_append_payload t fun hsize => h.segments header hmem hnull hsize]

theorem sectionOf_append (h : FileGrammar data) {header : SectionHeader}
    (hmem : header ∈ sectionHeadersOf data) :
    sectionOf (data ++ t) header = sectionOf data header := by
  have htab : shstrtabOf (data ++ t) = shstrtabOf data := by
    unfold shstrtabOf
    rw [(headerOf_append t h).2, sectionHeadersOf_append t h]
    cases hindex : (sectionHeadersOf data)[(headerOf data).shstrndx.toNat]? with
    | none => rfl
    | some table =>
        by_cases htype : table.type = SectionType.strtab
        · have hnobits : table.type ≠ SectionType.nobits := by
            rw [htype]
            decide
          simp only [if_pos htype]
          exact window_append_payload t
            (h.sections table (List.mem_of_getElem? hindex) hnobits)
        · simp only [if_neg htype]
  unfold sectionOf
  rw [htab]
  by_cases hnobits : header.type = SectionType.nobits
  · rw [if_pos hnobits, if_pos hnobits]
  · rw [if_neg hnobits, if_neg hnobits,
      window_append_payload t (h.sections header hmem hnobits)]

/-- What follows an accepted file is not part of the image it describes. -/
theorem imageOf_append (h : FileGrammar data) : imageOf (data ++ t) = imageOf data := by
  obtain ⟨hident, hheader⟩ := headerOf_append t h
  unfold imageOf
  rw [hident, hheader, programHeadersOf_append t h, sectionHeadersOf_append t h,
    List.map_congr_left fun header hmem => segmentOf_append t h hmem,
    List.map_congr_left fun header hmem => sectionOf_append t h hmem]

theorem FileGrammar.append (h : FileGrammar data) : FileGrammar (data ++ t) := by
  obtain ⟨hident, hheader⟩ := headerOf_append t h
  have hsize := (sixteen_le_size (identOf data).elfClass).trans h.header
  have hlen : (data ++ t).length = data.length + t.length := List.length_append
  have hbyte : ∀ k < 16, (data ++ t).getD k 0 = data.getD k 0 := by
    intro k hk
    rw [List.getD_eq_getElem?_getD, List.getD_eq_getElem?_getD,
      List.getElem?_append_left (by omega)]
  have hinside : ∀ offset size, PayloadInside data offset size →
      PayloadInside (data ++ t) offset size := fun offset size hin =>
    ⟨hin.1, hin.2.trans (by omega)⟩
  refine ⟨?_, ?_, ?_, ?_, ?_, ?_, ?_, ?_⟩
  · rw [List.take_append_of_le_length (by omega)]
    exact h.magic
  · rw [hbyte 4 (by omega)]
    exact h.classByte
  · rw [hbyte 5 (by omega)]
    exact h.dataByte
  · rw [hident, hlen]
    exact h.header.trans (Nat.le_add_right _ _)
  · rw [hheader, hident, hlen]
    intro i hi
    rw [programHeaderStart, hheader, hident]
    exact (h.programHeaders i hi).trans (Nat.le_add_right _ _)
  · rw [programHeadersOf_append t h]
    intro header hmem hnull hpos
    exact hinside _ _ (h.segments header hmem hnull hpos)
  · rw [hheader, hident, hlen]
    intro hoff hnum i hi
    rw [sectionHeaderStart, hheader, hident]
    exact (h.sectionHeaders hoff hnum i hi).trans (Nat.le_add_right _ _)
  · rw [sectionHeadersOf_append t h]
    intro header hmem hnobits hpos
    exact hinside _ _ (h.sections header hmem hnobits hpos)

/-- Appended bytes change nothing of what was parsed. -/
theorem parse_append {image : ElfImage} (hparse : ElfImage.parse data = .ok image)
    (hlen : (data ++ t).length ≤ isizeMax) : ElfImage.parse (data ++ t) = .ok image := by
  have hdata : data.length ≤ isizeMax := by
    rw [List.length_append] at hlen
    omega
  obtain ⟨hgrammar, hdescribed⟩ := (parse_eq_ok hdata).1 hparse
  rw [parse_eq_ok hlen, imageOf_append t hgrammar]
  exact ⟨hgrammar.append t, hdescribed⟩

end Append

theorem smallFile_appended :
    ElfImage.parse (smallFile ++ [0, 1]) = .ok (imageOf smallFile) :=
  parse_append [0, 1] ((parse_eq_ok smallFile_length).2 ⟨smallFile_accepted, rfl⟩)
    (by decide +kernel)

/-- The trailing bytes of a parsed file are the ones after the consumed end, and stay so
when bytes are appended to the file, exactly when the ends agree. -/
theorem trailing_eq_drop_consumedEnd_iff {data : List UInt8} (hdata : data.length ≤ isizeMax)
    {file : ElfFile} (hparse : ElfFile.parse data = .ok file) :
    (file.trailing = data.drop (consumedEnd data) ∧
      ∀ t, (data ++ t).length ≤ isizeMax → ElfFile.parse (data ++ t) =
        .ok { image := file.image, trailing := file.trailing ++ t }) ↔ EndsAgree data := by
  rcases (ElfFile.parse_eq_ok hdata).1 hparse with ⟨himage, htrailing⟩
  rcases (parse_eq_ok hdata).1 himage with ⟨hgrammar, hdescribed⟩
  have hconsumed := consumedEnd_le_length hgrammar
  rw [← lastStructureEnd_eq_consumedEnd_iff hdata hgrammar]
  have hreparse : ∀ t, (data ++ t).length ≤ isizeMax → ∀ trailing,
      ElfFile.parse (data ++ t) = .ok { image := file.image, trailing := trailing } ↔
        trailing = (data ++ t).drop (lastStructureEnd file.image).toNat := by
    intro t ht trailing
    have himage' : ElfImage.parse (data ++ t) = .ok file.image :=
      (parse_eq_ok ht).2 ⟨hgrammar.append t, by rw [imageOf_append t hgrammar, hdescribed]⟩
    rw [ElfFile.parse_eq_ok ht]
    exact and_iff_right himage'
  rw [hdescribed]
  set counted := (lastStructureEnd file.image).toNat
  constructor
  · rintro ⟨hdrop, happend⟩
    have hlen := congrArg List.length hdrop
    rw [htrailing, List.length_drop, List.length_drop] at hlen
    rcases hdata.eq_or_lt with hfull | hroom
    · omega
    · -- a byte appended beyond the file's end is trailing only if the counted end is inside
      have hone : (data ++ [0]).length = data.length + 1 := by simp
      have hbyte := congrArg List.length
        ((hreparse [0] (by omega) _).1 (happend [0] (by omega)))
      rw [htrailing, List.length_append, List.length_drop, List.length_drop, hone,
        List.length_singleton] at hbyte
      omega
  · intro heq
    have hdrop : ∀ t, (data ++ t).length ≤ isizeMax →
        (data ++ t).drop counted = (data ++ t).drop (consumedEnd data) := by
      intro t ht
      rw [List.drop_eq_drop_iff]
      omega
    have htrailing : file.trailing = data.drop (consumedEnd data) := by
      rw [htrailing]
      simpa using hdrop [] (by simpa using hdata)
    refine ⟨htrailing, fun t ht => (hreparse t ht _).2 ?_⟩
    rw [hdrop t ht, htrailing, List.drop_append_of_le_length hconsumed]

theorem smallFile_trailing :
    ∃ file, ElfFile.parse smallFile = .ok file ∧
      file.trailing = smallFile.drop (consumedEnd smallFile) := by
  obtain ⟨file, hparse⟩ := Outcome.exists_of_isOk
    (show (ElfFile.parse smallFile).isOk = true by decide +kernel)
  exact ⟨file, hparse, ((trailing_eq_drop_consumedEnd_iff (by decide +kernel) hparse).2
    (by decide +kernel)).1⟩

/-- A file whose section headers are twice their size apart. -/
def stridedFile : List UInt8 :=
  { smallHeader with shentsize := 128 }.write ++ smallLoad.write .little .elf64 ++
    [0x90, 0xc3] ++ (0 :: strBytes ".text" ++ 0 :: strBytes ".shstrtab" ++ [0]) ++
    smallText.write .little .elf64 ++ List.replicate 64 0 ++
    smallShstrtab.write .little .elf64

/-- The last section header of the file is read as trailing bytes. -/
theorem stridedFile_trailing :
    ∃ file, ElfFile.parse stridedFile = .ok file ∧
      file.trailing = smallShstrtab.write .little .elf64 ∧
      file.trailing ≠ stridedFile.drop (consumedEnd stridedFile) := by
  obtain ⟨file, hparse⟩ := Outcome.exists_of_isOk
    (show (ElfFile.parse stridedFile).isOk = true by decide +kernel)
  have htrailing : (ElfFile.parse stridedFile).map ElfFile.trailing =
      .ok (smallShstrtab.write .little .elf64) := by decide +kernel
  rw [hparse] at htrailing
  have htrailing := Except.ok.inj htrailing
  have hconsumed : stridedFile.drop (consumedEnd stridedFile) = [] := by decide +kernel
  refine ⟨file, hparse, htrailing, ?_⟩
  rw [htrailing, hconsumed]
  decide +kernel

end Elfex
