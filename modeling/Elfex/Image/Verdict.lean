import Elfex.Image.Layout
import Elfex.Image.Overlap
import Elfex.Image.SavedRun
import Elfex.Image.Whole

/-!
# What a verdict says

The validator has no errors to report exactly when the loads share no address before the
last one, none without addresses starts inside another, and all declare no more bytes in
the file than in memory. It has nothing at all to report exactly when the entry point, the
file offsets and the name table are sound too. A rebuild repairs what can be repaired by moving
bytes, and no other verdict changes.
-/

namespace Elfex

open Foundation

/-! ## Loads that are apart -/

namespace Segment

/-- The two segments share an address before the last one. -/
def Meets (s t : Segment) : Prop :=
  ∃ address < 2 ^ 64 - 1, s.Covers address ∧ t.Covers address

/-- The segment starts in the memory of the other one, neither where that one starts nor at
the last address. -/
def BeginsInside (s t : Segment) : Prop :=
  t.header.vaddr < s.header.vaddr ∧ s.header.vaddr.toNat < 2 ^ 64 - 1 ∧
    t.Covers s.header.vaddr.toNat

/-- One of the segments ends, at the last address at most, before the other one starts. -/
def Separate (s t : Segment) : Prop :=
  saturatingAdd s.header.vaddr s.header.memsz ≤ t.header.vaddr ∨
    saturatingAdd t.header.vaddr t.header.memsz ≤ s.header.vaddr

/-- Segments that share no address before the last one are separate, unless one of them has
no address and starts inside the other. -/
theorem separate_iff (s t : Segment) : s.Separate t ↔ ¬s.Meets t ∧
    (s.header.memsz = 0 → ¬s.BeginsInside t) ∧ (t.header.memsz = 0 → ¬t.BeginsInside s) := by
  rw [Separate, UInt64.le_iff_toNat_le, UInt64.le_iff_toNat_le, toNat_saturatingAdd,
    toNat_saturatingAdd, BeginsInside, BeginsInside, UInt64.lt_iff_toNat_lt,
    UInt64.lt_iff_toNat_lt, ← UInt64.toNat_inj, ← UInt64.toNat_inj]
  change _ ↔ _ ∧ (_ = 0 → _) ∧ (_ = 0 → _)
  constructor
  · intro hseparate
    refine ⟨?_, ?_, ?_⟩
    · rintro ⟨address, hlast, ⟨hs, hs'⟩, ht, ht'⟩
      omega
    · rintro - ⟨hlt, hlast, -, hstop⟩
      omega
    · rintro - ⟨hlt, hlast, -, hstop⟩
      omega
  · rintro ⟨hmeets, hs, ht⟩
    by_contra hnot
    rcases Nat.eq_zero_or_pos s.header.memsz.toNat with hzero | hpos
    · exact hs hzero ⟨by omega, by omega, by omega, by omega⟩
    rcases Nat.eq_zero_or_pos t.header.memsz.toNat with hzero | hpos'
    · exact ht hzero ⟨by omega, by omega, by omega, by omega⟩
    -- the segment that starts last starts in the other one
    · exact hmeets ⟨max s.header.vaddr.toNat t.header.vaddr.toNat, by omega,
        ⟨by omega, by omega⟩, by omega, by omega⟩

end Segment

namespace LoadRange

/-- One of the two ranges ends before the other one starts. -/
def Separate (a b : LoadRange) : Prop := a.stop ≤ b.start ∨ b.stop ≤ a.start

theorem Separate.symm {a b : LoadRange} (h : Separate a b) : Separate b a := Or.symm h

end LoadRange

namespace ElfImage

variable {image : ElfImage}

/-- No overlap is reported exactly when every two loads are apart. -/
theorem overlapIssues_eq_nil_iff :
    image.overlapIssues = [] ↔ image.loads.Pairwise Segment.Separate := by
  have hranges : image.loads.Pairwise Segment.Separate ↔
      image.loadRanges.Pairwise LoadRange.Separate := by
    rw [loadRanges, (List.perm_insertionSort _ _).pairwise_iff LoadRange.Separate.symm,
      List.pairwise_map]
    conv_lhs => rw [← List.zipIdx_map_fst 0 image.loads, List.pairwise_map]
    rfl
  rw [hranges, overlapIssues, List.filterMap_eq_nil_iff]
  constructor
  · intro h
    have hneighbours : ∀ pair ∈ image.loadRanges.zip image.loadRanges.tail,
        LoadRange.Precedes pair.1 pair.2 := by
      intro pair hpair
      have hclear := h pair hpair
      rw [LoadRange.overlapIssue, ite_eq_right_iff] at hclear
      have hle := UInt64.not_lt.1 fun hlt => Option.some_ne_none _ (hclear hlt)
      exact ⟨UInt64.le_iff_toNat_le.1 hle,
        start_le_stop_of_mem (List.mem_of_mem_tail (List.of_mem_zip hpair).2)⟩
    exact (pairwise_of_zip_tail hneighbours).imp fun hprecedes =>
      Or.inl (UInt64.le_iff_toNat_le.2 hprecedes.1)
  · intro h pair hpair
    obtain ⟨hseparate, hle⟩ := forall_zip_tail (h.and image.loadRanges_sorted) pair hpair
    have hfirst := start_le_stop_of_mem (List.of_mem_zip hpair).1
    have hsecond := start_le_stop_of_mem (List.mem_of_mem_tail (List.of_mem_zip hpair).2)
    rw [LoadRange.le_iff] at hle
    rw [LoadRange.overlapIssue, if_neg]
    rw [LoadRange.Separate, UInt64.le_iff_toNat_le, UInt64.le_iff_toNat_le] at hseparate
    rw [UInt64.lt_iff_toNat_lt]
    omega

/-- No load without addresses starts inside another load. -/
def EmptyLoadsOutside (image : ElfImage) : Prop :=
  ∀ empty ∈ image.loads, empty.header.memsz = 0 → ∀ load ∈ image.loads,
    ¬empty.BeginsInside load

/-- Every two loads are separate exactly when no two share an address before the last one
and none without addresses starts inside another. -/
theorem pairwise_separate_iff : image.loads.Pairwise Segment.Separate ↔
    image.loads.Pairwise (fun s t => ¬s.Meets t) ∧ image.EmptyLoadsOutside := by
  have houtside : image.EmptyLoadsOutside ↔ image.loads.Pairwise fun s t =>
      (s.header.memsz = 0 → ¬s.BeginsInside t) ∧ (t.header.memsz = 0 → ¬t.BeginsInside s) := by
    constructor
    · exact fun h => List.pairwise_of_forall_mem_list fun s hs t ht =>
        ⟨fun hzero => h s hs hzero t ht, fun hzero => h t ht hzero s hs⟩
    · intro h empty hempty hzero load hload hinside
      have : Std.Symm fun s t : Segment => (s.header.memsz = 0 → ¬s.BeginsInside t) ∧
          (t.header.memsz = 0 → ¬t.BeginsInside s) := ⟨fun _ _ => And.symm⟩
      have hne : empty ≠ load := fun heq => UInt64.lt_irrefl _ (heq ▸ hinside.1)
      exact (h.forall hempty hload hne).1 hzero hinside
  rw [houtside, ← List.pairwise_and_iff]
  exact List.Pairwise.iff fun s t => s.separate_iff t

/-! ## Verdicts -/

/-- What the absence of errors says. -/
structure SoundLoads (image : ElfImage) : Prop where
  apart : image.loads.Pairwise fun s t => ¬s.Meets t
  outside : image.EmptyLoadsOutside
  sizes : ∀ load ∈ image.loads, load.header.filesz ≤ load.header.memsz

/-- What the absence of warnings says. -/
structure Unsuspicious (image : ElfImage) : Prop where
  loads : image.loads ≠ []
  entry : image.header.entry ≠ 0 → image.imageBase.toNat ≤ image.header.entry.toNat ∧
    image.header.entry.toNat < image.imageBase.toNat + image.imageSpan.toNat
  congruent : ∀ load ∈ image.loads, 1 < load.header.align → 0 < load.header.filesz →
    load.header.offset % load.header.align = load.header.vaddr % load.header.align
  stringTable : image.header.shnum ≠ 0 → ∃ sec : Section,
    image.sections[image.header.shstrndx.toNat]? = some sec ∧
      sec.header.type = SectionType.strtab

/-- The mapped image has an end, so the entry point is outside when it is not between. -/
theorem entryOutside_eq_false_iff : image.entryOutside = false ↔
    image.imageBase.toNat ≤ image.header.entry.toNat ∧
      image.header.entry.toNat < image.imageBase.toNat + image.imageSpan.toNat := by
  have hspan : image.imageBase.toNat + image.imageSpan.toNat < 2 ^ 64 :=
    (geometry_describes _).stop_lt
  have hsum := toNat_add_of_lt hspan
  have hadd : checkedAdd image.imageBase image.imageSpan =
      some (image.imageBase + image.imageSpan) := checkedAdd_eq_some.2 hsum.symm
  rw [entryOutside, hadd]
  dsimp only
  rw [Bool.or_eq_false_iff, decide_eq_false_iff_not, decide_eq_false_iff_not,
    UInt64.lt_iff_toNat_lt, UInt64.le_iff_toNat_le, hsum]
  omega

theorem stringTableValid_iff : image.stringTableValid = true ↔
    ∃ sec : Section, image.sections[image.header.shstrndx.toNat]? = some sec ∧
      sec.header.type = SectionType.strtab := by
  rw [stringTableValid]
  cases image.sections[image.header.shstrndx.toNat]? with
  | none => simp
  | some sec => simp

/-- The errors of a load. -/
theorem any_error_segmentIssues (segment : Segment) (index : ℕ) :
    (segmentIssues segment index).any (fun issue => issue.level == .error) =
      decide (segment.header.memsz < segment.header.filesz) := by
  rw [segmentIssues]
  split_ifs with hsize <;> simp [hsize, ValidationIssue.error, ValidationIssue.warning,
    ValidationIssue.withContext]

theorem level_of_mem_overlapIssues {issue : ValidationIssue} (h : issue ∈ image.overlapIssues) :
    issue.level = .error := by
  obtain ⟨pair, -, -, rfl⟩ := mem_overlapIssues_iff.1 h
  rfl

/-- The loads declare enough memory exactly when none of them is an error. -/
theorem any_error_loads :
    (image.loads.zipIdx.flatMap fun entry => segmentIssues entry.1 entry.2).any
        (fun issue => issue.level == .error) = false ↔
      ∀ load ∈ image.loads, load.header.filesz ≤ load.header.memsz := by
  rw [List.any_flatMap, List.any_eq_false]
  simp only [any_error_segmentIssues, decide_eq_true_eq, UInt64.not_lt]
  rw [List.forall_mem_zipIdx', List.forall_mem_iff_forall_getElem]

/-- There is no error exactly when the loads are sound. -/
theorem hasErrors_eq_false_iff : image.validate.hasErrors = false ↔ image.SoundLoads := by
  have hloads : image.loadIssues.any (fun issue => issue.level == .error) = false := by
    rw [loadIssues]
    split_ifs <;> rfl
  have hentry : image.entryIssues.any (fun issue => issue.level == .error) = false := by
    rw [entryIssues]
    split_ifs <;> rfl
  have htable : image.stringTableIssues.any (fun issue => issue.level == .error) = false := by
    rw [stringTableIssues]
    split_ifs <;> rfl
  have hoverlaps : image.overlapIssues.any (fun issue => issue.level == .error) = false ↔
      image.loads.Pairwise Segment.Separate := by
    rw [← overlapIssues_eq_nil_iff, List.any_eq_false, List.eq_nil_iff_forall_not_mem]
    refine forall₂_congr fun issue hmem => ?_
    rw [level_of_mem_overlapIssues hmem]
    simp
  rw [ValidationResult.hasErrors, validate]
  simp only [List.any_append, hloads, hentry, htable, Bool.false_or, Bool.or_false,
    Bool.or_eq_false_iff, hoverlaps, any_error_loads]
  rw [pairwise_separate_iff]
  exact ⟨fun h => ⟨h.1.1, h.1.2, h.2⟩, fun h => ⟨⟨h.apart, h.outside⟩, h.sizes⟩⟩

/-- Nothing is found of a load exactly when its sizes and its offset are sound. -/
theorem segmentIssues_eq_nil_iff {segment : Segment} {index : ℕ} :
    segmentIssues segment index = [] ↔ segment.header.filesz ≤ segment.header.memsz ∧
      (1 < segment.header.align → 0 < segment.header.filesz →
        segment.header.offset % segment.header.align =
          segment.header.vaddr % segment.header.align) := by
  refine ⟨fun h => ?_, fun h => segmentIssues_eq_nil h.1 h.2⟩
  rw [segmentIssues, List.append_eq_nil_iff] at h
  obtain ⟨hsize, hcongruent⟩ := h
  constructor
  · by_contra hlt
    rw [if_pos (UInt64.not_le.1 hlt)] at hsize
    exact absurd hsize (List.cons_ne_nil _ _)
  · intro halign hpos
    by_contra hne
    rw [if_pos ⟨halign, hne, hpos⟩] at hcongruent
    exact absurd hcongruent (List.cons_ne_nil _ _)

theorem loadIssues_eq_nil_iff : image.loadIssues = [] ↔ image.loads ≠ [] := by
  rw [loadIssues]
  split_ifs with h <;> simp [h]

theorem entryIssues_eq_nil_iff :
    image.entryIssues = [] ↔ (image.header.entry ≠ 0 →
      image.imageBase.toNat ≤ image.header.entry.toNat ∧
        image.header.entry.toNat < image.imageBase.toNat + image.imageSpan.toNat) := by
  rw [← entryOutside_eq_false_iff, entryIssues]
  split
  · rename_i h
    exact iff_of_false (List.cons_ne_nil _ _) fun hinside => by
      rw [hinside h.1] at h
      exact absurd h.2 (by decide)
  · rename_i h
    exact iff_of_true rfl fun hne => by simpa [hne] using h

theorem stringTableIssues_eq_nil_iff :
    image.stringTableIssues = [] ↔ (image.header.shnum ≠ 0 →
      ∃ sec : Section, image.sections[image.header.shstrndx.toNat]? = some sec ∧
        sec.header.type = SectionType.strtab) := by
  rw [← stringTableValid_iff, stringTableIssues]
  split
  · rename_i h
    exact iff_of_false (List.cons_ne_nil _ _) fun hvalid => by
      rw [hvalid h.1] at h
      exact absurd h.2 (by decide)
  · rename_i h
    exact iff_of_true rfl fun hne => by simpa [hne] using h

/-- Nothing is found of the loads exactly when nothing is found of any of them. -/
theorem flatMap_segmentIssues_eq_nil_iff :
    (image.loads.zipIdx.flatMap fun entry => segmentIssues entry.1 entry.2) = [] ↔
      ∀ load ∈ image.loads, load.header.filesz ≤ load.header.memsz ∧
        (1 < load.header.align → 0 < load.header.filesz →
          load.header.offset % load.header.align =
            load.header.vaddr % load.header.align) := by
  rw [List.flatMap_eq_nil_iff]
  simp only [segmentIssues_eq_nil_iff]
  rw [List.forall_mem_zipIdx', List.forall_mem_iff_forall_getElem]

/-- The verdicts are exact: there is no error exactly when the loads are apart and have
enough memory, and no finding exactly when nothing is suspicious either. -/
theorem validate_exact (image : ElfImage) :
    (image.validate.hasErrors = false ↔ image.SoundLoads) ∧
      (image.validate.isOk = true ↔ image.SoundLoads ∧ image.Unsuspicious) := by
  refine ⟨hasErrors_eq_false_iff, ?_⟩
  rw [ValidationResult.isOk, List.isEmpty_iff, validate]
  simp only [List.append_eq_nil_iff, loadIssues_eq_nil_iff, entryIssues_eq_nil_iff,
    overlapIssues_eq_nil_iff, pairwise_separate_iff, flatMap_segmentIssues_eq_nil_iff,
    stringTableIssues_eq_nil_iff]
  constructor
  · rintro ⟨⟨⟨⟨hload, hentry⟩, hapart, houtside⟩, hsegments⟩, htable⟩
    exact ⟨⟨hapart, houtside, fun load hmem => (hsegments load hmem).1⟩,
      ⟨hload, hentry, fun load hmem => (hsegments load hmem).2, htable⟩⟩
  · rintro ⟨hsound, hplain⟩
    exact ⟨⟨⟨⟨hplain.loads, hplain.entry⟩, hsound.apart, hsound.outside⟩, fun load hmem =>
      ⟨hsound.sizes load hmem, hplain.congruent load hmem⟩⟩, hplain.stringTable⟩

/-! ## Verdicts on rebuilt files -/

end ElfImage

/-- The findings that a rebuild repairs by moving bytes and naming its table. -/
def ValidationCode.isRepaired (code : ValidationCode) : Bool :=
  code == .segmentVaddrMisaligned || code == .invalidStringTableIndex

namespace ElfImage

/-- The finding of a load that a rebuild does not repair. -/
def sizeIssues (memsz filesz : UInt64) (index : ℕ) : List ValidationIssue :=
  if memsz < filesz then
    [(ValidationIssue.error .segmentFileRangeOutOfBounds
      "a segment declares more file bytes than memory bytes").withContext
        ("segment " ++ toString index)]
  else []

theorem filter_segmentIssues (segment : Segment) (index : ℕ) :
    (segmentIssues segment index).filter (fun issue => !issue.code.isRepaired) =
      sizeIssues segment.header.memsz segment.header.filesz index := by
  rw [segmentIssues, sizeIssues, List.filter_append]
  split_ifs <;> rfl

theorem segmentIssues_of_congruent {segment : Segment} (index : ℕ)
    (hcongruent : 1 < segment.header.align → 0 < segment.header.filesz →
      segment.header.offset % segment.header.align =
        segment.header.vaddr % segment.header.align) :
    segmentIssues segment index =
      sizeIssues segment.header.memsz segment.header.filesz index := by
  have hsound : ¬(1 < segment.header.align ∧ segment.header.offset % segment.header.align ≠
      segment.header.vaddr % segment.header.align ∧ 0 < segment.header.filesz) :=
    fun ⟨halign, hne, hpos⟩ => hne (hcongruent halign hpos)
  rw [segmentIssues, if_neg hsound, List.append_nil]
  rfl

section Rebuilt

variable {data b : List UInt8} (hdata : data.length ≤ isizeMax)
  (hparse : parse data = .ok image) (hbuild : image.tryBuild = .ok b)

include hdata hparse hbuild

omit hdata hparse in
theorem length_built : b.length ≤ isizeMax :=
  (tryBuild_eq_ok hbuild).limit.trans (by decide)

/-- A rebuilt load declares what the given one does. -/
theorem filesz_rebuilt {segment segment' : Segment} (hkept : SegmentKept segment segment')
    (hmem : segment ∈ image.segments) (hmem' : segment' ∈ image.rebuilt.segments)
    (hload : segment.header.type = SegmentType.load) :
    segment'.header.filesz = segment.header.filesz := by
  have hregular := (regular_of_parse hdata hparse).1
  have hnull : segment.header.type ≠ SegmentType.null := by
    rw [hload]
    decide
  have hlength := (regular_of_parse hdata hparse).2 segment hmem hnull
  have hlength' := (regular_of_parse (length_built hbuild)
    (parse_of_tryBuild hregular hbuild)).2 segment' hmem' (hkept.type ▸ hnull)
  rw [hkept.data, hlength, Nat.min_self, ← hlength, List.take_length, hlength] at hlength'
  exact UInt64.toNat_inj.1 hlength'.symm

/-- A rebuilt load has a file offset congruent with its address. -/
theorem congruent_rebuilt {segment' : Segment} (hmem' : segment' ∈ image.rebuilt.loads)
    (halign : 1 < segment'.header.align) (hsize : 0 < segment'.header.filesz) :
    segment'.header.offset % segment'.header.align =
      segment'.header.vaddr % segment'.header.align := by
  have hregular := (regular_of_parse hdata hparse).1
  have hpresent : image.Present b := by
    simpa using (tryBuild_eq_ok hbuild).present hregular.ident []
  obtain ⟨hsegment', hload'⟩ := List.mem_filter.1 hmem'
  obtain ⟨i, hi⟩ := List.mem_iff_getElem?.1 hsegment'
  have hflip : List.Forall₂ (fun segment' segment => SegmentKept segment segment')
      image.rebuilt.segments image.segments := (segments_kept hregular).flip
  obtain ⟨segment, hgiven, hkept⟩ := exists_getElem?_of_forall₂ hflip hi
  have hload : segment.header.type = SegmentType.load := by
    rw [← hkept.type]
    simpa [ProgramHeader.isLoad] using hload'
  have hfilesz := filesz_rebuilt hdata hparse hbuild hkept (List.mem_of_getElem? hgiven)
    hsegment' hload
  have hdescribed := ((parse_eq_ok (length_built hbuild)).1
    (parse_of_tryBuild hregular hbuild)).2
  have hheader : (programHeadersOf b)[i]? = some segment'.header := by
    rw [← hdescribed] at hi
    obtain ⟨header, hheader, rfl⟩ := Option.map_eq_some_iff.1 (List.getElem?_map ▸ hi)
    exact hheader
  have hnull : segment.header.type ≠ SegmentType.null := by
    rw [hload]
    decide
  have hlength := (regular_of_parse hdata hparse).2 segment (List.mem_of_getElem? hgiven) hnull
  have hne : segment.written ≠ [] := by
    rw [← List.length_pos_iff, Segment.written, List.length_take, hlength, Nat.min_self,
      Nat.min_self, ← hfilesz]
    exact UInt64.lt_iff_toNat_lt.1 hsize
  have hleast := isLeast_offset hpresent hgiven (by simpa [ProgramHeader.isLoad] using hload) hne
    (by rw [← hkept.align]; exact UInt64.lt_iff_toNat_lt.1 halign) hheader
  rw [← UInt64.toNat_inj, UInt64.toNat_mod, UInt64.toNat_mod, hkept.vaddr, hkept.align]
  exact hleast.1.2

/-- What the checks read of the loads is what they read of the given ones. -/
theorem loads_rebuilt {γ : Type} (f : UInt64 → UInt64 → UInt64 → γ) :
    (image.rebuilt.loads.map fun load =>
        f load.header.vaddr load.header.memsz load.header.filesz) =
      image.loads.map fun load =>
        f load.header.vaddr load.header.memsz load.header.filesz := by
  have hkept := segments_kept (regular_of_parse hdata hparse).1
  have hboth : List.Forall₂ (fun segment segment' => SegmentKept segment segment' ∧
      segment ∈ image.segments ∧ segment' ∈ image.rebuilt.segments)
        image.segments image.rebuilt.segments := by
    rw [List.forall₂_iff_zip] at hkept ⊢
    exact ⟨hkept.1, fun hmem => ⟨hkept.2 hmem, List.of_mem_zip hmem⟩⟩
  refine (map_filter_eq_of_forall₂ hboth ?_ ?_).symm
  · rintro segment segment' ⟨hsegment, -⟩
    rw [ProgramHeader.isLoad, ProgramHeader.isLoad, hsegment.type]
  · rintro segment segment' ⟨hsegment, hmem, hmem'⟩ hload
    rw [hsegment.vaddr, hsegment.memsz, filesz_rebuilt hdata hparse hbuild hsegment hmem hmem'
      (by simpa [ProgramHeader.isLoad] using hload)]

/-- The name table of a rebuilt file is found. -/
theorem stringTableIssues_rebuilt : image.rebuilt.stringTableIssues = [] := by
  have hregular := (regular_of_parse hdata hparse).1
  have hpresent : image.Present b := by
    simpa using (tryBuild_eq_ok hbuild).present hregular.ident []
  have hdescribed := ((parse_eq_ok (length_built hbuild)).1
    (parse_of_tryBuild hregular hbuild)).2
  rw [← hdescribed]
  by_cases hne : image.sections = []
  · have hbuilt : image.builtSections = [] := by
      rw [builtSections, namedSections, if_pos hne]
      rfl
    have hshnum := hpresent.laidOut.headerOf_shnum
    rw [hbuilt, List.length_nil] at hshnum
    have hzero : (imageOf b).header.shnum = 0 := UInt16.toNat_inj.1 hshnum
    rw [stringTableIssues, hzero]
    rfl
  · obtain ⟨sec, hsec, hshstrtab⟩ := shstrndx_present hpresent hne
    obtain ⟨sec', hsec', hread⟩ :=
      exists_getElem?_of_forall₂ (sections_read hpresent hne) hsec
    have hvalid : (imageOf b).stringTableValid = true := stringTableValid_iff.2
      ⟨sec', hsec', by rw [hread.type, Section.type_of_isShstrtab hshstrtab]⟩
    rw [stringTableIssues, hvalid, if_neg]
    simp

/-- A list made from the loads, each with its index, is made from what is read of them. -/
theorem zipIdx_loads_rebuilt {γ : Type} (f : UInt64 → UInt64 → UInt64 → ℕ → γ) :
    (image.rebuilt.loads.zipIdx.map fun entry => f entry.1.header.vaddr entry.1.header.memsz
        entry.1.header.filesz entry.2) =
      image.loads.zipIdx.map fun entry => f entry.1.header.vaddr entry.1.header.memsz
        entry.1.header.filesz entry.2 := by
  have hread := congrArg (fun fields => fields.zipIdx.map fun entry : (ℕ → γ) × ℕ =>
    entry.1 entry.2) (loads_rebuilt hdata hparse hbuild f)
  simp only [List.zipIdx_map, List.map_map] at hread
  exact hread

theorem loadIssues_rebuilt : image.rebuilt.loadIssues =
    image.loadIssues.filter fun issue => !issue.code.isRepaired := by
  have hnone : image.rebuilt.loads = [] ↔ image.loads = [] := by
    have hlength := congrArg List.length (loads_rebuilt hdata hparse hbuild fun _ _ _ => ())
    rw [List.length_map, List.length_map] at hlength
    rw [← List.length_eq_zero_iff, hlength, List.length_eq_zero_iff]
  rw [loadIssues, loadIssues, if_congr hnone rfl rfl]
  split_ifs <;> rfl

theorem entryIssues_rebuilt : image.rebuilt.entryIssues =
    image.entryIssues.filter fun issue => !issue.code.isRepaired := by
  have hregular := (regular_of_parse hdata hparse).1
  have hkept : image.rebuilt.header.entry = image.header.entry := hregular.header.keeps.2
  rw [entryIssues, entryIssues, entryOutside, entryOutside, hkept,
    imageBase_rebuilt hregular hbuild, imageSpan_rebuilt hregular hbuild]
  split_ifs <;> rfl

theorem overlapIssues_rebuilt : image.rebuilt.overlapIssues =
    image.overlapIssues.filter fun issue => !issue.code.isRepaired := by
  have hranges : image.rebuilt.loadRanges = image.loadRanges :=
    congrArg (List.insertionSort LoadRange.Le) (zipIdx_loads_rebuilt hdata hparse hbuild
      fun vaddr memsz _ index => (⟨vaddr, saturatingAdd vaddr memsz, index⟩ : LoadRange))
  rw [List.filter_eq_self.2, overlapIssues, overlapIssues, hranges]
  intro issue hmem
  obtain ⟨pair, -, -, rfl⟩ := mem_overlapIssues_iff.1 hmem
  rfl

/-- Of the findings of the loads those on sizes stay. -/
theorem flatMap_segmentIssues_rebuilt :
    (image.rebuilt.loads.zipIdx.flatMap fun entry => segmentIssues entry.1 entry.2) =
      (image.loads.zipIdx.flatMap fun entry => segmentIssues entry.1 entry.2).filter
        fun issue => !issue.code.isRepaired := by
  have hsound : ∀ entry ∈ image.rebuilt.loads.zipIdx, segmentIssues entry.1 entry.2 =
      sizeIssues entry.1.header.memsz entry.1.header.filesz entry.2 := fun entry hmem =>
    segmentIssues_of_congruent entry.2
      (congruent_rebuilt hdata hparse hbuild (List.fst_mem_of_mem_zipIdx hmem))
  rw [List.filter_flatMap, List.flatMap_def, List.flatMap_def, List.map_congr_left hsound]
  simp only [filter_segmentIssues]
  exact congrArg List.flatten (zipIdx_loads_rebuilt hdata hparse hbuild
    fun _ memsz filesz index => sizeIssues memsz filesz index)

end Rebuilt

theorem filter_stringTableIssues (image : ElfImage) :
    image.stringTableIssues.filter (fun issue => !issue.code.isRepaired) = [] := by
  rw [stringTableIssues]
  split_ifs <;> rfl

/-- The verdict on a rebuilt file is the verdict on the file without what is repaired:
offsets are congruent, the name table is found, and every other finding stays, in order and
with its context. -/
theorem rebuild_verdict {data b : List UInt8} (hdata : data.length ≤ isizeMax)
    (hparse : parse data = .ok image) (hbuild : image.tryBuild = .ok b) :
    ∃ saved, parse b = .ok saved ∧ saved.validate.issues =
      image.validate.issues.filter fun issue => !issue.code.isRepaired := by
  refine ⟨_, parse_of_tryBuild (regular_of_parse hdata hparse).1 hbuild, ?_⟩
  simp only [validate, List.filter_append, loadIssues_rebuilt hdata hparse hbuild,
    entryIssues_rebuilt hdata hparse hbuild, overlapIssues_rebuilt hdata hparse hbuild,
    flatMap_segmentIssues_rebuilt hdata hparse hbuild,
    stringTableIssues_rebuilt hdata hparse hbuild, filter_stringTableIssues]

end ElfImage

/-- The only finding of the executable is a file offset, which a rebuild moves. -/
theorem smallFile_verdict :
    ∃ b saved, (imageOf smallFile).tryBuild = .ok b ∧ ElfImage.parse b = .ok saved ∧
      (imageOf smallFile).validate.issues.map ValidationIssue.code =
        [.segmentVaddrMisaligned] ∧ saved.validate.issues = [] := by
  obtain ⟨b, hbuild⟩ := Outcome.exists_of_isOk smallFile_builds
  obtain ⟨saved, hsaved, hissues⟩ := ElfImage.rebuild_verdict smallFile_length
    (parse_imageOf smallFile_length smallFile_parses) hbuild
  refine ⟨b, saved, hbuild, hsaved, by decide +kernel, hissues.trans ?_⟩
  decide +kernel

end Elfex
