import Elfex.Foundation.Extrema
import Elfex.Image.Placement

/-!
# The address geometry

The geometry is determined by the records with memory: the page by the largest of their
alignments, the base by the lowest address and the span by the highest end. The order of
the records and the records without memory do not matter.
-/

namespace Elfex

open Foundation

namespace LoadRecord

/-- The record takes up memory. -/
def HasMemory (record : LoadRecord) : Prop := record.memsz ≠ 0

/-- The end of a record's memory, which need not be an address. -/
def stop (record : LoadRecord) : ℕ := record.vaddr.toNat + record.memsz.toNat

/-- The alignments a page has to hold. -/
def aligns (loads : List LoadRecord) : Set ℕ :=
  keptValues (fun record => record.HasMemory ∧ 1 < record.align) (fun record => record.align.toNat)
    loads

def vaddrs (loads : List LoadRecord) : Set ℕ :=
  keptValues HasMemory (fun record => record.vaddr.toNat) loads

def stops (loads : List LoadRecord) : Set ℕ := keptValues HasMemory stop loads

end LoadRecord

open LoadRecord

/-- What the records with memory ask of a geometry. The end of the span is cut off at the
largest address. -/
structure ImageGeometry.Describes (geometry : ImageGeometry) (loads : List LoadRecord) :
    Prop where
  page : IsGreatest (insert 0x1000 (aligns loads)) geometry.page.toNat
  base : (vaddrs loads).Nonempty →
    IsGreatest {n | geometry.page.toNat ∣ n ∧ n ∈ lowerBounds (vaddrs loads)}
      geometry.base.toNat
  base_of_empty : vaddrs loads = ∅ → geometry.base = 0
  stop : ∃ n, IsLeast {n | geometry.page.toNat ∣ n ∧ n ∈ upperBounds (stops loads)} n ∧
    geometry.base.toNat + geometry.span.toNat = min n (2 ^ 64 - 1)

namespace ImageGeometry.Describes

variable {geometry geometry' : ImageGeometry} {loads loads' : List LoadRecord}

/-- A list of records has one geometry. -/
theorem unique (h : geometry.Describes loads) (h' : geometry'.Describes loads) :
    geometry = geometry' := by
  have hpage : geometry.page.toNat = geometry'.page.toNat := h.page.unique h'.page
  have hbase : geometry.base.toNat = geometry'.base.toNat := by
    rcases (vaddrs loads).eq_empty_or_nonempty with hempty | hvaddrs
    · rw [h.base_of_empty hempty, h'.base_of_empty hempty]
    · have hgreatest := h'.base hvaddrs
      rw [← hpage] at hgreatest
      exact (h.base hvaddrs).unique hgreatest
  obtain ⟨n, hn, hstop⟩ := h.stop
  obtain ⟨n', hn', hstop'⟩ := h'.stop
  rw [← hpage] at hn'
  have hspan : geometry.span.toNat = geometry'.span.toNat := by
    rw [hn'.unique hn, ← hstop, ← hbase] at hstop'
    omega
  obtain ⟨base, page, span⟩ := geometry
  rw [ImageGeometry.mk.injEq]
  exact ⟨UInt64.toNat_inj.1 hbase, UInt64.toNat_inj.1 hpage, UInt64.toNat_inj.1 hspan⟩

/-- Lists with the same records with memory have the same geometry. -/
theorem congr (h : geometry.Describes loads)
    (hmem : ∀ record : LoadRecord, record.HasMemory → (record ∈ loads ↔ record ∈ loads')) :
    geometry.Describes loads' := by
  have haligns : aligns loads = aligns loads' :=
    keptValues_congr fun record hrecord => hmem record hrecord.1
  have hvaddrs : vaddrs loads = vaddrs loads' := keptValues_congr hmem
  have hstops : stops loads = stops loads' := keptValues_congr hmem
  exact {
    page := haligns ▸ h.page
    base := hvaddrs ▸ h.base
    base_of_empty := hvaddrs ▸ h.base_of_empty
    stop := hstops ▸ h.stop }

theorem page_pos (h : geometry.Describes loads) : 0x1000 ≤ geometry.page.toNat :=
  h.page.2 (Set.mem_insert _ _)

theorem le_page (h : geometry.Describes loads) {record : LoadRecord} (hmem : record ∈ loads)
    (hrecord : record.HasMemory) (halign : 1 < record.align) :
    record.align ≤ geometry.page :=
  UInt64.le_iff_toNat_le.2
    (h.page.2 (Set.mem_insert_of_mem _ (value_mem_keptValues hmem ⟨hrecord, halign⟩)))

theorem base_le (h : geometry.Describes loads) {record : LoadRecord} (hmem : record ∈ loads)
    (hrecord : record.HasMemory) : geometry.base.toNat ≤ record.vaddr.toNat :=
  (h.base ⟨_, value_mem_keptValues hmem hrecord⟩).1.2 (value_mem_keptValues hmem hrecord)

/-- The end of the span is an address. -/
theorem stop_lt (h : geometry.Describes loads) :
    geometry.base.toNat + geometry.span.toNat < 2 ^ 64 := by
  obtain ⟨n, -, hstop⟩ := h.stop
  omega

/-- The span reaches the end of every record with memory, or the largest address. -/
theorem min_stop_le (h : geometry.Describes loads) {record : LoadRecord}
    (hmem : record ∈ loads) (hrecord : record.HasMemory) :
    min record.stop (2 ^ 64 - 1) ≤ geometry.base.toNat + geometry.span.toNat := by
  obtain ⟨n, hn, hstop⟩ := h.stop
  have hle : record.stop ≤ n := hn.1.2 (value_mem_keptValues hmem hrecord)
  omega

theorem empty (h : geometry.Describes loads) (hempty : vaddrs loads = ∅) :
    geometry.base = 0 ∧ geometry.span = 0 := by
  have hbase := h.base_of_empty hempty
  obtain ⟨n, hn, hstop⟩ := h.stop
  have hzero : n ≤ 0 := by
    refine hn.2 ⟨Nat.dvd_zero _, ?_⟩
    rintro _ ⟨record, hmem, hrecord, -⟩
    exact absurd (value_mem_keptValues hmem hrecord) (hempty ▸ Set.notMem_empty _)
  rw [hbase] at hstop
  refine ⟨hbase, UInt64.toNat_inj.1 ?_⟩
  rw [UInt64.toNat_zero] at hstop ⊢
  omega

end ImageGeometry.Describes

/-! ## The loop computes it -/

namespace GeometryFold

variable (loads : List LoadRecord)

theorem step_of_hasMemory (fold : GeometryFold) {record : LoadRecord} (h : record.HasMemory) :
    fold.step record = {
      minVaddr := some (fold.minVaddr.elim record.vaddr fun current =>
        min current record.vaddr)
      maxEnd := max fold.maxEnd (saturatingAdd record.vaddr record.memsz)
      page := if 1 < record.align then max fold.page record.align else fold.page } :=
  if_neg h

theorem step_of_not_hasMemory (fold : GeometryFold) {record : LoadRecord}
    (h : ¬record.HasMemory) : fold.step record = fold := if_pos (not_not.1 h)

theorem isGreatest_page :
    IsGreatest (insert 0x1000 (aligns loads)) (loads.foldl step init).page.toNat := by
  refine isGreatest_foldl (fun fold : GeometryFold => fold.page.toNat) ?_ ?_ init loads
  · rintro fold record ⟨hrecord, halign⟩
    rw [step_of_hasMemory fold hrecord, if_pos halign, toNat_max, max_comm]
  · intro fold record h
    by_cases hrecord : record.HasMemory
    · rw [step_of_hasMemory fold hrecord, if_neg fun halign => h ⟨hrecord, halign⟩]
    · rw [step_of_not_hasMemory fold hrecord]

theorem holdsLeast_minVaddr :
    HoldsLeast (vaddrs loads) ((loads.foldl step init).minVaddr.map UInt64.toNat) := by
  refine holdsLeast_foldl (fun fold : GeometryFold => fold.minVaddr.map UInt64.toNat)
    ?_ ?_ rfl loads
  · intro fold record hrecord
    rw [step_of_hasMemory fold hrecord]
    cases fold.minVaddr with
    | none => rfl
    | some least => exact congrArg some (toNat_min least record.vaddr)
  · intro fold record hrecord
    rw [step_of_not_hasMemory fold hrecord]

theorem isGreatest_maxEnd :
    IsGreatest (insert 0 (keptValues HasMemory (fun record => min record.stop (2 ^ 64 - 1)) loads))
      (loads.foldl step init).maxEnd.toNat := by
  refine isGreatest_foldl (fun fold : GeometryFold => fold.maxEnd.toNat) ?_ ?_ init loads
  · intro fold record hrecord
    rw [step_of_hasMemory fold hrecord, toNat_max, toNat_saturatingAdd, max_comm]
    rfl
  · intro fold record hrecord
    rw [step_of_not_hasMemory fold hrecord]

/-- The running end is the highest end, cut off at the largest address. -/
theorem maxEnd_eq_min {stop : ℕ} (h : IsGreatest (insert 0 (stops loads)) stop) :
    (loads.foldl step init).maxEnd.toNat = min stop (2 ^ 64 - 1) := by
  have hcut := isGreatest_maxEnd loads
  apply Nat.le_antisymm
  · rcases hcut.1 with hzero | ⟨record, hmem, hrecord, hstop⟩
    · rw [hzero]
      exact Nat.zero_le _
    · have hle : record.stop ≤ stop := h.2 (Or.inr (value_mem_keptValues hmem hrecord))
      rw [← hstop]
      exact min_le_min_right _ hle
  · rcases h.1 with rfl | ⟨record, hmem, hrecord, rfl⟩
    · exact Nat.zero_le _
    · exact hcut.2 (Or.inr (value_mem_keptValues hmem hrecord))

end GeometryFold

/-- Records without memory have the geometry of the page alone. -/
theorem ImageGeometry.describes_of_empty {loads : List LoadRecord} {page : UInt64}
    (hpage : IsGreatest (insert 0x1000 (aligns loads)) page.toNat) (hempty : vaddrs loads = ∅) :
    ImageGeometry.Describes { base := 0, page, span := 0 } loads := by
  have hzero : 0 ∈ upperBounds (stops loads) := by
    rintro _ ⟨record, hmem, hrecord, -⟩
    exact absurd (value_mem_keptValues hmem hrecord) (hempty ▸ Set.notMem_empty _)
  exact {
    page := hpage
    base := fun hvaddrs => absurd hempty hvaddrs.ne_empty
    base_of_empty := fun _ => rfl
    stop := ⟨0, ⟨⟨Nat.dvd_zero _, hzero⟩, fun n _ => Nat.zero_le n⟩, rfl⟩ }

/-- Rounding the lowest address down and the highest end up gives the geometry. -/
theorem ImageGeometry.describes_of_least {loads : List LoadRecord} {page least maxEnd : UInt64}
    {stop : ℕ} (hpage : IsGreatest (insert 0x1000 (aligns loads)) page.toNat)
    (hleast : IsLeast (vaddrs loads) least.toNat) (hstop : IsGreatest (insert 0 (stops loads)) stop)
    (hend : maxEnd.toNat = min stop (2 ^ 64 - 1)) :
    ImageGeometry.Describes {
      base := least - least % page
      page
      span := saturatingSub (alignUp maxEnd page) (least - least % page) } loads := by
  have hpos : 0x1000 ≤ page.toNat := hpage.2 (Set.mem_insert _ _)
  have hbase : (least - least % page).toNat = least.toNat - least.toNat % page.toNat := by
    rw [UInt64.toNat_sub_of_le, UInt64.toNat_mod]
    rw [UInt64.le_iff_toNat_le, UInt64.toNat_mod]
    exact Nat.mod_le _ _
  have hreach : least.toNat ≤ stop := by
    obtain ⟨record, hmem, hrecord, hvaddr⟩ := hleast.1
    have hle : record.stop ≤ stop := hstop.2 (Or.inr (value_mem_keptValues hmem hrecord))
    rw [← hvaddr]
    exact (Nat.le_add_right _ _).trans hle
  refine { page := hpage, base := fun _ => ?_, base_of_empty := fun hempty => ?_, stop := ?_ }
  · rw [hbase]
    exact isGreatest_multiple_lowerBounds hleast _
  · exact absurd hempty (Set.Nonempty.ne_empty ⟨_, hleast.1⟩)
  · have hround := le_nextCongruent stop 0 page.toNat
    have hlt := least.toNat_lt
    refine ⟨_, isLeast_multiple_upperBounds hstop (by omega : 0 < page.toNat), ?_⟩
    dsimp only
    rw [toNat_saturatingSub, toNat_alignUp _ _ (by omega : 1 < page.toNat), hend,
      min_nextCongruent_min, hbase]
    omega

/-- The geometry loop computes the geometry of its records. -/
theorem geometry_describes (loads : List LoadRecord) : (geometry loads).Describes loads := by
  have hpage := GeometryFold.isGreatest_page loads
  have hleast := GeometryFold.holdsLeast_minVaddr loads
  obtain ⟨stop, hstop⟩ : ∃ stop, IsGreatest (insert 0 (stops loads)) stop :=
    exists_isGreatest_keptValues HasMemory LoadRecord.stop 0 loads
  have hend := GeometryFold.maxEnd_eq_min loads hstop
  rw [geometry]
  dsimp only
  cases hmin : (loads.foldl GeometryFold.step GeometryFold.init).minVaddr with
  | none =>
      rw [hmin] at hleast
      exact ImageGeometry.describes_of_empty hpage hleast
  | some least =>
      rw [hmin] at hleast
      exact ImageGeometry.describes_of_least hpage hleast hstop hend

example : geometry [⟨0x1234, 0x10, 0x3000⟩, ⟨0x9000, 0, 0x10000⟩, ⟨0x8000, 1, 0⟩] =
    { base := 0, page := 0x3000, span := 0x9000 } := by decide

/-- The geometry depends on the records with memory only, and not on their order. -/
theorem geometry_congr {loads loads' : List LoadRecord}
    (h : ∀ record : LoadRecord, record.HasMemory → (record ∈ loads ↔ record ∈ loads')) :
    geometry loads = geometry loads' :=
  ((geometry_describes loads).congr h).unique (geometry_describes loads')

/-- The base is at or below a load with memory, and the span reaches the load's end. -/
theorem ElfImage.span_encloses {image : ElfImage} {segment : Segment}
    (hmem : segment ∈ image.segments) (hload : segment.header.type = SegmentType.load)
    (h : segment.header.memsz ≠ 0) :
    image.imageBase.toNat ≤ segment.header.vaddr.toNat ∧
      min (segment.header.vaddr.toNat + segment.header.memsz.toNat) (2 ^ 64 - 1) ≤
        image.imageBase.toNat + image.imageSpan.toNat := by
  have hrecord : segment.header.loadRecord ∈
      loadRecords (image.segments.map Segment.header) := by
    refine List.mem_map.2 ⟨segment.header, List.mem_filter.2 ⟨?_, ?_⟩, rfl⟩
    · exact List.mem_map.2 ⟨segment, hmem, rfl⟩
    · simpa [ProgramHeader.isLoad] using hload
  have hdescribes := geometry_describes (loadRecords (image.segments.map Segment.header))
  exact ⟨hdescribes.base_le hrecord h, hdescribes.min_stop_le hrecord h⟩

/-- The geometry of a list of records: its page, base and span are the bounds the records
with memory determine, its end is an address, and neither the order of the records nor the
ones without memory matter. -/
theorem geometry_correct (loads : List LoadRecord) :
    (0x1000 ≤ (geometry loads).page ∧ ∀ record ∈ loads, record.memsz ≠ 0 → 1 < record.align →
      record.align ≤ (geometry loads).page) ∧
    ((∃ record ∈ loads, record.memsz ≠ 0) →
      IsGreatest {n | (geometry loads).page.toNat ∣ n ∧
        ∀ record ∈ loads, record.memsz ≠ 0 → n ≤ record.vaddr.toNat}
        (geometry loads).base.toNat) ∧
    ((∀ record ∈ loads, record.memsz = 0) →
      (geometry loads).base = 0 ∧ (geometry loads).span = 0) ∧
    (geometry loads).base.toNat + (geometry loads).span.toNat < 2 ^ 64 ∧
    (∀ record ∈ loads, record.memsz ≠ 0 →
      record.vaddr.toNat + record.memsz.toNat < 2 ^ 64 →
      (geometry loads).base.toNat ≤ record.vaddr.toNat ∧
        record.vaddr.toNat - (geometry loads).base.toNat + record.memsz.toNat ≤
          (geometry loads).span.toNat) ∧
    (∃ n, IsLeast {n | (geometry loads).page.toNat ∣ n ∧
        ∀ record ∈ loads, record.memsz ≠ 0 → record.vaddr.toNat + record.memsz.toNat ≤ n} n ∧
      (n < 2 ^ 64 → (geometry loads).base.toNat + (geometry loads).span.toNat = n) ∧
      (2 ^ 64 ≤ n →
        (geometry loads).base.toNat + (geometry loads).span.toNat = 2 ^ 64 - 1)) ∧
    (∀ loads' : List LoadRecord, loads'.Perm loads → geometry loads' = geometry loads) ∧
    geometry (loads.filter fun record => record.memsz ≠ 0) = geometry loads := by
  have h := geometry_describes loads
  refine ⟨⟨UInt64.le_iff_toNat_le.2 h.page_pos, fun record hmem hrecord halign =>
    h.le_page hmem hrecord halign⟩, ?_, ?_, h.stop_lt, ?_, ?_, ?_, ?_⟩
  · rintro ⟨record, hmem, hrecord⟩
    have hbase := h.base ⟨_, value_mem_keptValues hmem hrecord⟩
    simp only [vaddrs, mem_lowerBounds_keptValues] at hbase
    exact hbase
  · intro hempty
    refine h.empty (Set.eq_empty_of_forall_notMem ?_)
    rintro _ ⟨record, hmem, hrecord, -⟩
    exact hrecord (hempty record hmem)
  · intro record hmem hrecord hfits
    have hbase := h.base_le hmem hrecord
    have hreach := h.min_stop_le hmem hrecord
    rw [LoadRecord.stop] at hreach
    omega
  · obtain ⟨n, hn, hstop⟩ := h.stop
    simp only [stops, mem_upperBounds_keptValues] at hn
    exact ⟨n, hn, by omega, by omega⟩
  · exact fun loads' hperm => geometry_congr fun record _ => hperm.mem_iff
  · refine geometry_congr fun record hrecord => ?_
    rw [List.mem_filter, decide_eq_true_eq, and_iff_left (show record.memsz ≠ 0 from hrecord)]

end Elfex
