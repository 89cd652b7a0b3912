import Elfex.Foundation.Painting
import Elfex.Image.Edits

/-!
# The file a build returns

An image whose header announces its class is serialized exactly when its layout fits: both
tables have counts of 16 bits and the layout ends within the size limit. The file is then
the layout itself, with zeros between its extents; otherwise the serializer refuses.
-/

namespace Elfex

open Foundation

/-! ## The stages succeed -/

section Placements

variable {α β : Type} {payload : α → List UInt8} {position : α → UInt64 → UInt64}
  (skipped : α → β) (placed : α → UInt64 → β)

theorem exists_placeEach {items : List α} {cursor : UInt64}
    (hfit : ∀ e ∈ extentsOf payload position items cursor, e.stop ≤ maxImage)
    (out : List UInt8) :
    ∃ result, placeEach payload position skipped placed items out cursor = .ok result := by
  induction items generalizing cursor out with
  | nil => exact ⟨_, rfl⟩
  | cons item rest ih =>
      rw [placeEach]
      by_cases hpayload : payload item = []
      · rw [extentsOf_cons_of_eq_nil hpayload] at hfit
        obtain ⟨result, hresult⟩ := ih hfit out
        rw [if_pos hpayload, hresult]
        exact ⟨_, rfl⟩
      · rw [extentsOf_cons_of_ne_nil hpayload, List.forall_mem_cons] at hfit
        have hstop : (position item cursor).toNat + (payload item).length ≤ maxImage := hfit.1
        have hmax : maxImage < 2 ^ 64 := by decide
        obtain ⟨result, hresult⟩ :=
          ih hfit.2 (overwrite 0 out (position item cursor).toNat (payload item))
        rw [if_neg hpayload]
        dsimp only
        rw [writeAt_eq_ok.2 ⟨hstop, rfl⟩, Outcome.ok_bind,
          Outcome.add_of_lt (by rw [toNat_ofNat_of_lt (by omega)]; omega), Outcome.ok_bind,
          hresult]
        exact ⟨_, rfl⟩

end Placements

theorem exists_placeSections {sections : List Section} {cursor : UInt64}
    (hfit : ∀ e ∈ extentsOf Section.written Section.position (namedSections sections) cursor,
      e.stop ≤ maxImage) (out : List UInt8) :
    ∃ result, placeSections sections out cursor = .ok result := by
  rw [placeSections]
  by_cases hempty : sections = []
  · rw [if_pos hempty]
    exact ⟨_, rfl⟩
  · rw [namedSections, if_neg hempty] at hfit
    obtain ⟨result, hresult⟩ := exists_placeEach Section.skipped Section.placed hfit out
    rw [if_neg hempty]
    dsimp only
    rw [hresult]
    exact ⟨_, rfl⟩

namespace ElfImage

variable {image : ElfImage}

/-- The end of the file a build lays out. -/
def layoutEnd (image : ElfImage) : ℕ := image.layout.foldl (fun n e => max n e.stop) 0

/-- The tables can be counted and the file ends within the size limit. -/
structure FitsLayout (image : ElfImage) : Prop where
  segmentCount : image.segments.length < 2 ^ 16
  sectionCount : image.builtSections.length < 2 ^ 16
  limit : image.layoutEnd ≤ maxImage

instance (image : ElfImage) : Decidable image.FitsLayout :=
  decidable_of_iff (image.segments.length < 2 ^ 16 ∧ image.builtSections.length < 2 ^ 16 ∧
      image.layoutEnd ≤ maxImage)
    ⟨fun h => ⟨h.1, h.2.1, h.2.2⟩, fun h => ⟨h.segmentCount, h.sectionCount, h.limit⟩⟩

theorem FitsLayout.stop_le (h : image.FitsLayout) {e : Extent UInt8} (he : e ∈ image.layout) :
    e.stop ≤ maxImage :=
  ((Extent.foldl_max_stop_le_iff _ _ _).1 h.limit).2 e he

/-- A build ends where its layout does. -/
theorem Built.length_eq {b : List UInt8} (h : image.Built b) : b.length = image.layoutEnd :=
  h.stacked.foldl_max_stop.symm

theorem exists_writeSectionTable (hfits : image.FitsLayout) (out : List UInt8) :
    ∃ result, writeSectionTable image.ident.data image.ident.elfClass image.builtSections out
      image.sectionsEnd = .ok result := by
  rw [writeSectionTable]
  by_cases hempty : image.builtSections = []
  · rw [if_pos hempty]
    exact ⟨_, rfl⟩
  · have hstop := hfits.stop_le (e := ⟨image.builtShoff.toNat, image.builtSections.flatMap
      fun sec => sec.header.write image.ident.data image.ident.elfClass⟩)
      (by simp [layout, sectionTable, hempty])
    rw [Extent.stop, builtShoff, if_neg hempty] at hstop
    rw [if_neg hempty]
    dsimp only
    rw [writeAt_eq_ok.2 ⟨hstop, rfl⟩]
    exact ⟨_, rfl⟩

/-- An image whose layout fits is serialized. -/
theorem exists_tryBuild (hclass : image.header.ident.elfClass = image.ident.elfClass)
    (hfits : image.FitsLayout) : ∃ b, image.tryBuild = .ok b := by
  have hcount := hfits.segmentCount
  obtain ⟨hclamp, hmul, htable⟩ := image.tableSize_fits (by omega)
  have hstop : ∀ e ∈ image.segmentExtents ++ image.sectionExtents, e.stop ≤ maxImage :=
    fun e he => hfits.stop_le (by
      rw [layout]
      exact List.mem_cons_of_mem _ (List.mem_cons_of_mem _ (List.mem_append_left _ he)))
  rw [List.forall_mem_append] at hstop
  rw [tryBuild]
  dsimp only
  rw [Outcome.mul_of_lt (by rw [hclamp]; omega), Outcome.ok_bind,
    Outcome.add_of_lt (by rw [hmul]; exact htable), Outcome.ok_bind]
  rw [show ElfHeader.size image.ident.elfClass + ProgramHeader.size image.ident.elfClass *
    clampWord image.segments.length = image.tableEnd from rfl]
  -- the payloads
  obtain ⟨⟨phdrs, out₁, cursor₁⟩, hplaced⟩ := exists_placeEach Segment.skippedHeader
    Segment.placedHeader hstop.1 (List.replicate (ElfHeader.size image.ident.elfClass).toNat 0)
  have hroom₁ := (placeEach_ensures Segment.written Segment.position Segment.skippedHeader
    Segment.placedHeader image.segments _ _).2 _ hplaced
  obtain ⟨hphdrs, rfl, -, -⟩ := placeEach_eq_ok hplaced
  rw [hplaced, Outcome.ok_bind]
  dsimp only
  obtain ⟨⟨shstrndx, sections, out₂, cursor₂⟩, hsections⟩ := exists_placeSections hstop.2 out₁
  have hroom₂ := (placeSections_ensures image.sections _ _).2 _ hsections
  obtain ⟨-, hplaces⟩ := placeSections_eq_ok hsections
  obtain ⟨hsecs, rfl, -, -⟩ := placeEach_eq_ok hplaces
  rw [show cursorAfter Segment.written Segment.position image.segments image.tableEnd =
    image.segmentsEnd from rfl, hsections, Outcome.ok_bind]
  dsimp only
  obtain rfl : phdrs = image.builtProgramHeaders := hphdrs
  obtain rfl : sections = image.builtSections := hsecs
  -- the tables
  have hend : image.programTable.stop ≤ maxImage := hfits.stop_le (by simp [layout])
  obtain ⟨out₃, hwrite⟩ : ∃ out₃, writeAt out₂ (ElfHeader.size image.ident.elfClass)
      image.programTable.bytes = .ok out₃ := ⟨_, writeAt_eq_ok.2 ⟨hend, rfl⟩⟩
  have hroom₃ := ((writeAt_ensures _ _ _).2 _ hwrite).2
  rw [show image.builtProgramHeaders.flatMap (fun phdr =>
    phdr.write image.ident.data image.ident.elfClass) = image.programTable.bytes from rfl,
    hwrite, Outcome.ok_bind, countU16, if_pos, Outcome.ok_bind, countU16,
    if_pos hfits.sectionCount, Outcome.ok_bind]
  · obtain ⟨⟨shoff, out₄⟩, hsectionTable⟩ := exists_writeSectionTable hfits out₃
    have hroom₄ := (writeSectionTable_ensures _ _ _ _ _).2 _ hsectionTable
    rw [show cursorAfter Section.written Section.position (namedSections image.sections)
      image.segmentsEnd = image.sectionsEnd from rfl, hsectionTable, Outcome.ok_bind,
      copyFromSlice, if_pos]
    · exact ⟨_, rfl⟩
    · rw [List.length_replicate] at hroom₁
      refine ⟨Nat.zero_le _, ((hroom₁.trans hroom₂).trans hroom₃).trans hroom₄, ?_⟩
      rw [ElfHeader.length_write, hclass, Nat.sub_zero]
  · rw [builtProgramHeaders, length_recordsOf]
    exact hcount

theorem fitsLayout_of_tryBuild {b : List UInt8} (h : image.tryBuild = .ok b) :
    image.FitsLayout := by
  have hbuilt := tryBuild_eq_ok h
  exact ⟨hbuilt.segmentCount, hbuilt.sectionCount, hbuilt.length_eq ▸ hbuilt.limit⟩

/-- The built file shows the layout, and zeros between its extents. -/
theorem eq_render_of_tryBuild {b : List UInt8} (h : image.tryBuild = .ok b) :
    b = Extent.render 0 image.layoutEnd image.layout := by
  have hbuilt := tryBuild_eq_ok h
  have hroom : (ElfHeader.size image.ident.elfClass).toNat ≤ b.length := by
    rw [← headerExtent_stop (elfClass_of_tryBuild h)]
    exact (hbuilt.stacked.bounds (by simp [layout])).2
  rw [← hbuilt.length_eq, ← hbuilt.stacked.paint_eq_render image.layout_perm_paintOrder
    (by simp [layout]) 0 hroom]
  exact (tryBuild_paints h).painted

/-- A build succeeds exactly when its layout fits, and then returns the layout with zeros
between its extents; it refuses every other image. -/
theorem tryBuild_exact (hclass : image.header.ident.elfClass = image.ident.elfClass)
    (hsegments : 56 * image.segments.length ≤ isizeMax) :
    (∀ b, image.tryBuild = .ok b ↔
      image.FitsLayout ∧ b = Extent.render 0 image.layoutEnd image.layout) ∧
      (¬image.FitsLayout → image.tryBuild.IsErr) := by
  refine ⟨fun b => ⟨fun h => ⟨fitsLayout_of_tryBuild h, eq_render_of_tryBuild h⟩, ?_⟩, ?_⟩
  · rintro ⟨hfits, rfl⟩
    obtain ⟨b, hb⟩ := exists_tryBuild hclass hfits
    rwa [← eq_render_of_tryBuild hb]
  · intro hfits
    refine ((Outcome.defined_iff _).1 (tryBuild_defined hclass hsegments)).resolve_left ?_
    rintro ⟨b, hb⟩
    exact hfits (fitsLayout_of_tryBuild hb)

/-- The small executable with its load moved to the last byte before an alignment of
512 MiB. -/
def farImage : ElfImage :=
  { imageOf smallFile with
    segments := (imageOf smallFile).segments.map fun segment => (⟨{ segment.header with
      vaddr := 0x1fffffff, align := 0x20000000 }, segment.data⟩ : Segment) }

/-- The small executable is serialized to its layout; with its load moved there is no file
for it within the size limit. -/
theorem smallFile_serialized :
    (imageOf smallFile).tryBuild = .ok (Extent.render 0 (imageOf smallFile).layoutEnd
      (imageOf smallFile).layout) ∧ farImage.tryBuild.IsErr :=
  ⟨((tryBuild_exact (by decide +kernel) (by decide +kernel)).1 _).2 ⟨by decide +kernel, rfl⟩,
    (tryBuild_exact (by decide +kernel) (by decide +kernel)).2 (by decide +kernel)⟩

end ElfImage

end Elfex
