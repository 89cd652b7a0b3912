import Elfex.Image.Edit
import Elfex.Image.Regular
import Elfex.Image.Reparse

/-!
# Runs of edits

A parsed image can be edited in any order through its file header, its segments, its
sections, its bytes and its base. No edit reaches the identification the serializer takes
its sizes and its byte order from, but the file header holds a second one, which the
serializer announces. As long as the two agree in class and byte order, the serializer
never panics and the built file is encoded as it announces.
-/

namespace Elfex

open Foundation

/-! ## The serializer does not fault -/

theorem writeAt_ensures (out : List UInt8) (offset : UInt64) (bytes : List UInt8) :
    (writeAt out offset bytes).Ensures fun out' =>
      offset.toNat + bytes.length ≤ maxImage ∧ out.length ≤ out'.length := by
  have hdefined : (writeAt out offset bytes).Defined := by
    rw [writeAt]
    split
    · exact Outcome.defined_fail _
    split
    · exact Outcome.defined_fail _
    · exact Outcome.defined_ok _
  refine ⟨hdefined, fun out' h => ?_⟩
  obtain ⟨hstop, rfl⟩ := writeAt_eq_ok.1 h
  rw [length_overwrite]
  exact ⟨hstop, Nat.le_max_left _ _⟩

theorem placeEach_ensures {α β : Type} (payload : α → List UInt8)
    (position : α → UInt64 → UInt64) (skipped : α → β) (placed : α → UInt64 → β)
    (items : List α) (out : List UInt8) (cursor : UInt64) :
    (placeEach payload position skipped placed items out cursor).Ensures fun result =>
      out.length ≤ result.2.1.length := by
  induction items generalizing out cursor with
  | nil => exact Outcome.Ensures.ok (Nat.le_refl _)
  | cons item rest ih =>
      rw [placeEach]
      split
      · refine (ih out cursor).bind fun result hresult => ?_
        exact Outcome.Ensures.ok hresult
      · refine (writeAt_ensures out _ _).bind fun out' hout' => ?_
        have hmax : maxImage < 2 ^ 64 := by decide
        have hlen : (UInt64.ofNat (payload item).length).toNat = (payload item).length :=
          toNat_ofNat_of_lt (by omega)
        rw [Outcome.add_of_lt (by omega), Outcome.ok_bind]
        refine (ih out' _).bind fun result hresult => ?_
        exact Outcome.Ensures.ok (hout'.2.trans hresult)

theorem placeSections_ensures (sections : List Section) (out : List UInt8) (cursor : UInt64) :
    (placeSections sections out cursor).Ensures fun result =>
      out.length ≤ result.2.2.1.length := by
  rw [placeSections]
  split
  · exact Outcome.Ensures.ok (Nat.le_refl _)
  · refine (placeEach_ensures Section.written Section.position Section.skipped Section.placed
      (assignNameOffsets (ensureShstrtab sections).2) out cursor).bind fun result hresult => ?_
    exact Outcome.Ensures.ok hresult

theorem countU16_defined (n : ℕ) (message : String) : (countU16 n message).Defined := by
  rw [countU16]
  split
  · exact Outcome.defined_ok _
  · exact Outcome.defined_fail _

theorem writeSectionTable_ensures (endian : Endian) (elfClass : ElfClass)
    (sections : List Section) (out : List UInt8) (cursor : UInt64) :
    (writeSectionTable endian elfClass sections out cursor).Ensures fun result =>
      out.length ≤ result.2.length := by
  rw [writeSectionTable]
  split
  · exact Outcome.Ensures.ok (Nat.le_refl _)
  · exact (writeAt_ensures out _ _).bind fun out' hout' => Outcome.Ensures.ok hout'.2

namespace ElfImage

/-- The two identifications announce one class and one byte order. -/
structure SameEncoding (announced ident : ElfIdent) : Prop where
  elfClass : announced.elfClass = ident.elfClass
  data : announced.data = ident.data

/-- With the class of its file header the serializer never faults: the table of a vector
of segments does not overflow, and the header fills the place reserved for it. -/
theorem tryBuild_defined {image : ElfImage}
    (hclass : image.header.ident.elfClass = image.ident.elfClass)
    (hsegments : 56 * image.segments.length ≤ isizeMax) : image.tryBuild.Defined := by
  have hmax : isizeMax = 2 ^ 63 - 1 := rfl
  obtain ⟨hclamp, hmul, hfits⟩ := image.tableSize_fits (by omega)
  refine (show image.tryBuild.Ensures fun _ => True from ?_).defined
  rw [tryBuild]
  dsimp only
  rw [Outcome.mul_of_lt (by rw [hclamp]; omega), Outcome.ok_bind,
    Outcome.add_of_lt (by rw [hmul]; exact hfits), Outcome.ok_bind]
  refine (placeEach_ensures Segment.written Segment.position Segment.skippedHeader
    Segment.placedHeader image.segments _ _).bind fun placed hplaced => ?_
  rw [List.length_replicate] at hplaced
  refine (placeSections_ensures image.sections _ _).bind fun sections hsections => ?_
  refine (writeAt_ensures _ _ _).bind fun out hout => ?_
  refine (Outcome.Ensures.of_defined (countU16_defined _ _)).bind fun phnum _ => ?_
  refine (Outcome.Ensures.of_defined (countU16_defined _ _)).bind fun shnum _ => ?_
  refine (writeSectionTable_ensures _ _ _ _ _).bind fun table htable => ?_
  refine Outcome.Ensures.of_defined ?_
  rw [copyFromSlice, if_pos]
  · exact Outcome.defined_ok _
  · refine ⟨Nat.zero_le _, ((hplaced.trans hsections).trans hout.2).trans htable, ?_⟩
    rw [ElfHeader.length_write, hclass, Nat.sub_zero]

/-- The header and the two header tables of `b` are encoded in the class and the byte
order that the identification of `b` announces. -/
structure EncodedAsAnnounced (image : ElfImage) (b : List UInt8) : Prop where
  header : Extent.Held ⟨0, { image.builtHeader with ident := identOf b }.write⟩ b
  programHeaders : Extent.Held ⟨(headerOf b).phoff.toNat,
    image.builtProgramHeaders.flatMap fun phdr =>
      phdr.write (identOf b).data (identOf b).elfClass⟩ b
  sectionHeaders : image.builtSections ≠ [] → Extent.Held ⟨(headerOf b).shoff.toNat,
    image.builtSections.flatMap fun sec =>
      sec.header.write (identOf b).data (identOf b).elfClass⟩ b

/-- The serializer does not panic, and what it returns is encoded as announced. -/
structure Coherent (image : ElfImage) : Prop where
  defined : image.tryBuild.Defined
  encoded : ∀ b, image.tryBuild = .ok b → image.EncodedAsAnnounced b

/-- The image with the identification its file header announces. -/
def announced (image : ElfImage) : ElfImage := { image with ident := image.header.ident }

section Announced

variable {image : ElfImage} (h : SameEncoding image.header.ident image.ident)

include h

/-- The serializer reads the class and the byte order of the identification only. -/
theorem tryBuild_announced : image.announced.tryBuild = image.tryBuild := by
  simp only [tryBuild, announced, h.elfClass, h.data]

theorem tableEnd_announced : image.announced.tableEnd = image.tableEnd := by
  simp only [tableEnd, announced, h.elfClass]

theorem builtProgramHeaders_announced :
    image.announced.builtProgramHeaders = image.builtProgramHeaders := by
  rw [builtProgramHeaders, tableEnd_announced h]
  rfl

theorem segmentsEnd_announced : image.announced.segmentsEnd = image.segmentsEnd := by
  rw [segmentsEnd, tableEnd_announced h]
  rfl

theorem builtSections_announced : image.announced.builtSections = image.builtSections := by
  rw [builtSections, segmentsEnd_announced h]
  rfl

theorem builtShoff_announced : image.announced.builtShoff = image.builtShoff := by
  rw [builtShoff, builtShoff, sectionsEnd, sectionsEnd, builtSections_announced h,
    segmentsEnd_announced h]
  rfl

theorem builtHeader_announced : image.announced.builtHeader = image.builtHeader := by
  rw [builtHeader, builtHeader, builtShoff_announced h, builtSections_announced h]
  simp only [announced, h.elfClass]
  rfl

/-- What a build of an image whose identifications agree holds. -/
theorem present_of_tryBuild {b : List UInt8} (hbuild : image.tryBuild = .ok b) :
    image.announced.Present b := by
  rw [← tryBuild_announced h] at hbuild
  have hbuilt : image.announced.Built b := tryBuild_eq_ok hbuild
  have hpresent := hbuilt.present rfl []
  rwa [List.append_nil] at hpresent

theorem encodedAsAnnounced {b : List UInt8} (hbuild : image.tryBuild = .ok b) :
    image.EncodedAsAnnounced b := by
  have hpresent := present_of_tryBuild h hbuild
  have hident : identOf b = image.announced.ident := (ident_present hpresent).2.2.2
  refine ⟨?_, ?_, fun hne => ?_⟩
  · rw [hident, ← builtHeader_announced h]
    exact hpresent.held image.announced.headerExtent (by simp [layout])
  · rw [hident, hpresent.laidOut.headerOf_phoff, ← builtProgramHeaders_announced h]
    exact hpresent.held image.announced.programTable (by simp [layout])
  · rw [← builtSections_announced h] at hne
    rw [hident, hpresent.laidOut.headerOf_shoff, ← builtSections_announced h]
    exact hpresent.held _ (sectionTable_mem hne)

theorem coherent_of_sameEncoding (hsegments : 56 * image.segments.length ≤ isizeMax) :
    image.Coherent :=
  ⟨tryBuild_defined h.elfClass hsegments, fun _ => encodedAsAnnounced h⟩

end Announced

end ElfImage

/-! ## Edits -/

/-- A public edit of an image. The new segments are a vector, which holds at most
`isize::MAX` bytes. -/
inductive Edit where
  | headerMut (header : ElfHeader)
  | segmentsMut (segments : List Segment) (fits : 56 * segments.length ≤ isizeMax)
  | sectionsMut (sections : List Section)
  | writeAtIoff (ioff : UInt64) (bytes : List UInt8)
  | setRuntimeImageBase (base : UInt64)

namespace Edit

/-- The image after an edit; a rejected write leaves it as it is. -/
def apply (image : ElfImage) : Edit → ElfImage
  | headerMut header => { image with header }
  | segmentsMut segments _ => { image with segments }
  | sectionsMut sections => { image with sections }
  | writeAtIoff ioff bytes => (image.writeAtIoff ioff bytes).getD image
  | setRuntimeImageBase base => { image with runtimeBase := base }

/-- An edit of the file header leaves the class and the byte order of its identification
as those of the image. -/
def KeepsEncoding (ident : ElfIdent) : Edit → Prop
  | headerMut header => ElfImage.SameEncoding header.ident ident
  | _ => True

/-- The image after a sequence of edits. -/
def run (image : ElfImage) (edits : List Edit) : ElfImage := edits.foldl apply image

end Edit

namespace ElfImage

/-- What edits preserve: the identification, its agreement with the file header, and the
bound of the segment vector. -/
structure Editable (ident : ElfIdent) (image : ElfImage) : Prop where
  ident_eq : image.ident = ident
  encoding : SameEncoding image.header.ident ident
  segments : 56 * image.segments.length ≤ isizeMax

/-- A write keeps everything but the payloads. -/
theorem writeAtIoff_keeps {image written : ElfImage} {ioff : UInt64} {bytes : List UInt8}
    (h : image.writeAtIoff ioff bytes = some written) :
    written.ident = image.ident ∧ written.header = image.header ∧
      written.segments.length = image.segments.length := by
  simp only [writeAtIoff, Option.bind_eq_bind, Option.bind_eq_some_iff] at h
  obtain ⟨_, -, _, -, _, -, _, -, hret⟩ := h
  cases hret
  exact ⟨rfl, rfl, List.length_set⟩

/-- No edit reaches the identification of the image. -/
theorem ident_apply (image : ElfImage) (edit : Edit) : (edit.apply image).ident = image.ident := by
  cases edit with
  | headerMut header => rfl
  | segmentsMut segments fits => rfl
  | sectionsMut sections => rfl
  | setRuntimeImageBase base => rfl
  | writeAtIoff ioff bytes =>
      rw [Edit.apply]
      cases hwrite : image.writeAtIoff ioff bytes with
      | none => rfl
      | some written => exact (writeAtIoff_keeps hwrite).1

theorem ident_run (image : ElfImage) (edits : List Edit) :
    (Edit.run image edits).ident = image.ident := by
  induction edits generalizing image with
  | nil => rfl
  | cons edit edits ih => exact (ih (edit.apply image)).trans (ident_apply image edit)

theorem Editable.apply {ident : ElfIdent} {image : ElfImage} (h : Editable ident image)
    {edit : Edit} (hkeeps : edit.KeepsEncoding ident) :
    Editable ident (edit.apply image) := by
  have hident := (ident_apply image edit).trans h.ident_eq
  cases edit with
  | headerMut header => exact ⟨hident, hkeeps, h.segments⟩
  | segmentsMut segments fits => exact ⟨hident, h.encoding, fits⟩
  | sectionsMut sections => exact ⟨hident, h.encoding, h.segments⟩
  | setRuntimeImageBase base => exact ⟨hident, h.encoding, h.segments⟩
  | writeAtIoff ioff bytes =>
      rw [Edit.apply]
      cases hwrite : image.writeAtIoff ioff bytes with
      | none => exact h
      | some written =>
          obtain ⟨hwritten, hheader, hlength⟩ := writeAtIoff_keeps hwrite
          rw [Option.getD_some]
          refine ⟨hwritten.trans h.ident_eq, ?_, ?_⟩
          · rw [hheader]
            exact h.encoding
          · rw [hlength]
            exact h.segments

theorem Editable.run {ident : ElfIdent} {image : ElfImage} (h : Editable ident image)
    {edits : List Edit} (hkeeps : ∀ edit ∈ edits, edit.KeepsEncoding ident) :
    Editable ident (Edit.run image edits) := by
  induction edits generalizing image with
  | nil => exact h
  | cons edit edits ih =>
      exact ih (h.apply (hkeeps edit List.mem_cons_self)) fun next hnext =>
        hkeeps next (List.mem_cons_of_mem edit hnext)

/-- A parsed image is ready for edits. -/
theorem editable_of_parse {data : List UInt8} (hdata : data.length ≤ isizeMax)
    {image : ElfImage} (h : ElfImage.parse data = .ok image) :
    Editable image.ident image := by
  have hident := (regular_of_parse hdata h).1.ident
  refine ⟨rfl, ⟨by rw [hident], by rw [hident]⟩, ?_⟩
  obtain ⟨-, rfl⟩ := (parse_eq_ok hdata).1 h
  have hcount : (imageOf data).segments.length = (headerOf data).phnum.toNat := by
    simp [imageOf, programHeadersOf]
  have hphnum : (headerOf data).phnum.toNat < 2 ^ 16 := (headerOf data).phnum.toNat_lt
  have hmax : isizeMax = 2 ^ 63 - 1 := rfl
  rw [hcount]
  omega

end ElfImage

end Elfex
