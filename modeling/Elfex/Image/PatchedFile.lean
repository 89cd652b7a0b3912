import Elfex.Image.Serialized
import Elfex.Image.WriteRun

/-!
# Runs of writes in the built file

A run of writes moves nothing: the image it leaves is laid out as the image it starts from.
So it can be built whenever the other can, and the two files differ only where the run
writes to a payload, by the bytes it writes there.
-/

namespace Elfex

open Foundation

/-! ## Items of one shape are placed alike -/

section Placements

variable {α β γ : Type} {payload : α → List UInt8} {position : α → UInt64 → UInt64}
  {skipped : α → β} {placed : α → UInt64 → β}

/-- The two items ask for places of one size at the same positions. -/
def PlacedAlike (payload : α → List UInt8) (position : α → UInt64 → UInt64)
    (item item' : α) : Prop :=
  (payload item').length = (payload item).length ∧
    ∀ cursor, position item' cursor = position item cursor

variable {items items' : List α} (h : List.Forall₂ (PlacedAlike payload position) items items')

include h

theorem placements_congr (cursor : UInt64) :
    placements payload position items' cursor = placements payload position items cursor ∧
      cursorAfter payload position items' cursor = cursorAfter payload position items cursor := by
  induction h generalizing cursor with
  | nil => exact ⟨rfl, rfl⟩
  | cons hitem _ ih =>
      obtain ⟨hlength, hposition⟩ := hitem
      simp only [placements, cursorAfter, ← List.length_eq_zero_iff, hlength, hposition, ih,
        and_self]

theorem extentsOf_congr (cursor : UInt64) :
    (extentsOf payload position items' cursor).map Extent.range =
      (extentsOf payload position items cursor).map Extent.range := by
  induction h generalizing cursor with
  | nil => rfl
  | @cons item item' _ _ hitem _ ih =>
      obtain ⟨hlength, hposition⟩ := hitem
      by_cases hpayload : payload item = []
      · have hpayload' : payload item' = [] := by
          rw [← List.length_eq_zero_iff, hlength, hpayload, List.length_nil]
        rw [extentsOf_cons_of_eq_nil hpayload, extentsOf_cons_of_eq_nil hpayload', ih]
      · have hpayload' : payload item' ≠ [] := by
          rwa [ne_eq, ← List.length_eq_zero_iff, hlength, List.length_eq_zero_iff]
        rw [extentsOf_cons_of_ne_nil hpayload, extentsOf_cons_of_ne_nil hpayload',
          List.map_cons, List.map_cons, hposition, hlength, ih, Extent.range, Extent.range,
          Extent.stop, Extent.stop, hlength]

end Placements

/-- Items whose records do not tell them apart have the same records. -/
theorem recordsOf_congr {α β γ : Type} {payload : α → List UInt8}
    {position : α → UInt64 → UInt64} {skipped : α → β} {placed : α → UInt64 → β}
    {items items' : List α} {R : α → α → Prop} (hitems : List.Forall₂ R items items')
    (halike : ∀ item item', R item item' → PlacedAlike payload position item item')
    {f : β → γ} (hrecords : ∀ item item', R item item' → ∀ place,
      f (recordAt skipped placed item' place) = f (recordAt skipped placed item place))
    (cursor : UInt64) :
    (recordsOf payload position skipped placed items' cursor).map f =
      (recordsOf payload position skipped placed items cursor).map f := by
  rw [recordsOf, recordsOf, (placements_congr (hitems.imp halike) cursor).1, List.map_map,
    List.map_map]
  generalize placements payload position items cursor = places
  induction hitems generalizing places with
  | nil => rfl
  | cons hitem _ ih =>
      cases places with
      | nil => rfl
      | cons place places =>
          rw [List.zip_cons_cons, List.zip_cons_cons, List.map_cons, List.map_cons, ih]
          exact congrArg (· :: _) (hrecords _ _ hitem place)

/-! ## Segments and sections of one shape -/

namespace Segment

/-- The segments have one header and as many bytes. -/
def SameShape (segment segment' : Segment) : Prop :=
  segment'.header = segment.header ∧ segment'.data.length = segment.data.length

variable {segment segment' : Segment} (h : segment.SameShape segment')

include h

theorem SameShape.length_written : segment'.written.length = segment.written.length := by
  obtain ⟨hheader, hlength⟩ := h
  rw [written, written, List.length_take, List.length_take, hheader, hlength]

theorem SameShape.placedAlike :
    PlacedAlike Segment.written Segment.position segment segment' :=
  ⟨h.length_written, fun cursor => by rw [position, position, h.1]⟩

theorem SameShape.recordAt_eq (place : Option UInt64) :
    recordAt Segment.skippedHeader Segment.placedHeader segment' place =
      recordAt Segment.skippedHeader Segment.placedHeader segment place := by
  cases place with
  | none => rw [recordAt, recordAt, skippedHeader, skippedHeader, h.1]
  | some offset =>
      rw [recordAt, recordAt, placedHeader, placedHeader, h.1, h.length_written]

end Segment

theorem Segment.getElem?_written {segment : Segment} {j : ℕ} (hj : j < segment.written.length) :
    segment.written[j]? = segment.data[j]? := by
  rw [Segment.written, List.length_take] at hj
  rw [Segment.written, List.getElem?_take, if_pos (lt_of_lt_of_le hj (Nat.min_le_left _ _))]

namespace Section

/-- The sections have one name, one header and as many bytes. -/
structure SameShape (sec sec' : Section) : Prop where
  name : sec'.name = sec.name
  header : sec'.header = sec.header
  length : sec'.data.length = sec.data.length

variable {sec sec' : Section} (h : sec.SameShape sec')

include h

theorem SameShape.isShstrtab_eq : sec'.isShstrtab = sec.isShstrtab := by
  rw [isShstrtab, isShstrtab, h.name, h.header]

theorem SameShape.named (offset : UInt32) (blob : List UInt8) :
    (sec.named offset blob).SameShape (sec'.named offset blob) := by
  refine ⟨by rw [named_name, named_name, h.name], ?_, ?_⟩
  · rw [header_named, header_named, h.header, h.isShstrtab_eq]
  · rw [Section.named, Section.named, h.isShstrtab_eq]
    split
    · rfl
    · exact h.length

theorem SameShape.placedAlike :
    PlacedAlike Section.written Section.position sec sec' := by
  refine ⟨?_, fun cursor => by rw [position, position, h.header]⟩
  rw [written, written, h.header]
  split
  · rfl
  · exact h.length

theorem SameShape.recordAt_eq (place : Option UInt64) :
    (recordAt Section.skipped Section.placed sec' place).header =
      (recordAt Section.skipped Section.placed sec place).header := by
  cases place with
  | none =>
      rw [recordAt, recordAt, skipped, skipped, h.header]
      split <;> simp only [h.header]
  | some offset => simp only [recordAt, placed, h.header, h.length]

end Section

section Lists

variable {sections sections' : List Section}
  (h : List.Forall₂ Section.SameShape sections sections')

include h

theorem ensureShstrtab_congr :
    (ensureShstrtab sections').1 = (ensureShstrtab sections).1 ∧
      List.Forall₂ Section.SameShape (ensureShstrtab sections).2
        (ensureShstrtab sections').2 := by
  have hfind : sections'.findIdx? Section.isShstrtab =
      sections.findIdx? Section.isShstrtab := by
    induction h with
    | nil => rfl
    | cons hsec _ ih => rw [List.findIdx?_cons, List.findIdx?_cons, hsec.isShstrtab_eq, ih]
  rw [ensureShstrtab, ensureShstrtab, hfind]
  cases sections.findIdx? Section.isShstrtab with
  | some index => exact ⟨rfl, h⟩
  | none =>
      exact ⟨by rw [h.length_eq], List.rel_append h (.cons ⟨rfl, rfl, rfl⟩ .nil)⟩

theorem map_name_congr : sections'.map Section.name = sections.map Section.name := by
  induction h with
  | nil => rfl
  | cons hsec _ ih => rw [List.map_cons, List.map_cons, ih, hsec.name]

theorem assignNameOffsets_congr : List.Forall₂ Section.SameShape (assignNameOffsets sections)
    (assignNameOffsets sections') := by
  have hassign : ∀ given : List Section, assignNameOffsets given =
      List.zipWith (fun sec offset => sec.named offset (nameOffsets [0] given).2) given
        (nameOffsets [0] given).1 := fun _ => rfl
  rw [hassign, hassign, nameOffsets_congr (map_name_congr h)]
  generalize (nameOffsets [0] sections).1 = offsets
  generalize (nameOffsets [0] sections).2 = blob
  clear hassign
  induction h generalizing offsets with
  | nil => exact .nil
  | cons hsec _ ih =>
      cases offsets with
      | nil => exact .nil
      | cons offset offsets => exact .cons (hsec.named offset blob) (ih offsets)

theorem namedSections_congr :
    List.Forall₂ Section.SameShape (namedSections sections) (namedSections sections') := by
  have hempty : sections' = [] ↔ sections = [] := by
    rw [← List.length_eq_zero_iff, ← List.length_eq_zero_iff, h.length_eq]
  rw [namedSections, namedSections]
  by_cases hsections : sections = []
  · rw [if_pos hsections, if_pos (hempty.2 hsections)]
    exact .nil
  · rw [if_neg hsections, if_neg (mt hempty.1 hsections)]
    exact assignNameOffsets_congr (ensureShstrtab_congr h).2

end Lists

/-! ## Images of one shape are laid out alike -/

namespace ElfImage

/-- The images differ in the bytes of their segments and sections only. -/
structure LaidOutAlike (image image' : ElfImage) : Prop where
  ident : image'.ident = image.ident
  header : image'.header = image.header
  segments : List.Forall₂ Segment.SameShape image.segments image'.segments
  sections : List.Forall₂ Section.SameShape image.sections image'.sections

namespace LaidOutAlike

variable {image image' : ElfImage} (h : image.LaidOutAlike image')

include h

theorem segments_placed : List.Forall₂ (PlacedAlike Segment.written Segment.position)
    image.segments image'.segments :=
  h.segments.imp fun _ _ => Segment.SameShape.placedAlike

theorem sections_placed : List.Forall₂ (PlacedAlike Section.written Section.position)
    (namedSections image.sections) (namedSections image'.sections) :=
  (namedSections_congr h.sections).imp fun _ _ => Section.SameShape.placedAlike

theorem tableEnd_eq : image'.tableEnd = image.tableEnd := by
  rw [tableEnd, tableEnd, h.ident, h.segments.length_eq]

theorem builtProgramHeaders_eq : image'.builtProgramHeaders = image.builtProgramHeaders := by
  have hrecords := recordsOf_congr (f := id) h.segments
    (fun _ _ => Segment.SameShape.placedAlike) (fun _ _ => Segment.SameShape.recordAt_eq)
    image.tableEnd
  rw [List.map_id, List.map_id] at hrecords
  rw [builtProgramHeaders, builtProgramHeaders, h.tableEnd_eq, hrecords]

theorem segmentsEnd_eq : image'.segmentsEnd = image.segmentsEnd := by
  rw [segmentsEnd, segmentsEnd, h.tableEnd_eq, (placements_congr h.segments_placed _).2]

theorem segmentExtents_range :
    image'.segmentExtents.map Extent.range = image.segmentExtents.map Extent.range := by
  rw [segmentExtents, segmentExtents, h.tableEnd_eq, extentsOf_congr h.segments_placed]

theorem builtSections_header :
    image'.builtSections.map Section.header = image.builtSections.map Section.header := by
  rw [builtSections, builtSections, h.segmentsEnd_eq,
    recordsOf_congr (namedSections_congr h.sections) (fun _ _ => Section.SameShape.placedAlike)
      (fun _ _ => Section.SameShape.recordAt_eq)]

theorem sectionsEnd_eq : image'.sectionsEnd = image.sectionsEnd := by
  rw [sectionsEnd, sectionsEnd, h.segmentsEnd_eq, (placements_congr h.sections_placed _).2]

theorem sectionExtents_range :
    image'.sectionExtents.map Extent.range = image.sectionExtents.map Extent.range := by
  rw [sectionExtents, sectionExtents, h.segmentsEnd_eq, extentsOf_congr h.sections_placed]

theorem length_builtSections : image'.builtSections.length = image.builtSections.length := by
  have hlength := congrArg List.length h.builtSections_header
  rwa [List.length_map, List.length_map] at hlength

theorem builtSections_eq_nil_iff : image'.builtSections = [] ↔ image.builtSections = [] := by
  rw [← List.length_eq_zero_iff, ← List.length_eq_zero_iff, h.length_builtSections]

theorem builtShoff_eq : image'.builtShoff = image.builtShoff := by
  rw [builtShoff, builtShoff, h.sectionsEnd_eq]
  exact if_congr h.builtSections_eq_nil_iff rfl rfl

theorem builtHeader_eq : image'.builtHeader = image.builtHeader := by
  have hempty : image'.sections = [] ↔ image.sections = [] := by
    rw [← List.length_eq_zero_iff, ← List.length_eq_zero_iff, h.sections.length_eq]
  rw [builtHeader, builtHeader, h.header, h.ident, h.builtShoff_eq, h.segments.length_eq,
    h.length_builtSections, (ensureShstrtab_congr h.sections).1]
  simp only [hempty]

theorem headerExtent_eq : image'.headerExtent = image.headerExtent := by
  rw [headerExtent, headerExtent, h.builtHeader_eq]

theorem programTable_eq : image'.programTable = image.programTable := by
  rw [programTable, programTable, h.ident, h.builtProgramHeaders_eq]

theorem sectionTable_eq : image'.sectionTable = image.sectionTable := by
  have htable : ∀ other : ElfImage, other.builtSections.flatMap (fun sec =>
      sec.header.write image.ident.data image.ident.elfClass) =
        (other.builtSections.map Section.header).flatMap fun header =>
          header.write image.ident.data image.ident.elfClass := by
    intro other
    rw [List.flatMap_map]
  rw [sectionTable, sectionTable, h.ident, h.builtShoff_eq, htable, htable,
    h.builtSections_header]
  exact if_congr h.builtSections_eq_nil_iff rfl rfl

theorem layoutEnd_eq : image'.layoutEnd = image.layoutEnd := by
  have hranges : image'.layout.map Extent.range = image.layout.map Extent.range := by
    simp only [layout, h.headerExtent_eq, h.programTable_eq, h.sectionTable_eq, List.map_cons,
      List.map_append, h.segmentExtents_range, h.sectionExtents_range]
  have hend : ∀ other : ElfImage, other.layoutEnd =
      (other.layout.map Extent.range).foldl (fun n range => max n range.2) 0 := by
    intro other
    rw [List.foldl_map]
    rfl
  rw [hend, hend, hranges]

theorem fitsLayout (hfits : image.FitsLayout) : image'.FitsLayout :=
  ⟨h.segments.length_eq ▸ hfits.segmentCount, h.length_builtSections.symm ▸ hfits.sectionCount,
    h.layoutEnd_eq.symm ▸ hfits.limit⟩

end LaidOutAlike

/-! ## The files -/

variable {image : ElfImage} {b b' : List UInt8}

theorem laidOutAlike_writeAll (image : ElfImage) (ws : List Write) :
    image.LaidOutAlike (image.writeAll ws) := by
  have hshape := (image.sameShape_writeAll ws).segments
  have hsegments : List.Forall₂ Segment.SameShape image.segments
      (image.writeAll ws).segments := by
    have hmap : List.Forall₂ Eq
        (image.segments.map fun segment => (segment.header, segment.data.length))
        ((image.writeAll ws).segments.map fun segment =>
          (segment.header, segment.data.length)) := by
      rw [hshape]
      exact List.forall₂_refl _
    rw [List.forall₂_map_left_iff, List.forall₂_map_right_iff] at hmap
    exact hmap.imp fun segment segment' heq =>
      ⟨(Prod.mk.inj heq).1.symm, (Prod.mk.inj heq).2.symm⟩
  rw [writeAll_eq_patched] at hsegments ⊢
  refine ⟨rfl, rfl, hsegments, ?_⟩
  refine List.forall₂_map_right_iff.2 (List.forall₂_same.2 fun sec _ => ⟨rfl, rfl, ?_⟩)
  exact Extent.length_patchAll (image.within_of_mem_sectionHits ws sec)

theorem Built.getElem?_extent (hbuilt : image.Built b) {e : Extent UInt8}
    (he : e ∈ image.segmentExtents ++ image.sectionExtents) {j : ℕ} (hj : j < e.bytes.length) :
    b[e.start + j]? = e.bytes[j]? := by
  have hmem : e ∈ image.layout := by
    rw [layout]
    exact List.mem_cons_of_mem _ (List.mem_cons_of_mem _ (List.mem_append_left _ he))
  have hheld := congrArg (·[j]?) (hbuilt.held e hmem).2
  simpa only [getElem?_window, if_pos hj] using hheld

/-- Where a built file holds the bytes of a segment. -/
theorem Built.getElem?_segment (hbuilt : image.Built b) {i : ℕ} {segment : Segment}
    {phdr : ProgramHeader} (hsegment : image.segments[i]? = some segment)
    (hphdr : image.builtProgramHeaders[i]? = some phdr) {j : ℕ} (hj : j < phdr.filesz.toNat) :
    j < segment.written.length ∧ b[phdr.offset.toNat + j]? = segment.written[j]? := by
  obtain ⟨place, hmem, -, hrecord⟩ := builtProgramHeaders_getElem? hsegment
  obtain rfl := Option.some.inj (hrecord.symm.trans hphdr)
  cases place with
  | none => exact absurd hj (Nat.not_lt_zero j)
  | some offset =>
      rw [recordAt, Segment.placedHeader, UInt64.toNat_ofNat'] at hj
      have hlength := hj.trans_le (Nat.mod_le _ _)
      exact ⟨hlength, hbuilt.getElem?_extent
        (List.mem_append_left _ (mem_extentsOf_of_mem_zip hmem)) hlength⟩

/-- Where a built file holds the bytes of a section. -/
theorem Built.getElem?_section (hbuilt : image.Built b) {i : ℕ} {sec built : Section}
    (hsec : (namedSections image.sections)[i]? = some sec)
    (hrecorded : image.builtSections[i]? = some built) (hnobits : sec.header.isNobits = false)
    {j : ℕ} (hj : j < built.header.size.toNat) :
    j < sec.written.length ∧ b[built.header.offset.toNat + j]? = sec.written[j]? := by
  obtain ⟨place, hmem, hrecord⟩ := builtSections_getElem? hsec
  obtain rfl := Option.some.inj (hrecord.symm.trans hrecorded)
  cases place with
  | none =>
      rw [recordAt, Section.skipped, hnobits] at hj
      exact absurd hj (Nat.not_lt_zero j)
  | some offset =>
      have hwritten : sec.written = sec.data := by
        rw [Section.written, hnobits]
        rfl
      rw [recordAt, Section.placed, UInt64.toNat_ofNat', ← hwritten] at hj
      have hlength := hj.trans_le (Nat.mod_le _ _)
      exact ⟨hlength, hbuilt.getElem?_extent
        (List.mem_append_right _ (mem_extentsOf_of_mem_zip hmem)) hlength⟩

/-- The file of an image after a run of writes is as long as the file of the image. It holds
the last accepted request at every address of a payload, and else the bytes it held. -/
structure PatchedFile (image : ElfImage) (ws : List Write) (b b' : List UInt8) : Prop where
  length : b'.length = b.length
  segments : ∀ (i : ℕ) (segment : Segment) (phdr : ProgramHeader),
    image.segments[i]? = some segment → image.builtProgramHeaders[i]? = some phdr →
      ∀ j < phdr.filesz.toNat, b'[phdr.offset.toNat + j]? =
        (Extent.topmost (image.segmentHits ws i) (segment.header.vaddr.toNat + j)).or
          b[phdr.offset.toNat + j]?
  sections : ∀ (i : ℕ) (sec built : Section), (ensureShstrtab image.sections).2[i]? = some sec →
    image.builtSections[i]? = some built → sec.header.isNobits = false →
      ∀ j < built.header.size.toNat, b'[built.header.offset.toNat + j]? =
        (Extent.topmost (if sec.isShstrtab then [] else image.sectionHits ws sec)
          (sec.header.addr.toNat + j)).or b[built.header.offset.toNat + j]?
  rest : ∀ a, (∀ e ∈ image.segmentExtents ++ image.sectionExtents, a < e.start ∨ e.stop ≤ a) →
    b'[a]? = b[a]?

theorem patched_segment {ws : List Write} (hbuilt : image.Built b)
    (hbuilt' : (image.writeAll ws).Built b') {i : ℕ} {segment : Segment} {phdr : ProgramHeader}
    (hsegment : image.segments[i]? = some segment)
    (hphdr : image.builtProgramHeaders[i]? = some phdr) {j : ℕ} (hj : j < phdr.filesz.toNat) :
    b'[phdr.offset.toNat + j]? =
      (Extent.topmost (image.segmentHits ws i) (segment.header.vaddr.toNat + j)).or
        b[phdr.offset.toNat + j]? := by
  obtain ⟨segment', hsegment', hheader, hget⟩ :=
    (image.lastWritesShow_writeAll ws).segments i segment hsegment
  have hphdr' : (image.writeAll ws).builtProgramHeaders[i]? = some phdr := by
    rw [(image.laidOutAlike_writeAll ws).builtProgramHeaders_eq, hphdr]
  obtain ⟨hlength, hbyte⟩ := hbuilt.getElem?_segment hsegment hphdr hj
  obtain ⟨hlength', hbyte'⟩ := hbuilt'.getElem?_segment hsegment' hphdr' hj
  have hdata := hget (segment.header.vaddr.toNat + j)
  have hold : segment.memory.get? (segment.header.vaddr.toNat + j) = segment.data[j]? :=
    segment.memory.get?_start_add j
  have hnew : segment'.memory.get? (segment.header.vaddr.toNat + j) = segment'.data[j]? := by
    rw [← hheader]
    exact segment'.memory.get?_start_add j
  rw [hbyte, hbyte', Segment.getElem?_written hlength, Segment.getElem?_written hlength', ← hnew,
    hdata, hold]

theorem getElem?_ensureShstrtab {sections : List Section} {i : ℕ} {sec : Section}
    (h : (ensureShstrtab sections).2[i]? = some sec) (hshstrtab : sec.isShstrtab = false) :
    sections[i]? = some sec := by
  obtain ⟨-, -, -, -, -, heq | heq⟩ := ensureShstrtab_spec sections
  · rwa [heq] at h
  · rw [heq, List.getElem?_append] at h
    split at h
    · exact h
    · have hmem := List.mem_singleton.1 (List.mem_of_getElem? h)
      have htable : Section.shstrtab.isShstrtab = true := by decide +kernel
      rw [hmem, htable] at hshstrtab
      cases hshstrtab

theorem ensureShstrtab_getElem? {sections : List Section} {i : ℕ} {sec : Section}
    (h : sections[i]? = some sec) : (ensureShstrtab sections).2[i]? = some sec := by
  obtain ⟨-, -, -, -, -, heq | heq⟩ := ensureShstrtab_spec sections
  · rwa [heq]
  · rw [heq, List.getElem?_append_left (List.getElem?_eq_some_iff.1 h).1, h]

/-- A section is written under its rebuilt name. -/
theorem namedSections_getElem? {sections : List Section} {i : ℕ} {sec : Section}
    (h : (ensureShstrtab sections).2[i]? = some sec) (hne : sections ≠ []) :
    ∃ named, (namedSections sections)[i]? = some named ∧
      named.header.isNobits = sec.header.isNobits ∧ named.written =
        if sec.isShstrtab then nameTable (ensureShstrtab sections).2 else sec.written := by
  obtain ⟨o, -, -, hnamed, -⟩ := assignNameOffsets_getElem? h
  rw [namedSections, if_neg hne]
  refine ⟨_, hnamed, by rw [SectionHeader.isNobits, Section.named_type]; rfl, ?_⟩
  cases hshstrtab : sec.isShstrtab with
  | true => exact Section.written_named hshstrtab _ _
  | false => exact Section.written_named_of_not hshstrtab _ _

theorem sections_ne_nil {i : ℕ} {built : Section} (h : image.builtSections[i]? = some built) :
    image.sections ≠ [] := by
  intro hempty
  rw [builtSections, namedSections, if_pos hempty] at h
  exact absurd h (by simp [recordsOf])

theorem patched_section {ws : List Write} (hbuilt : image.Built b)
    (hbuilt' : (image.writeAll ws).Built b') {i : ℕ} {sec built : Section}
    (hsec : (ensureShstrtab image.sections).2[i]? = some sec)
    (hrecorded : image.builtSections[i]? = some built) (hnobits : sec.header.isNobits = false)
    {j : ℕ} (hj : j < built.header.size.toNat) :
    b'[built.header.offset.toNat + j]? =
      (Extent.topmost (if sec.isShstrtab then [] else image.sectionHits ws sec)
        (sec.header.addr.toNat + j)).or b[built.header.offset.toNat + j]? := by
  have halike := image.laidOutAlike_writeAll ws
  have hsections := (ensureShstrtab_congr halike.sections).2
  obtain ⟨named, hnamed, hkind, hwritten⟩ :=
    namedSections_getElem? hsec (sections_ne_nil hrecorded)
  obtain ⟨-, hbyte⟩ := hbuilt.getElem?_section hnamed hrecorded (hkind.trans hnobits) hj
  -- the section of the run at the same index
  have hheaders := congrArg (·[i]?) halike.builtSections_header
  simp only [List.getElem?_map, hrecorded, Option.map_some, Option.map_eq_some_iff] at hheaders
  obtain ⟨built', hrecorded', hheader'⟩ := hheaders
  obtain ⟨sec', hsec', hsame⟩ := exists_getElem?_of_forall₂ hsections hsec
  obtain ⟨named', hnamed', hkind', hwritten'⟩ :=
    namedSections_getElem? hsec' (sections_ne_nil hrecorded')
  have hnobits' : sec'.header.isNobits = false := by rwa [hsame.header]
  obtain ⟨-, hbyte'⟩ := hbuilt'.getElem?_section hnamed' hrecorded' (hkind'.trans hnobits')
    (hheader'.symm ▸ hj)
  rw [hheader'] at hbyte'
  rw [hbyte, hbyte', hwritten, hwritten', hsame.isShstrtab_eq]
  cases hshstrtab : sec.isShstrtab with
  | true =>
      -- the name table is rebuilt from the names
      rw [if_pos rfl, if_pos rfl, if_pos rfl, Extent.topmost_nil, Option.none_or,
        nameTable_congr (map_name_congr hsections)]
  | false =>
      obtain ⟨sec'', hsec'', hheader, -, hget⟩ := (image.lastWritesShow_writeAll ws).sections i sec
        (getElem?_ensureShstrtab hsec hshstrtab)
      obtain rfl := Option.some.inj (hsec'.symm.trans (ensureShstrtab_getElem? hsec''))
      have hdata := hget (sec.header.addr.toNat + j)
      have hold : sec.memory.get? (sec.header.addr.toNat + j) = sec.data[j]? :=
        sec.memory.get?_start_add j
      have hnew : sec'.memory.get? (sec.header.addr.toNat + j) = sec'.data[j]? := by
        rw [← hheader]
        exact sec'.memory.get?_start_add j
      rw [hold, hnew] at hdata
      simp only [Section.written, hnobits, hnobits', Bool.false_eq_true, if_false, hdata]

/-- Where there is no payload the two files hold the same. -/
theorem patched_rest {ws : List Write} (hbuild : image.tryBuild = .ok b)
    (hbuild' : (image.writeAll ws).tryBuild = .ok b') {a : ℕ}
    (ha : ∀ e ∈ image.segmentExtents ++ image.sectionExtents, a < e.start ∨ e.stop ≤ a) :
    b'[a]? = b[a]? := by
  have halike := image.laidOutAlike_writeAll ws
  have hnone : ∀ es es' : List (Extent UInt8), es'.map Extent.range = es.map Extent.range →
      (∀ e ∈ es, a < e.start ∨ e.stop ≤ a) →
        Extent.topmost es a = none ∧ Extent.topmost es' a = none := by
    intro es es' hranges hout
    simp only [Extent.topmost_eq_none_iff, Extent.get?_eq_none_iff]
    refine ⟨hout, fun e' he' => ?_⟩
    have hrange := List.mem_map_of_mem (f := Extent.range) he'
    rw [hranges] at hrange
    obtain ⟨e, he, heq⟩ := List.mem_map.1 hrange
    obtain ⟨hstart, hstop⟩ := Prod.mk.inj heq
    rw [← hstart, ← hstop]
    exact hout e he
  rw [List.forall_mem_append] at ha
  obtain ⟨hsegments, hsegments'⟩ := hnone _ _ halike.segmentExtents_range ha.1
  obtain ⟨hsections, hsections'⟩ := hnone _ _ halike.sectionExtents_range ha.2
  rw [eq_render_of_tryBuild hbuild, eq_render_of_tryBuild hbuild', Extent.getElem?_render,
    Extent.getElem?_render, halike.layoutEnd_eq, layout, layout, halike.headerExtent_eq,
    halike.programTable_eq, halike.sectionTable_eq]
  simp only [Extent.topmost_cons, Extent.topmost_append, hsegments, hsegments', hsections,
    hsections']

/-- Building after a run of writes gives the file of the image, patched: a run makes no
image unbuildable and moves nothing in its file. -/
theorem tryBuild_writeAll (hbuild : image.tryBuild = .ok b) (ws : List Write) :
    ∃ b', (image.writeAll ws).tryBuild = .ok b' ∧ image.PatchedFile ws b b' := by
  have halike := image.laidOutAlike_writeAll ws
  have hclass : (image.writeAll ws).header.ident.elfClass =
      (image.writeAll ws).ident.elfClass := by
    rw [halike.header, halike.ident]
    exact elfClass_of_tryBuild hbuild
  obtain ⟨b', hbuild'⟩ := exists_tryBuild hclass (halike.fitsLayout (fitsLayout_of_tryBuild hbuild))
  have hbuilt := tryBuild_eq_ok hbuild
  have hbuilt' := tryBuild_eq_ok hbuild'
  refine ⟨b', hbuild', ?_, ?_, ?_, ?_⟩
  · rw [hbuilt.length_eq, hbuilt'.length_eq, halike.layoutEnd_eq]
  · exact fun i segment phdr hsegment hphdr j => patched_segment hbuilt hbuilt' hsegment hphdr
  · exact fun i sec built hsec hrecorded hnobits j =>
      patched_section hbuilt hbuilt' hsec hrecorded hnobits
  · exact fun a => patched_rest hbuild hbuild'

/-- A patched instruction is found in the file twice, in its segment and in its section. -/
theorem smallFile_patched :
    ∃ b b', (imageOf smallFile).tryBuild = .ok b ∧
      ((imageOf smallFile).writeAll [⟨1, [0xcc]⟩]).tryBuild = .ok b' ∧ b'.length = b.length ∧
      b'[129]? = some 0xcc ∧ b'[131]? = some 0xcc ∧ b'[128]? = b[128]? := by
  obtain ⟨b, hbuild⟩ := Outcome.exists_of_isOk smallFile_builds
  obtain ⟨b', hbuild', hpatched⟩ := tryBuild_writeAll hbuild [⟨1, [0xcc]⟩]
  have hphdr : (imageOf smallFile).builtProgramHeaders[0]?.map (fun phdr =>
      (phdr.offset, phdr.filesz)) = some (128, 2) := by decide +kernel
  have hbuilt : (imageOf smallFile).builtSections[0]?.map (fun built =>
      (built.header.offset, built.header.size)) = some (130, 2) := by decide +kernel
  obtain ⟨phdr, hphdr, hrange⟩ := Option.map_eq_some_iff.1 hphdr
  obtain ⟨built, hbuilt, hrange'⟩ := Option.map_eq_some_iff.1 hbuilt
  obtain ⟨hoffset, hfilesz⟩ := Prod.mk.inj hrange
  obtain ⟨hoffset', hsize⟩ := Prod.mk.inj hrange'
  have hsegment := hpatched.segments 0 _ phdr (List.getElem?_eq_getElem (by decide +kernel)) hphdr
  have hsection := hpatched.sections 0 _ built (List.getElem?_eq_getElem (by decide +kernel))
    hbuilt (by decide +kernel) 1 (by rw [hsize]; decide)
  rw [hoffset, hfilesz] at hsegment
  rw [hoffset'] at hsection
  refine ⟨b, b', hbuild, hbuild', hpatched.length, (hsegment 1 (by decide)).trans ?_,
    hsection.trans ?_, (hsegment 0 (by decide)).trans ?_⟩
  · rw [Option.or_eq_some_iff]
    exact Or.inl (by decide +kernel)
  · rw [Option.or_eq_some_iff]
    exact Or.inl (by decide +kernel)
  · rw [Option.or_eq_right_of_none (by decide +kernel)]
    rfl

end ElfImage

end Elfex
