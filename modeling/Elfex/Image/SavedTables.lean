import Elfex.Image.SavedRun
import Elfex.Image.Whole

/-!
# Tables after a run of writes

The linking tables of an image are read from segments other than loads and from a few
sections. No write reaches the former, so a run that misses the latter keeps every table,
and saving and parsing keep it too.
-/

namespace Elfex

open Foundation

/-- The sections that the tables with fixed names are read from. -/
def tableNames : List String := [".dynsym", ".dynstr", ".symtab", ".strtab"]

/-- A section that a table of the image is read from. -/
def Section.IsTable (sec : Section) : Prop :=
  sec.name ∈ tableNames ∨ ElfImage.relocationForm sec.header ≠ none ∨
    sec.header.type = SectionType.note

instance (sec : Section) : Decidable sec.IsTable := inferInstanceAs (Decidable (_ ∨ _ ∨ _))

namespace ElfImage

variable {image image' image'' : ElfImage}

/-- The data of the segments of a type, in table order. -/
def segmentData (image : ElfImage) (type : SegmentType) : List (List UInt8) :=
  (image.segments.filter fun segment => segment.header.type == type).map Segment.data

/-- The relocation sections with their forms, in table order. -/
def relocationSources (image : ElfImage) : List (List UInt8 × Bool) :=
  image.sections.filterMap fun sec =>
    (relocationForm sec.header).map fun isRela => (sec.data, isRela)

/-- The data of the note sections, in table order. -/
def noteSections (image : ElfImage) : List (List UInt8) :=
  (image.sections.filter fun sec => sec.header.type == SectionType.note).map Section.data

/-- What the tables are read from is the same in the two images. -/
structure SameTableBytes (image image' : ElfImage) : Prop where
  ident : image'.ident = image.ident
  segments : ∀ type, type ≠ SegmentType.load → image'.segmentData type = image.segmentData type
  tls : image'.tls = image.tls
  named : ∀ name ∈ tableNames, (image'.sectionByName name).map Section.data =
    (image.sectionByName name).map Section.data
  relocations : image'.relocationSources = image.relocationSources
  notes : image'.noteSections = image.noteSections

/-- The tables of the two images are the same. -/
structure SameTables (image image' : ElfImage) : Prop where
  dynamic : image'.dynamic = image.dynamic
  neededLibraries : image'.neededLibraries = image.neededLibraries
  dynamicSymbols : image'.dynamicSymbols = image.dynamicSymbols
  exports : image'.exports = image.exports
  symbols : image'.symbols = image.symbols
  relocations : image'.relocations = image.relocations
  notes : image'.notes = image.notes
  buildId : image'.buildId = image.buildId
  tls : image'.tls = image.tls

theorem symbolsFrom_eq (image : ElfImage) (table strings : String) :
    image.symbolsFrom table strings =
      ((image.sectionByName table).map Section.data).elim (.ok { symbols := [] })
        fun data => SymbolTable.parse data
          (((image.sectionByName strings).map Section.data).getD []) image.ident.data
          image.ident.elfClass := by
  rw [symbolsFrom]
  cases image.sectionByName table <;> rfl

theorem noteSources_eq (image : ElfImage) : image.noteSources =
    if image.segmentData SegmentType.note = [] then image.noteSections
    else image.segmentData SegmentType.note := by
  rw [noteSources, segmentData, noteSections]
  simp only [List.map_eq_nil_iff]

theorem tls_eq_head? (image : ElfImage) : image.tls = ((image.segments.filter fun segment =>
    segment.header.type == SegmentType.tls).map fun segment =>
      TlsInfo.fromHeader segment.header).head? := by
  rw [List.head?_map, List.head?_filter, tls]

theorem sectionByName_eq_head? (image : ElfImage) (name : String) :
    (image.sectionByName name).map Section.data = (image.sections.filterMap fun sec =>
      if sec.name == name then some sec.data else none).head? := by
  rw [sectionByName, ← List.head?_filter, ← List.head?_map, map_filter_eq_filterMap]

namespace SameTableBytes

theorem trans (h : image.SameTableBytes image') (h' : image'.SameTableBytes image'') :
    image.SameTableBytes image'' where
  ident := h'.ident.trans h.ident
  segments type htype := (h'.segments type htype).trans (h.segments type htype)
  tls := h'.tls.trans h.tls
  named name hname := (h'.named name hname).trans (h.named name hname)
  relocations := h'.relocations.trans h.relocations
  notes := h'.notes.trans h.notes

variable (h : image.SameTableBytes image')

include h

theorem symbolsFrom_eq {table strings : String} (htable : table ∈ tableNames)
    (hstrings : strings ∈ tableNames) :
    image'.symbolsFrom table strings = image.symbolsFrom table strings := by
  rw [ElfImage.symbolsFrom_eq, ElfImage.symbolsFrom_eq, h.named table htable,
    h.named strings hstrings, h.ident]

/-- The tables are functions of what they are read from. -/
theorem sameTables : image.SameTables image' := by
  have hdynamic : image'.dynamic = image.dynamic := by
    rw [dynamic_eq, dynamic_eq, ← segmentData, ← segmentData, h.segments _ (by decide), h.ident]
  have hnotes : image'.notes = image.notes := by
    rw [ElfImage.notes, ElfImage.notes, noteSources_eq, noteSources_eq,
      h.segments _ (by decide), h.notes, h.ident]
  have hsymbols : image'.dynamicSymbols = image.dynamicSymbols :=
    h.symbolsFrom_eq (by decide) (by decide)
  refine ⟨hdynamic, ?_, hsymbols, ?_, h.symbolsFrom_eq (by decide) (by decide), ?_, hnotes, ?_,
    h.tls⟩
  · rw [neededLibraries, neededLibraries, hdynamic, h.named ".dynstr" (by decide)]
  · rw [exports, exports, hsymbols]
  · rw [ElfImage.relocations, ElfImage.relocations, ← relocationSources, ← relocationSources,
      h.relocations, h.ident]
  · rw [buildId, buildId, hnotes]

end SameTableBytes

/-! ## A rebuild keeps the bytes of the tables -/

section Rebuilt

variable {b : List UInt8} (hregular : image.Regular) (hbuild : image.tryBuild = .ok b)

include hregular hbuild

/-- The rebuilt storage has the layout of the given one. -/
theorem tls_rebuilt : image.rebuilt.tls = image.tls := by
  have hmeaning := sameMeaning_of_tryBuild hregular hbuild
  have hmax : maxImage ≤ isizeMax := by decide
  have hregular' := (regular_of_parse ((tryBuild_eq_ok hbuild).limit.trans hmax)
    (parse_of_tryBuild hregular hbuild)).1
  have hboth : List.Forall₂ (fun segment segment' => (SegmentKept segment segment' ∧
      (segment.header.type ≠ SegmentType.load → segment'.data = segment.data)) ∧
        segment ∈ image.segments ∧ segment' ∈ image.rebuilt.segments)
      image.segments image.rebuilt.segments := by
    have hsegments := hmeaning.segments
    rw [List.forall₂_iff_zip] at hsegments ⊢
    exact ⟨hsegments.1, fun hmem => ⟨hsegments.2 hmem, List.of_mem_zip hmem⟩⟩
  rw [tls_eq_head?, tls_eq_head?]
  congr 1
  refine (map_filter_eq_of_forall₂ hboth ?_ ?_).symm
  · rintro segment segment' ⟨⟨hkept, -⟩, -⟩
    rw [hkept.type]
  · rintro segment segment' ⟨⟨hkept, hdata⟩, hmem, hmem'⟩ htls
    have htype : segment.header.type = SegmentType.tls := beq_iff_eq.1 htls
    have hfilesz := hregular.segmentData segment hmem (by rw [htype]; decide)
      (by rw [htype]; decide)
    have hfilesz' := hregular'.segmentData segment' hmem' (by rw [hkept.type, htype]; decide)
      (by rw [hkept.type, htype]; decide)
    rw [hdata (by rw [htype]; decide), hfilesz, UInt64.toNat_inj] at hfilesz'
    rw [TlsInfo.fromHeader, TlsInfo.fromHeader, hkept.vaddr, hkept.memsz, hkept.align, hfilesz']

theorem sameTableBytes_rebuilt : image.SameTableBytes image.rebuilt := by
  have hmeaning := sameMeaning_of_tryBuild hregular hbuild
  refine ⟨hmeaning.ident, fun type htype => hmeaning.segmentData htype,
    tls_rebuilt hregular hbuild, fun name hname => hmeaning.sectionByName ?_, ?_, ?_⟩
  · rintro rfl
    exact absurd hname (by decide)
  · refine hmeaning.filterMap_sections ?_ ?_
    · intro table sec sec' hkept
      by_cases htype : sec.header.type = SectionType.strtab
      · simp [relocationForm, hkept.type, htype, SectionType.strtab, SectionType.rela,
          SectionType.rel]
      · simp only [relocationForm, hkept.type, hkept.data_of_type_ne htype]
    · intro sec hshstrtab
      simp [relocationForm, Section.type_of_isShstrtab hshstrtab, SectionType.strtab,
        SectionType.rela, SectionType.rel]
  · refine hmeaning.sectionData (fun table sec sec' hkept => by rw [hkept.type])
      fun sec hshstrtab => ?_
    rw [Section.type_of_isShstrtab hshstrtab]
    rfl

end Rebuilt

/-! ## A run of writes keeps the tables it misses -/

/-- No accepted request reaches a section that a table is read from. -/
def MissesTables (image : ElfImage) (ws : List Write) : Prop :=
  ∀ sec ∈ image.sections, sec.IsTable → image.sectionHits ws sec = []

instance (image : ElfImage) (ws : List Write) : Decidable (image.MissesTables ws) :=
  inferInstanceAs (Decidable (∀ sec ∈ image.sections, sec.IsTable → _ = []))

/-- Only loads are written. -/
theorem segmentHits_eq_nil {index : ℕ} {segment : Segment}
    (hsegment : image.segments[index]? = some segment)
    (htype : segment.header.type ≠ SegmentType.load) (ws : List Write) :
    image.segmentHits ws index = [] := by
  rw [segmentHits, List.map_eq_nil_iff, List.filter_eq_nil_iff]
  intro w _ hhit
  obtain ⟨haccepts, hindex⟩ := Bool.and_eq_true_iff.1 hhit
  obtain ⟨image', hwrite⟩ := Option.isSome_iff_exists.1 haccepts
  obtain ⟨vaddr, index', segment', h⟩ := writeAtIoff_eq_some.1 hwrite
  rw [h.loadIndex_eq, beq_iff_eq, Option.some_inj] at hindex
  subst hindex
  obtain rfl := Option.some.inj (h.found.symm.trans hsegment)
  exact htype (beq_iff_eq.1 (Bool.and_eq_true_iff.1 h.loads).1)

/-- What a run leaves of a segment, and all of one that is no load. -/
theorem segments_writeAll (image : ElfImage) (ws : List Write) :
    List.Forall₂ (fun segment segment' => segment'.header = segment.header ∧
      (segment.header.type ≠ SegmentType.load → segment'.data = segment.data))
      image.segments (image.writeAll ws).segments := by
  rw [writeAll_eq_patched, List.forall₂_iff_zip]
  refine ⟨by rw [patched, List.length_mapIdx], fun {segment segment'} hmem => ?_⟩
  obtain ⟨i, hi⟩ := List.mem_iff_getElem?.1 hmem
  obtain ⟨hsegment, hsegment'⟩ := List.getElem?_zip_eq_some.1 hi
  dsimp only at hsegment hsegment'
  rw [patched, List.getElem?_mapIdx, hsegment] at hsegment'
  obtain rfl := Option.some.inj hsegment'
  refine ⟨rfl, fun htype => ?_⟩
  dsimp only
  rw [segmentHits_eq_nil hsegment htype, Segment.patchAll_nil]

/-- A view of the sections that tells apart no others than tables. -/
theorem filterMap_sections_writeAll {γ : Type} {ws : List Write} (hmiss : image.MissesTables ws)
    {f : Section → Option γ} (htable : ∀ sec data, ¬sec.IsTable →
      f ({ sec with data } : Section) = f sec) :
    (image.writeAll ws).sections.filterMap f = image.sections.filterMap f := by
  rw [writeAll_eq_patched, patched]
  dsimp only
  rw [List.filterMap_map]
  refine List.filterMap_congr fun sec hmem => ?_
  by_cases hsec : sec.IsTable
  · rw [Function.comp_apply, hmiss sec hmem hsec, Section.patchAll_nil]
  · exact htable sec _ hsec

theorem sameTableBytes_writeAll {ws : List Write} (hmiss : image.MissesTables ws) :
    image.SameTableBytes (image.writeAll ws) := by
  have hsegments := image.segments_writeAll ws
  refine ⟨(image.lastWritesShow_writeAll ws).ident, fun type htype => ?_, ?_, fun name hname => ?_,
    ?_, ?_⟩
  · refine (map_filter_eq_of_forall₂ hsegments ?_ ?_).symm
    · rintro segment segment' ⟨hheader, -⟩
      rw [hheader]
    · rintro segment segment' ⟨-, hdata⟩ hmatch
      refine (hdata ?_).symm
      rw [beq_iff_eq.1 hmatch]
      exact htype
  · rw [tls_eq_head?, tls_eq_head?]
    congr 1
    refine (map_filter_eq_of_forall₂ hsegments ?_ ?_).symm
    · rintro segment segment' ⟨hheader, -⟩
      rw [hheader]
    · rintro segment segment' ⟨hheader, -⟩ -
      rw [hheader]
  · rw [sectionByName_eq_head?, sectionByName_eq_head?]
    congr 1
    refine filterMap_sections_writeAll hmiss fun sec data hsec => ?_
    rw [Section.IsTable, not_or] at hsec
    have hother : (sec.name == name) = false := by
      rw [beq_eq_false_iff_ne]
      rintro rfl
      exact hsec.1 hname
    rw [hother]
    rfl
  · refine filterMap_sections_writeAll hmiss fun sec data hsec => ?_
    rw [Section.IsTable, not_or, not_or, not_not] at hsec
    rw [hsec.2.1]
    rfl
  · rw [noteSections, noteSections, map_filter_eq_filterMap, map_filter_eq_filterMap]
    refine filterMap_sections_writeAll hmiss fun sec data hsec => ?_
    rw [Section.IsTable, not_or, not_or] at hsec
    rw [beq_eq_false_iff_ne.2 hsec.2.2]
    rfl

/-- A run of writes that misses the tables keeps them, and so does saving and parsing what it
leaves: the dynamic table, the needed libraries, the symbols and exports, the relocations,
the notes, the build identifier and the thread-local storage. -/
theorem saved_run_keeps_tables {data b : List UInt8} (hdata : data.length ≤ isizeMax)
    (hparse : parse data = .ok image ∨ parseMapped data = .ok image ∨
      ∃ base, parseMappedAt data base = .ok image) {ws : List Write}
    (hmiss : image.MissesTables ws) (hbuild : (image.writeAll ws).tryBuild = .ok b) :
    image.SameTables (image.writeAll ws) ∧
      ∃ saved, parse b = .ok saved ∧ image.SameTables saved := by
  have hregular : image.Regular := by
    rcases hparse with h | h
    · exact (regular_of_parse hdata h).1
    · exact (regular_of_mapped hdata h).1
  have hwritten := sameTableBytes_writeAll hmiss
  have hsaved := sameTableBytes_rebuilt (hregular.writeAll ws) hbuild
  exact ⟨hwritten.sameTables, _, parse_of_tryBuild (hregular.writeAll ws) hbuild,
    (hwritten.trans hsaved).sameTables⟩

/-- A library is patched and saved with its relocation table. -/
theorem relaFile_keeps_tables :
    ∃ b saved, ((imageOf (relaFile 8)).writeAll [⟨0x100, [1, 2]⟩]).tryBuild = .ok b ∧
      parse b = .ok saved ∧ saved.relocations = (imageOf (relaFile 8)).relocations := by
  have himage : parse (relaFile 8) = .ok (imageOf (relaFile 8)) :=
    parse_imageOf (by decide +kernel) (by decide +kernel)
  obtain ⟨b, hbuild⟩ := Outcome.exists_of_isOk
    (show ((imageOf (relaFile 8)).writeAll [⟨0x100, [1, 2]⟩]).tryBuild.isOk = true by
      decide +kernel)
  obtain ⟨-, saved, hsaved, htables⟩ :=
    saved_run_keeps_tables (by decide +kernel) (Or.inl himage) (by decide +kernel) hbuild
  exact ⟨b, saved, hbuild, hsaved, htables.relocations⟩

end ElfImage

end Elfex
