import Mathlib.Data.List.Forall2
import Elfex.Image.Inspect
import Elfex.Image.Regular
import Elfex.Image.Reparse

/-!
# Rebuilding preserves meaning

`SegmentKept` and `SectionKept` relate what an image holds to what the rebuilt
image holds at the same index. Every derived view of an image reads only what
the two relations keep, so it is the same before and after.
-/

namespace Elfex

open Foundation

/-! ## Lists related element by element -/

section Related

variable {α β γ : Type} {R : α → β → Prop} {l : List α} {l' : List β}

theorem exists_of_mem_of_forall₂ (h : List.Forall₂ R l l') {b : β} (hb : b ∈ l') :
    ∃ a ∈ l, R a b := by
  induction h with
  | nil => exact absurd hb (by simp)
  | @cons a c _ _ hac _ ih =>
      rcases List.mem_cons.1 hb with rfl | hb
      · exact ⟨a, List.mem_cons_self, hac⟩
      · obtain ⟨a', ha', hR⟩ := ih hb
        exact ⟨a', List.mem_cons_of_mem a ha', hR⟩

theorem exists_getElem?_of_forall₂ (h : List.Forall₂ R l l') {i : ℕ} {a : α}
    (ha : l[i]? = some a) : ∃ b, l'[i]? = some b ∧ R a b := by
  induction h generalizing i with
  | nil => exact absurd ha (by simp)
  | @cons c b _ _ hcb _ ih =>
      cases i with
      | zero =>
          cases ha
          exact ⟨b, rfl, hcb⟩
      | succ i => exact ih ha

theorem filterMap_eq_of_forall₂ (h : List.Forall₂ R l l') {f : α → Option γ}
    {g : β → Option γ} (hfg : ∀ a b, R a b → f a = g b) :
    l.filterMap f = l'.filterMap g := by
  induction h with
  | nil => rfl
  | cons hab _ ih => rw [List.filterMap_cons, List.filterMap_cons, hfg _ _ hab, ih]

/-- Searches that agree on related entries find related entries. -/
theorem find?_of_forall₂ (h : List.Forall₂ R l l') {p : α → Bool} {q : β → Bool}
    (hpq : ∀ a b, R a b → p a = q b) {a : α} (ha : l.find? p = some a) :
    ∃ b, l'.find? q = some b ∧ R a b := by
  induction h with
  | nil => cases ha
  | @cons c d _ _ hcd _ ih =>
      cases hc : p c with
      | true =>
          rw [List.find?_cons_of_pos hc] at ha
          obtain rfl := Option.some.inj ha
          exact ⟨d, List.find?_cons_of_pos (hpq c d hcd ▸ hc), hcd⟩
      | false =>
          have hd : q d = false := hpq c d hcd ▸ hc
          rw [List.find?_cons_of_neg (by simp [hc])] at ha
          rw [List.find?_cons_of_neg (by simp [hd])]
          exact ih ha

theorem findIdx?_eq_of_forall₂ (h : List.Forall₂ R l l') {p : α → Bool} {q : β → Bool}
    (hpq : ∀ a b, R a b → p a = q b) : l.findIdx? p = l'.findIdx? q := by
  induction h with
  | nil => rfl
  | @cons a b _ _ hab _ ih => rw [List.findIdx?_cons, List.findIdx?_cons, hpq a b hab, ih]

theorem map_filter_eq_filterMap (l : List α) (p : α → Bool) (f : α → γ) :
    (l.filter p).map f = l.filterMap fun a => if p a then some (f a) else none := by
  induction l with
  | nil => rfl
  | cons a l ih => by_cases h : p a = true <;> simp [h, ih]

theorem map_filter_eq_of_forall₂ (h : List.Forall₂ R l l') {p : α → Bool} {q : β → Bool}
    {f : α → γ} {g : β → γ} (hpq : ∀ a b, R a b → p a = q b)
    (hfg : ∀ a b, R a b → p a = true → f a = g b) :
    (l.filter p).map f = (l'.filter q).map g := by
  rw [map_filter_eq_filterMap, map_filter_eq_filterMap]
  refine filterMap_eq_of_forall₂ h fun a b hab => ?_
  rw [← hpq a b hab]
  split
  · rename_i ha
    rw [hfg a b hab ha]
  · rfl

end Related

/-! ## What a rebuild keeps -/

/-- What a rebuild keeps of a segment. -/
structure SegmentKept (segment segment' : Segment) : Prop where
  type : segment'.header.type = segment.header.type
  flags : segment'.header.flags = segment.header.flags
  vaddr : segment'.header.vaddr = segment.header.vaddr
  paddr : segment'.header.paddr = segment.header.paddr
  memsz : segment'.header.memsz = segment.header.memsz
  align : segment'.header.align = segment.header.align
  data : segment'.data =
    segment.data.take (min segment.header.filesz.toNat segment.data.length)

/-- What a rebuild keeps of a section; a section-name string table carries `table`. -/
structure SectionKept (table : List UInt8) (sec sec' : Section) : Prop where
  name : sec'.name = sec.name
  type : sec'.header.type = sec.header.type
  flags : sec'.header.flags = sec.header.flags
  addr : sec'.header.addr = sec.header.addr
  link : sec'.header.link = sec.header.link
  info : sec'.header.info = sec.header.info
  addralign : sec'.header.addralign = sec.header.addralign
  entsize : sec'.header.entsize = sec.header.entsize
  data : sec.isShstrtab = false → sec'.data = sec.data ∧ sec'.header.size = sec.header.size
  table : sec.isShstrtab = true → sec'.data = table ∧ sec'.header.size.toNat = table.length

theorem SectionKept.isShstrtab {table : List UInt8} {sec sec' : Section}
    (h : SectionKept table sec sec') : sec'.isShstrtab = sec.isShstrtab := by
  rw [Section.isShstrtab, Section.isShstrtab, h.name, h.type]

theorem SectionKept.data_of_type_ne {table : List UInt8} {sec sec' : Section}
    (h : SectionKept table sec sec') (htype : sec.header.type ≠ SectionType.strtab) :
    sec'.data = sec.data := by
  refine (h.data ?_).1
  rw [Section.isShstrtab, beq_eq_false_iff_ne.2 htype, Bool.and_false]

namespace ElfImage

variable {image : ElfImage} {d : List UInt8}

theorem segments_kept (hregular : image.Regular) :
    List.Forall₂ SegmentKept image.segments image.rebuiltSegments := by
  rw [List.forall₂_iff_zip]
  refine ⟨(length_recordsOf ..).symm, fun {segment segment'} hmem => ?_⟩
  rcases List.mem_iff_getElem?.1 hmem with ⟨i, hi⟩
  rcases List.getElem?_zip_eq_some.1 hi with ⟨hsegment, hsegment'⟩
  dsimp only at hsegment hsegment'
  obtain ⟨place, -, hrecord⟩ := rebuiltSegments_getElem? hsegment
  obtain rfl : _ = segment' := Option.some.inj (hrecord.symm.trans hsegment')
  have hmem := List.mem_of_getElem? hsegment
  obtain ⟨hvaddr, hpaddr, -, hmemsz, halign⟩ :=
    (hregular.segmentHeader segment hmem).keeps
  have hdata : (if segment.header.type = SegmentType.null then [] else segment.written) =
      segment.data.take (min segment.header.filesz.toNat segment.data.length) := by
    split
    · rename_i hnull
      rw [hregular.segmentNull segment hmem hnull, List.take_nil]
    · rfl
  cases place <;>
    exact ⟨rfl, rfl, hvaddr, hpaddr, hmemsz, halign, hdata⟩

/-- A section whose header and data are consistent. -/
structure SectionRegular (elfClass : ElfClass) (sec : Section) : Prop where
  header : sec.header.Fits elfClass
  nobits : sec.header.isNobits = true → sec.data = []
  data : sec.header.isNobits = false → sec.data.length = sec.header.size.toNat

theorem sectionRegular_of_mem (hregular : image.Regular) {sec : Section}
    (hsec : sec ∈ (ensureShstrtab image.sections).2) :
    SectionRegular image.ident.elfClass sec := by
  rcases mem_ensureShstrtab hsec with hsec | rfl
  · exact ⟨hregular.sectionHeader sec hsec, hregular.sectionNobits sec hsec,
      hregular.sectionData sec hsec⟩
  · refine ⟨?_, fun _ => rfl, fun _ => rfl⟩
    cases image.ident.elfClass <;> rfl

/-- What is written for a consistent section, and the size its header records for it. -/
theorem section_written_kept (h : image.Present d) {sec : Section} {place : Option UInt64}
    {index : UInt32} {table : List UInt8} {offset size : UInt64}
    (hregular : SectionRegular image.ident.elfClass sec)
    (hmem : (sec.named index table, place) ∈ (namedSections image.sections).zip
      (placements Section.written Section.position (namedSections image.sections)
        image.segmentsEnd))
    (hheader : (recordAt Section.skipped Section.placed (sec.named index table) place).header =
      { (sec.named index table).header with offset, size }) :
    (sec.isShstrtab = false → (sec.named index table).written = sec.data ∧
      image.ident.elfClass.keep size = sec.header.size) ∧
    (sec.isShstrtab = true → (sec.named index table).written = table ∧
      (image.ident.elfClass.keep size).toNat = table.length) := by
  obtain ⟨-, -, -, -, hcarries⟩ := section_carries h hmem
  obtain ⟨-, -, hsize, -⟩ := hregular.header.keeps
  have htype : (sec.named index table).header.isNobits = sec.header.isNobits := by
    rw [SectionHeader.isNobits, Section.named_type]
    rfl
  have hcarried : sec.header.isNobits = false →
      (image.ident.elfClass.keep size).toNat = (sec.named index table).written.length := by
    intro hnobits
    have hcarries := hcarries (htype.trans hnobits)
    rw [hheader] at hcarries
    exact hcarries.size_eq
  constructor
  · intro hplain
    by_cases hnobits : sec.header.isNobits = true
    · have hdata : (sec.named index table).written = [] := by
        rw [Section.written_named_of_not hplain, Section.written, if_pos hnobits]
      have hplace : place = none := (eq_none_iff_of_mem_zip hmem).2 hdata
      rw [hplace, recordAt, Section.skipped, if_pos (htype.trans hnobits),
        Section.header_named, hplain] at hheader
      have hsame : sec.header.size = size := congrArg SectionHeader.size hheader
      rw [hdata, hregular.nobits hnobits, ← hsame, hsize]
      exact ⟨rfl, rfl⟩
    · have hnobits : sec.header.isNobits = false := by simpa using hnobits
      have hdata : (sec.named index table).written = sec.data := by
        rw [Section.written_named_of_not hplain, Section.written, hnobits]
        rfl
      refine ⟨hdata, ?_⟩
      rw [← UInt64.toNat_inj, hcarried hnobits, hdata, hregular.data hnobits]
  · intro hshstrtab
    have hdata := Section.written_named hshstrtab index table
    refine ⟨hdata, ?_⟩
    rw [hcarried (Section.isNobits_of_isShstrtab hshstrtab), hdata]

/-- A consistent section is kept, wherever it is placed. -/
theorem section_kept (h : image.Present d) {sec : Section} {place : Option UInt64}
    {index : UInt32} {table : List UInt8}
    (hregular : SectionRegular image.ident.elfClass sec)
    (hmem : (sec.named index table, place) ∈ (namedSections image.sections).zip
      (placements Section.written Section.position (namedSections image.sections)
        image.segmentsEnd)) :
    SectionKept table sec ((recordAt Section.skipped Section.placed (sec.named index table)
      place).rebuilt image.ident.elfClass) := by
  obtain ⟨-, hname, -, hwritten, -⟩ := section_carries h hmem
  obtain ⟨hflags, haddr, -, haddralign, hentsize, -⟩ := hregular.header.keeps
  obtain ⟨offset, size, hheader⟩ := (sec.named index table).header_recordAt place
  have hrebuilt : ((recordAt Section.skipped Section.placed (sec.named index table)
      place).rebuilt image.ident.elfClass).header =
      { sec.header with
        nameIndex := index
        offset := image.ident.elfClass.keep offset
        size := image.ident.elfClass.keep size } := by
    rw [Section.rebuilt, hheader, SectionHeader.narrow]
    simp only [Section.header_named, hflags, haddr, haddralign, hentsize]
  obtain ⟨hplain, hshstrtab⟩ := section_written_kept h hregular hmem hheader
  constructor
  case name => exact hname.trans (Section.named_name sec index table)
  case data =>
    intro hnot
    rw [hrebuilt]
    exact ⟨hwritten.trans (hplain hnot).1, (hplain hnot).2⟩
  case table =>
    intro his
    rw [hrebuilt]
    exact ⟨hwritten.trans (hshstrtab his).1, (hshstrtab his).2⟩
  all_goals rw [hrebuilt]

/-- Every given section, and the new name table, is rebuilt at its own index. -/
theorem rebuiltSections_getElem? (hne : image.sections ≠ []) {i : ℕ} {sec : Section}
    (hsec : (ensureShstrtab image.sections).2[i]? = some sec) :
    ∃ index place, (nameOffsets [0] (ensureShstrtab image.sections).2).1[i]? = some index ∧
      (assignNameOffsets (ensureShstrtab image.sections).2)[i]? =
        some (sec.named index (nameTable (ensureShstrtab image.sections).2)) ∧
      (sec.named index (nameTable (ensureShstrtab image.sections).2), place) ∈
        (namedSections image.sections).zip
          (placements Section.written Section.position (namedSections image.sections)
            image.segmentsEnd) ∧
      image.rebuilt.sections[i]? = some ((recordAt Section.skipped Section.placed
        (sec.named index (nameTable (ensureShstrtab image.sections).2)) place).rebuilt
          image.ident.elfClass) := by
  obtain ⟨o, -, hindex, hnamed, -⟩ := assignNameOffsets_getElem? hsec
  have hnamedSections : namedSections image.sections =
      assignNameOffsets (ensureShstrtab image.sections).2 := if_neg hne
  obtain ⟨place, hplace, hrecord⟩ := builtSections_getElem? (hnamedSections ▸ hnamed)
  refine ⟨_, place, hindex, hnamed, hplace, ?_⟩
  rw [rebuilt, List.getElem?_map, hrecord, Option.map_some]

theorem sections_kept (h : image.Present d) (hregular : image.Regular)
    (hne : image.sections ≠ []) :
    List.Forall₂ (SectionKept (nameTable (ensureShstrtab image.sections).2))
      (ensureShstrtab image.sections).2 image.rebuilt.sections := by
  rw [List.forall₂_iff_zip]
  constructor
  · simp [rebuilt, builtSections, namedSections, hne]
  · intro sec sec' hmem
    rcases List.mem_iff_getElem?.1 hmem with ⟨i, hi⟩
    rcases List.getElem?_zip_eq_some.1 hi with ⟨hsec, hsec'⟩
    dsimp only at hsec hsec'
    obtain ⟨index, place, -, -, hplace, hrebuilt⟩ := rebuiltSections_getElem? hne hsec
    obtain rfl := Option.some.inj (hrebuilt.symm.trans hsec')
    exact section_kept h (sectionRegular_of_mem hregular (List.mem_of_getElem? hsec)) hplace

theorem map_name_eq_of_kept {sections sections' : List Section} {table : List UInt8}
    (h : List.Forall₂ (SectionKept table) sections sections') :
    sections'.map Section.name = sections.map Section.name := by
  induction h with
  | nil => rfl
  | cons hsec _ ih => rw [List.map_cons, List.map_cons, hsec.name, ih]

/-- The rebuilt sections are the given ones, each kept, followed by at most one new
name table. -/
theorem sections_rebuilt (h : image.Present d) (hregular : image.Regular) :
    ∃ kept added, image.rebuilt.sections = kept ++ added ∧
      List.Forall₂ (SectionKept (nameTable image.rebuilt.sections)) image.sections kept ∧
      added.length ≤ 1 ∧ ∀ sec ∈ added, sec.isShstrtab = true := by
  by_cases hne : image.sections = []
  · have hnone : image.rebuilt.sections = [] := by
      simp [rebuilt, builtSections, namedSections, hne, recordsOf, placements]
    rw [hnone, hne]
    exact ⟨[], [], rfl, List.Forall₂.nil, by simp, by simp⟩
  · have hkept := sections_kept h hregular hne
    rw [← nameTable_congr (map_name_eq_of_kept hkept)] at hkept
    obtain ⟨-, -, -, -, -, heq | heq⟩ := ensureShstrtab_spec image.sections
    · rw [heq] at hkept
      exact ⟨_, [], (List.append_nil _).symm, hkept, by simp, by simp⟩
    · rw [heq] at hkept
      refine ⟨image.rebuilt.sections.take image.sections.length,
        image.rebuilt.sections.drop image.sections.length, (List.take_append_drop _ _).symm,
        ?_, ?_, ?_⟩
      · simpa using List.forall₂_take image.sections.length hkept
      · have hlen := hkept.length_eq
        simp only [List.length_append, List.length_singleton] at hlen
        rw [List.length_drop, ← hlen]
        omega
      · have hdrop := List.forall₂_drop image.sections.length hkept
        rw [List.drop_left] at hdrop
        intro sec hsec
        obtain ⟨given, hgiven, hsame⟩ := exists_of_mem_of_forall₂ hdrop hsec
        rw [hsame.isShstrtab, List.mem_singleton.1 hgiven]
        decide +kernel

/-! ## The derived views -/

/-- An image with the same identification, the same segments up to the data of
loadable ones, and the same sections up to name tables. -/
structure SameMeaning (image image' : ElfImage) : Prop where
  ident : image'.ident = image.ident
  segments : List.Forall₂ (fun segment segment' => SegmentKept segment segment' ∧
    (segment.header.type ≠ SegmentType.load → segment'.data = segment.data))
    image.segments image'.segments
  sections : ∃ table kept added, image'.sections = kept ++ added ∧
    List.Forall₂ (SectionKept table) image.sections kept ∧
    ∀ sec ∈ added, sec.isShstrtab = true

section Views

variable {image' : ElfImage}

theorem SameMeaning.geometry (h : SameMeaning image image') :
    image'.geometry = image.geometry := by
  have hloads : loadRecords (image'.segments.map Segment.header) =
      loadRecords (image.segments.map Segment.header) := by
    unfold loadRecords
    rw [List.filter_map, List.filter_map, List.map_map, List.map_map]
    refine (map_filter_eq_of_forall₂ h.segments ?_ ?_).symm
    · rintro segment segment' ⟨hkept, -⟩
      simp only [Function.comp, ProgramHeader.isLoad, hkept.type]
    · rintro segment segment' ⟨hkept, -⟩ -
      simp only [Function.comp, ProgramHeader.loadRecord, hkept.vaddr, hkept.memsz,
        hkept.align]
  rw [ElfImage.geometry, ElfImage.geometry, hloads]

/-- The data of the segments of a type other than `PT_LOAD`, in table order. -/
theorem SameMeaning.segmentData (h : SameMeaning image image') {type : SegmentType}
    (htype : type ≠ SegmentType.load) :
    (image'.segments.filter fun segment => segment.header.type == type).map Segment.data =
      (image.segments.filter fun segment => segment.header.type == type).map
        Segment.data := by
  refine (map_filter_eq_of_forall₂ h.segments ?_ ?_).symm
  · rintro segment segment' ⟨hkept, -⟩
    rw [hkept.type]
  · rintro segment segment' ⟨-, hdata⟩ hmatch
    refine (hdata ?_).symm
    rw [beq_iff_eq.1 hmatch]
    exact htype

theorem SameMeaning.dynamic (h : SameMeaning image image') :
    image'.dynamic = image.dynamic := by
  have hview : ∀ image : ElfImage, image.dynamic =
      ((image.segments.filter fun segment =>
        segment.header.type == SegmentType.dynamic).map Segment.data).head?.elim (.ok none)
          fun data => do
            let table ← DynamicTable.parse data image.ident.data image.ident.elfClass
            return some table := by
    intro image
    rw [List.head?_map, List.head?_filter, ElfImage.dynamic]
    cases image.segments.find? fun segment => segment.header.type == SegmentType.dynamic <;> rfl
  rw [hview, hview, h.segmentData (by decide), h.ident]

/-- A view of the sections that no section-name string table takes part in. -/
theorem SameMeaning.filterMap_sections {γ : Type} (h : SameMeaning image image')
    {f : Section → Option γ}
    (hkept : ∀ table sec sec', SectionKept table sec sec' → f sec = f sec')
    (hadded : ∀ sec : Section, sec.isShstrtab = true → f sec = none) :
    image'.sections.filterMap f = image.sections.filterMap f := by
  obtain ⟨table, kept, added, hsections, hforall, hshstrtab⟩ := h.sections
  have hnone : added.filterMap f = [] :=
    List.filterMap_eq_nil_iff.2 fun sec hsec => hadded sec (hshstrtab sec hsec)
  rw [hsections, List.filterMap_append, hnone, List.append_nil,
    filterMap_eq_of_forall₂ hforall fun sec sec' => hkept table sec sec']

theorem SameMeaning.relocations (h : SameMeaning image image') :
    image'.relocations = image.relocations := by
  have hsections := h.filterMap_sections (f := fun sec =>
    (relocationForm sec.header).map fun isRela => (sec.data, isRela)) ?_ ?_
  · rw [ElfImage.relocations, ElfImage.relocations, hsections, h.ident]
  · intro table sec sec' hkept
    by_cases htype : sec.header.type = SectionType.strtab
    · simp [relocationForm, hkept.type, htype, SectionType.strtab, SectionType.rela,
        SectionType.rel]
    · simp only [relocationForm, hkept.type, hkept.data_of_type_ne htype]
  · intro sec hshstrtab
    simp [relocationForm, Section.type_of_isShstrtab hshstrtab, SectionType.strtab,
      SectionType.rela, SectionType.rel]

/-- The data of the sections that a test other than for name tables selects. -/
theorem SameMeaning.sectionData (h : SameMeaning image image') {p : Section → Bool}
    (hp : ∀ table sec sec', SectionKept table sec sec' → p sec = p sec')
    (hnone : ∀ sec : Section, sec.isShstrtab = true → p sec = false) :
    (image'.sections.filter p).map Section.data =
      (image.sections.filter p).map Section.data := by
  rw [map_filter_eq_filterMap, map_filter_eq_filterMap]
  refine h.filterMap_sections ?_ fun sec hsec => by rw [hnone sec hsec]; rfl
  intro table sec sec' hkept
  rw [← hp table sec sec' hkept]
  split
  · rename_i hsec
    have hplain : sec.isShstrtab = false := by
      by_contra hshstrtab
      rw [hnone sec (by simpa using hshstrtab)] at hsec
      cases hsec
    rw [(hkept.data hplain).1]
  · rfl

theorem SameMeaning.notes (h : SameMeaning image image') : image'.notes = image.notes := by
  have hnote : SegmentType.note ≠ SegmentType.load := by decide
  have hsegments := h.segmentData hnote
  have hsections := h.sectionData (p := fun sec => sec.header.type == SectionType.note)
    (fun table sec sec' hkept => by rw [hkept.type])
    fun sec hsec => by rw [Section.type_of_isShstrtab hsec]; rfl
  have hsources : image'.noteSources = image.noteSources := by
    unfold noteSources
    simp only [← List.map_eq_nil_iff (f := Segment.data), hsegments, hsections]
  rw [ElfImage.notes, ElfImage.notes, hsources, h.ident]

theorem SameMeaning.sectionByName (h : SameMeaning image image') {name : String}
    (hname : name ≠ ".shstrtab") :
    (image'.sectionByName name).map Section.data =
      (image.sectionByName name).map Section.data := by
  have hsections := h.sectionData (p := fun sec => sec.name == name)
    (fun table sec sec' hkept => by rw [hkept.name]) fun sec hsec => by
      rw [Section.isShstrtab, Bool.and_eq_true] at hsec
      rw [beq_iff_eq.1 hsec.1]
      exact beq_eq_false_iff_ne.2 (Ne.symm hname)
  rw [ElfImage.sectionByName, ElfImage.sectionByName, ← List.head?_filter,
    ← List.head?_filter, ← List.head?_map, ← List.head?_map, hsections]

theorem SameMeaning.symbolsFrom (h : SameMeaning image image') {table strings : String}
    (htable : table ≠ ".shstrtab") (hstrings : strings ≠ ".shstrtab") :
    image'.symbolsFrom table strings = image.symbolsFrom table strings := by
  have hview : ∀ image : ElfImage, image.symbolsFrom table strings =
      ((image.sectionByName table).map Section.data).elim (.ok { symbols := [] })
        fun data => SymbolTable.parse data
          (((image.sectionByName strings).map Section.data).getD []) image.ident.data
          image.ident.elfClass := by
    intro image
    rw [ElfImage.symbolsFrom]
    cases image.sectionByName table <;> rfl
  rw [hview, hview, h.sectionByName htable, h.sectionByName hstrings, h.ident]

end Views

/-! ## The rebuilt image -/

theorem sameMeaning_rebuilt (h : image.Present d) (hregular : image.Regular) :
    SameMeaning image image.rebuilt := by
  obtain ⟨kept, added, hsections, hkept, -, hadded⟩ := sections_rebuilt h hregular
  refine ⟨rfl, ?_, _, kept, added, hsections, hkept, hadded⟩
  have hsegments := segments_kept hregular
  rw [List.forall₂_iff_zip] at hsegments ⊢
  refine ⟨hsegments.1, fun {segment segment'} hmem => ?_⟩
  have hsegment := hsegments.2 hmem
  have hgiven := (List.of_mem_zip hmem).1
  refine ⟨hsegment, fun hload => ?_⟩
  rw [hsegment.data]
  by_cases hnull : segment.header.type = SegmentType.null
  · rw [hregular.segmentNull segment hgiven hnull, List.take_nil]
  · rw [← hregular.segmentData segment hgiven hnull hload, Nat.min_self, List.take_length]

/-- Rebuilding preserves the meaning of a parsed image, in either layout: the built file
parses to an image that keeps every segment and section at its index, and every derived
view is the same. -/
theorem rebuild_preserves_meaning {data b : List UInt8} (hdata : data.length ≤ isizeMax)
    (hparse : parse data = .ok image ∨ parseMapped data = .ok image)
    (hbuild : image.tryBuild = .ok b) :
    ∃ image', parse b = .ok image' ∧
      (image'.ident = image.ident ∧ image'.header.type = image.header.type ∧
        image'.header.machine = image.header.machine ∧
        image'.header.version = image.header.version ∧
        image'.header.entry = image.header.entry ∧
        image'.header.flags = image.header.flags) ∧
      List.Forall₂ SegmentKept image.segments image'.segments ∧
      (∃ kept added, image'.sections = kept ++ added ∧
        List.Forall₂ (SectionKept (nameTable image'.sections)) image.sections kept ∧
        added.length ≤ 1 ∧ ∀ sec ∈ added, sec.isShstrtab = true) ∧
      image'.imageBase = image.imageBase ∧ image'.imageSpan = image.imageSpan ∧
      image'.symbols = image.symbols ∧ image'.dynamicSymbols = image.dynamicSymbols ∧
      image'.dynamic = image.dynamic ∧ image'.relocations = image.relocations ∧
      image'.notes = image.notes := by
  have hregular : image.Regular := by
    rcases hparse with h | h
    · exact (regular_of_parse hdata h).1
    · exact (regular_of_mapped hdata (Or.inl h)).1
  have hbuilt := tryBuild_eq_ok hbuild
  have hpresent : image.Present b := by simpa using hbuilt.present hregular.ident []
  have hmax : maxImage ≤ isizeMax := by decide
  have hrebuilt : parse b = .ok image.rebuilt := by
    simpa using parse_build hregular.ident hregular.names hbuild (t := [])
      (by simpa using hbuilt.limit.trans hmax)
  have hmeaning := sameMeaning_rebuilt hpresent hregular
  obtain ⟨htype, hentry⟩ := hregular.header.keeps
  refine ⟨image.rebuilt, hrebuilt, ⟨rfl, htype, rfl, rfl, hentry, rfl⟩,
    segments_kept hregular, sections_rebuilt hpresent hregular, ?_, ?_, ?_, ?_,
    hmeaning.dynamic, hmeaning.relocations, hmeaning.notes⟩
  · rw [imageBase, imageBase, hmeaning.geometry]
  · rw [imageSpan, imageSpan, hmeaning.geometry]
  · exact hmeaning.symbolsFrom (by decide) (by decide)
  · exact hmeaning.symbolsFrom (by decide) (by decide)

end ElfImage

theorem smallFile_rebuild :
    ∃ image b image', ElfImage.parse smallFile = .ok image ∧ image.tryBuild = .ok b ∧
      ElfImage.parse b = .ok image' ∧
      List.Forall₂ SegmentKept image.segments image'.segments := by
  have hparse : ElfImage.parse smallFile = .ok (imageOf smallFile) :=
    (parse_eq_ok smallFile_length).2 ⟨smallFile_accepted, rfl⟩
  obtain ⟨b, hbuild⟩ := Outcome.exists_of_isOk smallFile_builds
  obtain ⟨image', himage', -, hsegments, -⟩ :=
    ElfImage.rebuild_preserves_meaning smallFile_length (Or.inl hparse) hbuild
  exact ⟨_, b, image', hparse, hbuild, himage', hsegments⟩

end Elfex
