import Elfex.Builder.Faithful
import Elfex.Image.Views

/-!
# The metadata of an edited image

A write reaches one loadable segment and the allocated sections that hold its range. The
tables of a built image lie outside its loads, and its notes and relocations are not
allocated, but the string table of the needed libraries is an allocated section at address
zero: a write that lies in it is a write to the names.
-/

namespace Elfex

open Foundation

/-- Replacing an element that a filter drops by another such element. -/
theorem filter_set_of_neg {α : Type*} {p : α → Bool} {l : List α} {i : ℕ} {a b : α}
    (hi : l[i]? = some a) (ha : p a = false) (hb : p b = false) :
    (l.set i b).filter p = l.filter p := by
  induction l generalizing i with
  | nil => rfl
  | cons c l ih =>
      cases i with
      | zero =>
          obtain rfl : c = a := Option.some.inj hi
          rw [List.set_cons_zero, List.filter_cons_of_neg (by simp [hb]),
            List.filter_cons_of_neg (by simp [ha])]
      | succ i =>
          rw [List.getElem?_cons_succ] at hi
          rw [List.set_cons_succ, List.filter_cons, List.filter_cons, ih hi]

namespace Section

variable {sec : Section} {vaddr : UInt64} {bytes : List UInt8}

theorem writeAt_of_not_alloc (h : sec.header.flags.isAlloc = false) :
    sec.writeAt vaddr bytes = sec := by
  rw [writeAt, containsVaddr, h]
  rfl

/-- A write to a section at address zero that is as long as it says. -/
theorem getElem?_writeAt (halloc : sec.header.flags.isAlloc = true)
    (hnobits : sec.header.isNobits = false) (haddr : sec.header.addr = 0)
    (hsize : sec.header.size.toNat = sec.data.length) (position : ℕ) :
    (sec.writeAt vaddr bytes).data[position]? =
      if (⟨vaddr.toNat, bytes⟩ : Extent UInt8).stop ≤ sec.data.length then
        ((⟨vaddr.toNat, bytes⟩ : Extent UInt8).get? position).or sec.data[position]?
      else sec.data[position]? := by
  have hstart : sec.header.addr.toNat = 0 := by rw [haddr]; rfl
  have hget : ∀ e : Extent UInt8, e.start = 0 → e.get? position = e.bytes[position]? := by
    intro e he
    rw [Extent.get?, he, if_pos (Nat.zero_le _), Nat.sub_zero]
  have hwithin : (⟨vaddr.toNat, bytes⟩ : Extent UInt8).Within sec.memory ↔
      (⟨vaddr.toNat, bytes⟩ : Extent UInt8).stop ≤ sec.data.length := by
    rw [Extent.Within, Extent.stop, Extent.stop, memory, hstart, Nat.zero_add]
    exact and_iff_right (Nat.zero_le _)
  have hcovers : sec.containsVaddr vaddr = true ↔ vaddr.toNat < sec.data.length := by
    have hlt := sec.header.size.toNat_lt
    rw [containsVaddr_iff, and_iff_right halloc, hstart, ← hsize]
    omega
  by_cases hinside : vaddr.toNat < sec.data.length
  · rw [writeAt_of_covers hnobits (hcovers.2 hinside)]
    simp only [hwithin]
    split
    · rename_i hstop
      have hpatch := Extent.get?_patch (hwithin.2 hstop) position
      rw [hget (sec.memory.patch ⟨vaddr.toNat, bytes⟩) hstart, hget sec.memory hstart] at hpatch
      exact hpatch
    · rfl
  · have hsame : sec.writeAt vaddr bytes = sec := by
      rw [writeAt, Bool.eq_false_iff.2 (mt hcovers.1 hinside)]
      rfl
    rw [hsame]
    split
    · rename_i hstop
      -- such a write is empty
      have hnone : (⟨vaddr.toNat, bytes⟩ : Extent UInt8).get? position = none := by
        rw [Extent.get?_eq_none_iff]
        dsimp only [Extent.stop] at hstop ⊢
        omega
      rw [hnone, Option.none_or]
    · rfl

end Section

namespace ElfImage

/-- The views of the tables are the same. -/
structure KeepsMetadata (image image' : ElfImage) : Prop where
  needed : image'.neededLibraries = image.neededLibraries
  dynamic : image'.dynamic = image.dynamic
  notes : image'.notes = image.notes
  relocations : image'.relocations = image.relocations

namespace WrittenAt

variable {image image' : ElfImage} {ioff : UInt64} {bytes : List UInt8} {vaddr : UInt64}
  {index : ℕ} {segment : Segment}

/-- Only a loadable segment is written. -/
theorem filter_segments (h : image.WrittenAt ioff bytes image' vaddr index segment)
    {type : SegmentType} (htype : type ≠ SegmentType.load) :
    image'.segments.filter (fun segment => segment.header.type == type) =
      image.segments.filter fun segment => segment.header.type == type := by
  have hload : segment.header.type = SegmentType.load :=
    beq_iff_eq.1 (Bool.and_eq_true_iff.1 h.loads).1
  have hother : (segment.header.type == type) = false := by
    rw [hload, beq_eq_false_iff_ne]
    exact htype.symm
  rw [h.result]
  exact filter_set_of_neg h.found hother hother

theorem dynamic_eq (h : image.WrittenAt ioff bytes image' vaddr index segment) :
    image'.dynamic = image.dynamic := by
  have hident : image'.ident = image.ident := by rw [h.result]
  rw [ElfImage.dynamic_eq, ElfImage.dynamic_eq, h.filter_segments (by decide), hident]

theorem sectionByName_eq (h : image.WrittenAt ioff bytes image' vaddr index segment)
    (name : String) :
    image'.sectionByName name = (image.sectionByName name).map fun sec =>
      sec.writeAt vaddr bytes := by
  rw [h.result, sectionByName, sectionByName, List.find?_map]
  congr 2
  funext sec
  rw [Function.comp_apply, Section.writeAt_name]

/-- A view of the sections that reads unallocated ones only. -/
theorem filterMap_sections (h : image.WrittenAt ioff bytes image' vaddr index segment)
    {γ : Type} {f : Section → Option γ} (hnone : ∀ sec ∈ image.sections,
      sec.header.flags.isAlloc = true → f (sec.writeAt vaddr bytes) = f sec) :
    image'.sections.filterMap f = image.sections.filterMap f := by
  rw [h.result]
  dsimp only
  rw [List.filterMap_map]
  refine List.filterMap_congr fun sec hsec => ?_
  rw [Function.comp_apply]
  cases halloc : sec.header.flags.isAlloc with
  | true => exact hnone sec hsec halloc
  | false => rw [Section.writeAt_of_not_alloc halloc]

theorem notes_eq (h : image.WrittenAt ioff bytes image' vaddr index segment)
    (hnone : ∀ sec ∈ image.sections, sec.header.flags.isAlloc = true →
      sec.header.type ≠ SectionType.note) : image'.notes = image.notes := by
  have hident : image'.ident = image.ident := by rw [h.result]
  have hsections : (image'.sections.filter fun sec =>
      sec.header.type == SectionType.note).map Section.data =
        (image.sections.filter fun sec => sec.header.type == SectionType.note).map
          Section.data := by
    rw [map_filter_eq_filterMap, map_filter_eq_filterMap, h.filterMap_sections]
    intro sec hmem halloc
    rw [Section.writeAt_header, beq_eq_false_iff_ne.2 (hnone sec hmem halloc)]
    rfl
  rw [notes, notes, noteSources, noteSources, h.filter_segments (by decide), hsections, hident]

theorem relocations_eq (h : image.WrittenAt ioff bytes image' vaddr index segment)
    (hnone : ∀ sec ∈ image.sections, sec.header.flags.isAlloc = true →
      relocationForm sec.header = none) : image'.relocations = image.relocations := by
  have hident : image'.ident = image.ident := by rw [h.result]
  rw [relocations, relocations, h.filterMap_sections, hident]
  intro sec hmem halloc
  rw [Section.writeAt_header, hnone sec hmem halloc]
  rfl

end WrittenAt

end ElfImage

/-! ## The tables of a built image -/

/-- The byte at a position of the string table is read with a name: it is one of its bytes,
or the NUL behind them. -/
def InName (needed : List String) (position : ℕ) : Prop :=
  ∃ offset ∈ (dynstrOffsets [0] needed).1, offset ≤ position ∧
    position ≤ offset + (StringTable.untilNul ((dynstr needed).drop offset)).length

namespace ElfBuilder

/-- A write that lies in the string table of the needed libraries repeats the bytes of
their names. -/
def SparesNames (builder : ElfBuilder) (w : Extent UInt8) : Prop :=
  w.stop ≤ (dynstr builder.needed).length → ∀ position byte, w.get? position = some byte →
    InName builder.needed position → (dynstr builder.needed)[position]? = some byte

section Present

variable {builder : ElfBuilder} {d : List UInt8} (h : builder.image.Present d)

include h

/-- Only the sections of the dynamic table are allocated. -/
theorem type_of_alloc {sec : Section} (hmem : sec ∈ (imageOf d).sections)
    (halloc : sec.header.flags.isAlloc = true) :
    sec.header.type = SectionType.strtab ∨ sec.header.type = SectionType.dynamic := by
  obtain ⟨given, hgiven, hplaced⟩ :=
    exists_of_mem_of_forall₂ (ElfImage.sections_placed h (sections_ne_nil builder)) hmem
  have hflags : given.header.flags ≠ 0 := by
    intro hzero
    have hkept := hplaced.flags
    rw [hzero, ElfClass.keep_of_lt _ (by decide)] at hkept
    rw [hkept] at halloc
    exact absurd halloc (by decide)
  rw [hplaced.type]
  rcases mem_ensureShstrtab hgiven with hgiven | rfl
  · rw [sections_image, List.mem_cons, List.mem_append, List.mem_append, List.mem_map] at hgiven
    rcases hgiven with rfl | ⟨spec, -, rfl⟩ | hgiven | hgiven
    · exact absurd rfl hflags
    · exact absurd rfl hflags
    · obtain ⟨-, ⟨-, htype⟩ | ⟨-, htype⟩⟩ := mem_addDynamic hgiven
      · exact Or.inl htype
      · exact Or.inr htype
    · unfold addRela at hgiven
      split at hgiven
      · exact absurd hgiven List.not_mem_nil
      · obtain rfl := List.mem_singleton.1 hgiven
        exact absurd rfl hflags
  · exact absurd rfl hflags

/-- The string table of the needed libraries is allocated at address zero. -/
theorem dynstr_present (hne : builder.needed ≠ []) :
    ∃ sec, (imageOf d).sectionByName ".dynstr" = some sec ∧ sec.data = dynstr builder.needed ∧
      sec.header.flags.isAlloc = true ∧ sec.header.isNobits = false ∧ sec.header.addr = 0 ∧
      sec.header.size.toNat = sec.data.length := by
  have hfind : ((ensureShstrtab builder.image.sections).2.find? fun sec =>
      StringTable.readName sec.name == ".dynstr") =
        some (tableSection ".dynstr" SectionType.strtab SectionFlags.alloc 1 0
          (dynstr builder.needed)) := by
    obtain ⟨-, -, -, -, -, heq | heq⟩ := ensureShstrtab_spec builder.image.sections
    · rw [heq, find?_dynstr hne]
    · rw [heq, List.find?_append, find?_dynstr hne, Option.some_or]
  have hread : ∀ sec sec' : Section, SectionPlaced builder.image.ident.elfClass sec sec' →
      (StringTable.readName sec.name == ".dynstr") = (sec'.name == ".dynstr") :=
    fun sec sec' hplaced => by rw [hplaced.name]
  obtain ⟨sec, hsec, hplaced⟩ :=
    find?_of_forall₂ (ElfImage.sections_placed h (sections_ne_nil builder)) hread hfind
  have hplain : (tableSection ".dynstr" SectionType.strtab SectionFlags.alloc 1 0
      (dynstr builder.needed)).isShstrtab = false :=
    Bool.and_eq_false_iff.2 (Or.inl (show (".dynstr" == ".shstrtab") = false by decide +kernel))
  have hdata : sec.data = dynstr builder.needed := hplaced.data hplain
  refine ⟨sec, hsec, hdata, ?_, ?_, ?_, ?_⟩
  · have hflags : sec.header.flags = SectionFlags.alloc :=
      hplaced.flags.trans (ElfClass.keep_of_lt _ (show SectionFlags.alloc.toNat < 2 ^ 32 by decide))
    rw [hflags]
    decide
  · rw [SectionHeader.isNobits, hplaced.type]
    rfl
  · exact hplaced.addr.trans (ElfClass.keep_of_lt _ (show (0 : UInt64).toNat < 2 ^ 32 by decide))
  · rw [hplaced.size hplain rfl, hdata]
    rfl

/-- The names are read as before exactly when the write spares them. -/
theorem needed_eq_iff {image' : ElfImage} {ioff : UInt64} {bytes : List UInt8}
    {vaddr : UInt64} {index : ℕ} {segment : Segment}
    (hw : (imageOf d).WrittenAt ioff bytes image' vaddr index segment) :
    image'.neededLibraries = (imageOf d).neededLibraries ↔
      builder.SparesNames ⟨vaddr.toNat, bytes⟩ := by
  rw [ElfImage.neededLibraries, ElfImage.neededLibraries, hw.dynamic_eq, hw.sectionByName_eq,
    dynamic_present h]
  by_cases hne : builder.needed = []
  · refine iff_of_true (by rw [if_pos hne]; rfl) ?_
    rintro - position byte - ⟨offset, hoffset, -⟩
    rw [hne] at hoffset
    exact absurd hoffset List.not_mem_nil
  have hmax : maxImage < 2 ^ 32 := by decide
  obtain ⟨table, hparse, hneeded⟩ := parse_serializeDynamic
    ((length_dynamic_le h hne).1.trans_lt hmax) builder.endian builder.elfClass
  obtain ⟨sec, hsec, hdata, halloc, hnobits, haddr, hsize⟩ := dynstr_present h hne
  have hwrite : ∀ position, (sec.writeAt vaddr bytes).data[position]? = _ :=
    Section.getElem?_writeAt halloc hnobits haddr hsize
  have hlen := sec.length_writeAt vaddr bytes
  rw [hdata] at hlen hwrite
  rw [if_neg hne, hparse, Outcome.ok_bind, hsec]
  change Except.ok (table.needed (sec.writeAt vaddr bytes).data) =
    Except.ok (table.needed sec.data) ↔ _
  rw [Except.ok.injEq, hdata, hneeded, hneeded, filterMap_get_dynstr_iff hlen]
  constructor
  · intro hall hstop position byte hbyte hname
    obtain ⟨offset, hoffset, hle, hend⟩ := hname
    have hsame := hall offset hoffset (position - offset) (by omega)
    rw [Nat.add_sub_cancel' hle, hwrite, if_pos hstop, hbyte, Option.some_or] at hsame
    exact hsame.symm
  · intro hspares offset hoffset i hi
    rw [hwrite]
    split
    · rename_i hstop
      cases hbyte : (⟨vaddr.toNat, bytes⟩ : Extent UInt8).get? (offset + i) with
      | none => rw [Option.none_or]
      | some byte =>
          rw [Option.some_or, hspares hstop (offset + i) byte hbyte
            ⟨offset, hoffset, Nat.le_add_right _ _, Nat.add_le_add_left hi _⟩]
    · rfl

end Present

/-- Writing a built image through its loads leaves its notes, its relocations and its
dynamic table as they are, and its needed libraries exactly when the write spares their
names. -/
theorem keepsMetadata_iff {builder : ElfBuilder} {image image' : ElfImage} {ioff : UInt64}
    {bytes : List UInt8} (hbuild : builder.tryBuild = .ok image)
    (hwrite : image.writeAtIoff ioff bytes = some image') :
    image.KeepsMetadata image' ↔ builder.SparesNames (image.written ioff bytes) := by
  obtain ⟨d, hpresent, rfl⟩ := exists_present hbuild
  obtain ⟨vaddr, index, segment, hw⟩ := ElfImage.writeAtIoff_eq_some.1 hwrite
  have hother : ∀ sec ∈ (imageOf d).sections, sec.header.flags.isAlloc = true →
      sec.header.type ≠ SectionType.note ∧ ElfImage.relocationForm sec.header = none := by
    intro sec hmem halloc
    rw [ElfImage.relocationForm]
    rcases type_of_alloc hpresent hmem halloc with htype | htype
    · rw [htype]
      decide
    · rw [htype]
      decide
  rw [hw.written_eq, ← needed_eq_iff hpresent hw]
  exact ⟨fun hkeeps => hkeeps.needed, fun hneeded =>
    { needed := hneeded
      dynamic := hw.dynamic_eq
      notes := hw.notes_eq fun sec hmem halloc => (hother sec hmem halloc).1
      relocations := hw.relocations_eq fun sec hmem halloc => (hother sec hmem halloc).2 }⟩

end ElfBuilder

/-- A builder of a shared object with two bytes of code at `vaddr` and one needed library. -/
def sharedBuilder (vaddr : UInt64) : ElfBuilder :=
  { codeBuilder vaddr with elfType := .dyn, needed := ["libc.so.6"] }

/-- Away from address zero the names are spared. -/
theorem sharedBuilder_kept : ∃ image image', (sharedBuilder 0x1000).tryBuild = .ok image ∧
    image.writeAtIoff 1 [0x78] = some image' ∧ image.KeepsMetadata image' := by
  have hview : ((sharedBuilder 0x1000).tryBuild >>= fun image =>
      pure (image.imageBase, (image.writeAtIoff 1 [0x78]).isSome)) = .ok (0x1000, true) := by
    decide +kernel
  obtain ⟨image, himage, hret⟩ := Outcome.bind_eq_ok.1 hview
  obtain ⟨hbase, hsome⟩ := Prod.mk.inj (Except.ok.inj hret)
  obtain ⟨image', himage'⟩ := Option.isSome_iff_exists.1 hsome
  refine ⟨image, image', himage, himage', ?_⟩
  refine (ElfBuilder.keepsMetadata_iff himage himage').2 fun hstop => ?_
  rw [ElfImage.written, hbase] at hstop
  exact absurd hstop (by decide +kernel)

/-- At address zero the second byte of the code is the first one of the name. -/
theorem sharedBuilder_renamed : ∃ image image', (sharedBuilder 0).tryBuild = .ok image ∧
    image.writeAtIoff 1 [0x78] = some image' ∧ ¬image.KeepsMetadata image' := by
  have hview : ((sharedBuilder 0).tryBuild >>= fun image =>
      pure (image.neededLibraries.toOption, (image.writeAtIoff 1 [0x78]).map fun image' =>
        image'.neededLibraries.toOption)) =
      .ok (some ["libc.so.6"], some (some ["xibc.so.6"])) := by decide +kernel
  obtain ⟨image, himage, hret⟩ := Outcome.bind_eq_ok.1 hview
  obtain ⟨hbefore, hafter⟩ := Prod.mk.inj (Except.ok.inj hret)
  obtain ⟨image', himage', hneeded⟩ := Option.map_eq_some_iff.1 hafter
  refine ⟨image, image', himage, himage', fun hkeeps => ?_⟩
  rw [hkeeps.needed, hbefore] at hneeded
  exact absurd hneeded (by decide)

end Elfex
