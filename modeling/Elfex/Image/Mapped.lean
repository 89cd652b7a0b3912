import Elfex.Foundation.Slot
import Elfex.Image.Grammar
import Elfex.Image.Inspect
import Elfex.Image.Geometry

/-!
# Serializing an image as a loader memory image

Every loadable segment is copied to its address relative to the preferred base, the
headers are written over the start, and relative relocations are adjusted when the image
is mapped elsewhere. Ranges of the mapped bytes are formed from header fields and from
relocation entries, and a range outside the bytes faults.
-/

namespace Elfex

open Foundation

/-- The byte order of a file. -/
def Endian.byteOrder (endian : Endian) : ByteOrder where
  order := endian.order
  order_order := endian.order_order
  length_order := endian.length_order

/-- The bytes `start..stop` of a slice. A range outside the slice faults. -/
def sliceRange (bytes : List UInt8) (start stop : ℕ) : Exec (List UInt8) :=
  if start ≤ stop ∧ stop ≤ bytes.length then .ok (window bytes start (stop - start))
  else Outcome.fault

/-- One round of the placement loop. -/
def placeLoad (imageBase : UInt64) (mapped : List UInt8) (segment : Segment) :
    Exec (List UInt8) :=
  if segment.header.type ≠ SegmentType.load then .ok mapped
  else
    match checkedSub segment.header.vaddr imageBase with
    | none => .ok mapped
    | some start => do
      let count := min segment.data.length (mapped.length - start.toNat)
      let stop ← Outcome.add start (UInt64.ofNat count)
      copyFromSlice mapped start.toNat stop.toNat (segment.data.take count)

/-- Adds the base change to the word a relocation entry points at. -/
def relocate (endian : Endian) (delta : UInt64) (mapped : List UInt8) (start stop : UInt64)
    (width : UInt8) : Exec (List UInt8) :=
  if width = 4 then do
    let stored ← sliceRange mapped start.toNat stop.toNat
    let relocated := (endian.u32 stored).toUInt64 + delta
    copyFromSlice mapped start.toNat stop.toNat (endian.u32Bytes (low32 relocated))
  else if width = 8 then do
    let stored ← sliceRange mapped start.toNat stop.toNat
    let relocated := endian.u64 stored + delta
    copyFromSlice mapped start.toNat stop.toNat (endian.u64Bytes relocated)
  else .ok mapped

namespace ElfImage

/-- The file header as the mapped image holds it. -/
def mappedHeader (image : ElfImage) : ElfHeader :=
  { image.header with
    ehsize := u16OrZero (ElfHeader.size image.ident.elfClass).toNat
    phentsize := u16OrZero (ProgramHeader.size image.ident.elfClass).toNat
    phnum := u16OrZero image.segments.length
    phoff := ElfHeader.size image.ident.elfClass }

/-- The file header and program header table as the mapped image holds them. -/
def mappedHeaders (image : ElfImage) : List UInt8 :=
  image.mappedHeader.write ++ image.segments.flatMap fun segment =>
    segment.header.write image.ident.data image.ident.elfClass

/-- One round of the relocation loop. -/
def applyEntry (image : ElfImage) (delta : UInt64) (mapped : List UInt8)
    (entry : RelocationEntry) : Exec (List UInt8) :=
  let machine := image.header.machine
  if relocationKind machine entry.rType ≠ .relative then .ok mapped
  else
    match relocationWidth machine entry.rType with
    | none => .ok mapped
    | some width =>
      match checkedSub entry.offset image.imageBase with
      | none => .ok mapped
      | some start => do
        let stop ← Outcome.add start width.toUInt64
        if mapped.length < stop.toNat then return mapped
        else relocate image.ident.data delta mapped start stop width

/-- Adds the base change to every word a relative relocation points at. -/
def applyRelativeRelocations (image : ElfImage) (mapped : List UInt8) (base : UInt64) :
    Exec (List UInt8) := do
  let delta := base - image.imageBase
  let tables ← image.relocations
  tables.foldlM (fun mapped table => table.entries.foldlM (image.applyEntry delta) mapped)
    mapped

/-- Serializes the image as a loader memory image at `base`. -/
def toMappedImageAt (image : ElfImage) (base : UInt64) : Exec (List UInt8) := do
  let imageBase := image.imageBase
  let span := image.imageSpan.toNat
  if maxImage < span then
    Outcome.fail (.generic "mapped image exceeds the 256 MiB layout limit")
  else
    let mapped ← image.segments.foldlM (placeLoad imageBase) (List.replicate span 0)
    let headers := image.mappedHeaders
    let stop := min headers.length mapped.length
    let mapped ← copyFromSlice mapped 0 stop (headers.take stop)
    if base ≠ imageBase then image.applyRelativeRelocations mapped base
    else return mapped

/-- Serializes the image as a loader memory image at its preferred base. -/
def toMappedImage (image : ElfImage) : Exec (List UInt8) :=
  image.toMappedImageAt image.imageBase

end ElfImage

/-! ## What each loop keeps -/

theorem exists_copyFromSlice {out source : List UInt8} {start stop : ℕ} (hstop : start ≤ stop)
    (hlen : stop ≤ out.length) (hsource : source.length = stop - start) :
    ∃ out', copyFromSlice out start stop source = .ok out' ∧ out'.length = out.length := by
  refine ⟨_, copyFromSlice_eq_ok.2 ⟨⟨hstop, hlen, hsource⟩, rfl⟩, length_splice ?_⟩
  omega

/-- The placement loop copies a loadable segment at or after the base. -/
def Segment.IsPlaced (imageBase : UInt64) (segment : Segment) : Prop :=
  segment.header.type = SegmentType.load ∧ imageBase ≤ segment.header.vaddr

instance (imageBase : UInt64) (segment : Segment) : Decidable (segment.IsPlaced imageBase) :=
  inferInstanceAs (Decidable (_ ∧ _))

/-- Where the placement loop copies a segment to. -/
def Segment.mappedStart (imageBase : UInt64) (segment : Segment) : ℕ :=
  segment.header.vaddr.toNat - imageBase.toNat

/-- A loadable segment at or after the base starts inside the mapped bytes. -/
def Segment.StartsInside (imageBase : UInt64) (span : ℕ) (segment : Segment) : Prop :=
  segment.header.type = SegmentType.load → imageBase ≤ segment.header.vaddr →
    segment.header.vaddr.toNat - imageBase.toNat ≤ span

/-- Placing a segment splices what fits of it into the mapped bytes, and faults when it
starts past their end. -/
theorem placeLoad_eq {imageBase : UInt64} {mapped : List UInt8}
    (hmapped : mapped.length < 2 ^ 64) (segment : Segment) :
    placeLoad imageBase mapped segment =
      if segment.IsPlaced imageBase then
        if segment.mappedStart imageBase ≤ mapped.length then
          .ok (splice mapped (segment.mappedStart imageBase)
            (segment.data.take (mapped.length - segment.mappedStart imageBase)))
        else Outcome.fault
      else .ok mapped := by
  rw [placeLoad]
  by_cases hload : segment.header.type = SegmentType.load
  · rw [if_neg (not_not.2 hload)]
    cases hsub : checkedSub segment.header.vaddr imageBase with
    | none =>
        -- a segment below the base is skipped
        rw [if_neg]
        rintro ⟨-, hle⟩
        rw [checkedSub, if_pos hle] at hsub
        cases hsub
    | some start =>
        have hsub := checkedSub_eq_some.1 hsub
        have hlt := start.toNat_lt
        have hle : imageBase ≤ segment.header.vaddr := UInt64.le_iff_toNat_le.2 (by omega)
        have hstart : start.toNat = segment.mappedStart imageBase := by
          rw [Segment.mappedStart]
          omega
        have hcount : (UInt64.ofNat (min segment.data.length
            (mapped.length - start.toNat))).toNat =
              min segment.data.length (mapped.length - start.toNat) :=
          toNat_ofNat_of_lt (by omega)
        have hstop : start.toNat + (UInt64.ofNat (min segment.data.length
            (mapped.length - start.toNat))).toNat < 2 ^ 64 := by omega
        have htake : segment.data.take (min segment.data.length
            (mapped.length - start.toNat)) =
              segment.data.take (mapped.length - start.toNat) := by
          rw [Nat.min_comm, ← List.take_take, List.take_length]
        dsimp only
        rw [if_pos ⟨hload, hle⟩, Outcome.add_of_lt hstop, Outcome.ok_bind,
          toNat_add_of_lt hstop, hcount, htake, copyFromSlice, List.length_take, ← hstart]
        by_cases hin : start.toNat ≤ mapped.length
        · rw [if_pos (by omega), if_pos hin]
        · rw [if_neg (by omega), if_neg hin]
  · rw [if_pos hload, if_neg fun h => hload h.1]

theorem length_placed {imageBase : UInt64} {mapped : List UInt8} {segment : Segment}
    (h : segment.mappedStart imageBase ≤ mapped.length) :
    (splice mapped (segment.mappedStart imageBase)
      (segment.data.take (mapped.length - segment.mappedStart imageBase))).length =
        mapped.length := by
  apply length_splice
  rw [List.length_take]
  omega

/-- Placing a segment keeps the length of the mapped bytes, and faults exactly when the
segment starts past their end. -/
theorem placeLoad_guarded {imageBase : UInt64} {span : ℕ} (hspan : span < 2 ^ 64)
    (segment : Segment) {mapped : List UInt8} (hmapped : mapped.length = span) :
    Outcome.Guarded (placeLoad imageBase mapped segment) (segment.StartsInside imageBase span)
      fun out => out.length = span := by
  rw [placeLoad_eq (by omega)]
  by_cases hplaced : segment.IsPlaced imageBase
  · rw [if_pos hplaced]
    by_cases hin : segment.mappedStart imageBase ≤ mapped.length
    · rw [if_pos hin]
      exact Outcome.Guarded.of_ok (fun _ _ => hmapped ▸ hin) ((length_placed hin).trans hmapped)
    · rw [if_neg hin]
      exact Outcome.Guarded.of_fault fun h => hin (hmapped ▸ h hplaced.1 hplaced.2)
  · rw [if_neg hplaced]
    exact Outcome.Guarded.of_ok (fun hload hle => absurd ⟨hload, hle⟩ hplaced) hmapped

theorem relocationWidth_eq {machine : Machine} {rType : UInt32} {width : UInt8}
    (h : relocationWidth machine rType = some width) : width = 4 ∨ width = 8 := by
  rw [relocationWidth] at h
  split at h
  · split at h <;> simp_all
  · split at h <;> simp_all
  · cases h

/-- The end of the word a relative relocation at or after the base points at is
representable. -/
def EntryRepresentable (machine : Machine) (imageBase : UInt64) (entry : RelocationEntry) :
    Prop :=
  relocationKind machine entry.rType = .relative →
    ∀ width, relocationWidth machine entry.rType = some width → imageBase ≤ entry.offset →
      entry.offset.toNat - imageBase.toNat + width.toNat < 2 ^ 64

/-- Adjusting a word inside the mapped bytes adds the base change to the number it holds. -/
theorem relocate_eq (endian : Endian) (delta : UInt64) {mapped : List UInt8}
    {start stop : UInt64} {width : UInt8} (hwidth : width = 4 ∨ width = 8)
    (hstop : start.toNat + width.toNat = stop.toNat) (hlen : stop.toNat ≤ mapped.length) :
    relocate endian delta mapped start stop width =
      .ok (Slot.shift endian.byteOrder delta.toNat mapped ⟨start.toNat, width.toNat⟩) := by
  have hread : sliceRange mapped start.toNat stop.toNat =
      .ok (window mapped start.toNat width.toNat) := by
    rw [sliceRange, if_pos ⟨by omega, hlen⟩, ← hstop, Nat.add_sub_cancel_left]
  rw [relocate, hread, Slot.shift, Slot.write, Slot.read]
  generalize window mapped start.toNat width.toNat = stored
  rcases hwidth with rfl | rfl
  · have hvalue : (low32 ((endian.u32 stored).toUInt64 + delta)).toNat % 256 ^ 4 =
        (ofLittle (endian.order stored) + delta.toNat) % 256 ^ 4 := by
      simp [low32, Endian.u32]
    rw [if_pos rfl, Outcome.ok_bind]
    dsimp only
    rw [copyFromSlice, if_pos ⟨by omega, hlen, by rw [Endian.length_u32Bytes, ← hstop]; simp⟩,
      Endian.u32Bytes, (toLittle_eq_iff).2 hvalue]
    rfl
  · have hvalue : (endian.u64 stored + delta).toNat % 256 ^ 8 =
        (ofLittle (endian.order stored) + delta.toNat) % 256 ^ 8 := by
      simp [Endian.u64]
    rw [if_neg (by decide), if_pos rfl, Outcome.ok_bind]
    dsimp only
    rw [copyFromSlice, if_pos ⟨by omega, hlen, by rw [Endian.length_u64Bytes, ← hstop]; simp⟩,
      Endian.u64Bytes, (toLittle_eq_iff).2 hvalue]
    rfl

/-- The word a relative relocation of known width at or after the base points at. -/
def entrySlot (machine : Machine) (imageBase : UInt64) (entry : RelocationEntry) :
    Option Slot :=
  if relocationKind machine entry.rType = .relative ∧ imageBase ≤ entry.offset then
    (relocationWidth machine entry.rType).map fun width =>
      ⟨entry.offset.toNat - imageBase.toNat, width.toNat⟩
  else none

theorem entryRepresentable_iff (machine : Machine) (imageBase : UInt64)
    (entry : RelocationEntry) : EntryRepresentable machine imageBase entry ↔
      ∀ slot, entrySlot machine imageBase entry = some slot → slot.stop < 2 ^ 64 := by
  rw [EntryRepresentable, entrySlot]
  by_cases h : relocationKind machine entry.rType = .relative ∧ imageBase ≤ entry.offset
  · rw [if_pos h]
    cases relocationWidth machine entry.rType <;> simp [h, Slot.stop]
  · rw [if_neg h]
    simp only [reduceCtorEq, false_implies, implies_true, iff_true]
    exact fun hkind _ _ hle => absurd ⟨hkind, hle⟩ h

namespace ElfImage

/-- A relocation shifts its word when the word lies in the mapped bytes, and faults when
the end of the word is not representable. -/
theorem applyEntry_eq (image : ElfImage) (delta : UInt64) (mapped : List UInt8)
    (entry : RelocationEntry) :
    image.applyEntry delta mapped entry =
      match entrySlot image.header.machine image.imageBase entry with
      | none => .ok mapped
      | some slot =>
        if slot.stop < 2 ^ 64 then
          .ok (if slot.stop ≤ mapped.length then
            slot.shift image.ident.data.byteOrder delta.toNat mapped else mapped)
        else Outcome.fault := by
  rw [applyEntry, entrySlot]
  by_cases hkind : relocationKind image.header.machine entry.rType = .relative
  · rw [if_neg (not_not.2 hkind)]
    cases hwidth : relocationWidth image.header.machine entry.rType with
    | none => simp
    | some width =>
        cases hsub : checkedSub entry.offset image.imageBase with
        | none =>
            -- a word below the base is skipped
            rw [if_neg]
            rintro ⟨-, hle⟩
            rw [checkedSub, if_pos hle] at hsub
            cases hsub
        | some start =>
            have hsub := checkedSub_eq_some.1 hsub
            have hle : image.imageBase ≤ entry.offset := UInt64.le_iff_toNat_le.2 (by omega)
            have hstart : entry.offset.toNat - image.imageBase.toNat = start.toNat := by omega
            have hwidth64 : width.toUInt64.toNat = width.toNat := UInt8.toNat_toUInt64 width
            rw [if_pos ⟨hkind, hle⟩, Option.map_some, hstart]
            have hend : (⟨start.toNat, width.toNat⟩ : Slot).stop =
                start.toNat + width.toNat := rfl
            dsimp only
            rw [hend]
            by_cases hfit : start.toNat + width.toNat < 2 ^ 64
            · have hfit' : start.toNat + width.toUInt64.toNat < 2 ^ 64 := hwidth64 ▸ hfit
              have hstop : start.toNat + width.toNat = (start + width.toUInt64).toNat := by
                rw [toNat_add_of_lt hfit', hwidth64]
              rw [if_pos hfit, Outcome.add_of_lt hfit', Outcome.ok_bind, hstop]
              by_cases hlen : (start + width.toUInt64).toNat ≤ mapped.length
              · rw [if_neg (Nat.not_lt.2 hlen), if_pos hlen]
                exact relocate_eq _ _ (relocationWidth_eq hwidth) hstop hlen
              · rw [if_pos (Nat.lt_of_not_le hlen), if_neg hlen]
                rfl
            · rw [if_neg hfit, Outcome.add_of_not_lt (hwidth64.symm ▸ hfit)]
              rfl
  · rw [if_pos hkind, if_neg fun h => hkind h.1]

/-- A relocation keeps the length of the mapped bytes, and faults exactly when the end of
its word is not representable. -/
theorem applyEntry_guarded (image : ElfImage) (delta : UInt64) {span : ℕ}
    (entry : RelocationEntry) {mapped : List UInt8} (hmapped : mapped.length = span) :
    Outcome.Guarded (image.applyEntry delta mapped entry)
      (EntryRepresentable image.header.machine image.imageBase entry)
      fun out => out.length = span := by
  rw [applyEntry_eq, entryRepresentable_iff]
  cases entrySlot image.header.machine image.imageBase entry with
  | none => exact Outcome.Guarded.of_ok (by simp) hmapped
  | some slot =>
      simp only [Option.some.injEq, forall_eq']
      by_cases hfit : slot.stop < 2 ^ 64
      · rw [if_pos hfit]
        refine Outcome.Guarded.of_ok hfit ?_
        split
        · rename_i hlen
          exact (Slot.length_write hlen _).trans hmapped
        · exact hmapped
      · rw [if_neg hfit]
        exact Outcome.Guarded.of_fault hfit

theorem relocations_defined (image : ElfImage) : image.relocations.Defined := by
  have harray : ∀ n data offset, (arrayAt n data offset).Defined := by
    intro n data offset
    rw [arrayAt]
    split <;> simp
  have hentry : ∀ isRela endian elfClass entry,
      (RelocationEntry.parse isRela endian elfClass entry).Defined := by
    intro isRela endian elfClass entry
    cases isRela <;> cases elfClass <;> simp only [RelocationEntry.parse, pure_bind]
    · exact (harray 4 entry 0).bind fun _ => (harray 4 entry 4).bind fun _ =>
        Outcome.defined_ok _
    · exact (harray 8 entry 0).bind fun _ => (harray 8 entry 8).bind fun _ =>
        Outcome.defined_ok _
    · exact (harray 4 entry 0).bind fun _ => (harray 4 entry 4).bind fun _ =>
        (harray 4 entry 8).bind fun _ => Outcome.defined_ok _
    · exact (harray 8 entry 0).bind fun _ => (harray 8 entry 8).bind fun _ =>
        (harray 8 entry 16).bind fun _ => Outcome.defined_ok _
  refine Outcome.Defined.mapM _ fun entry => ?_
  rw [RelocationSection.parse]
  split
  · exact Outcome.defined_fail _
  · exact (Outcome.Defined.mapM _ fun chunk => hentry _ _ _ chunk).bind fun entries =>
      Outcome.defined_ok _

/-- The loop over the relocation tables faults exactly when some entry's end is not
representable. -/
theorem applyRelativeRelocations_defined_iff (image : ElfImage) (base : UInt64)
    (mapped : List UInt8) :
    (image.applyRelativeRelocations mapped base).Defined ↔
      ∀ tables, image.relocations = .ok tables → ∀ table ∈ tables, ∀ entry ∈ table.entries,
        EntryRepresentable image.header.machine image.imageBase entry := by
  unfold applyRelativeRelocations
  dsimp only
  rcases (Outcome.defined_iff _).1 image.relocations_defined with ⟨tables, htables⟩ | ⟨e, he⟩
  · rw [htables, Outcome.ok_bind]
    have hloop := Outcome.Guarded.foldlM (I := fun out : List UInt8 => out.length = mapped.length)
      (b := mapped) tables (fun table _ out hout =>
        Outcome.Guarded.foldlM table.entries (fun entry _ out' hout' =>
          image.applyEntry_guarded (base - image.imageBase) entry hout') hout) rfl
    rw [hloop.defined_iff]
    simp
  · rw [he, Outcome.fail_bind]
    refine iff_of_true (Outcome.defined_fail e) fun tables htables => ?_
    cases htables

end ElfImage

namespace ElfImage

theorem copyHeaders_eq_ok (image : ElfImage) (mapped : List UInt8) :
    ∃ out, copyFromSlice mapped 0 (min image.mappedHeaders.length mapped.length)
      (image.mappedHeaders.take (min image.mappedHeaders.length mapped.length)) = .ok out ∧
      out.length = mapped.length := by
  apply exists_copyFromSlice (Nat.zero_le _) (Nat.min_le_right _ _)
  rw [List.length_take]
  omega

/-- Every loadable segment without memory starts inside the span, or below the base. -/
def EmptyLoadsInside (image : ElfImage) : Prop :=
  ∀ segment ∈ image.segments, segment.header.type = SegmentType.load →
    segment.header.memsz = 0 → image.imageBase ≤ segment.header.vaddr →
    segment.header.vaddr.toNat - image.imageBase.toNat ≤ image.imageSpan.toNat

/-- The ends of the words that relative relocations at or after the base point at are
representable. -/
def RelocationsRepresentable (image : ElfImage) : Prop :=
  ∀ tables, image.relocations = .ok tables → ∀ table ∈ tables, ∀ entry ∈ table.entries,
    EntryRepresentable image.header.machine image.imageBase entry

/-- A load with memory always starts inside the mapped bytes. -/
theorem startsInside_iff (image : ElfImage) :
    (∀ segment ∈ image.segments,
      segment.StartsInside image.imageBase image.imageSpan.toNat) ↔ image.EmptyLoadsInside := by
  refine forall₂_congr fun segment hmem => ?_
  constructor
  · intro h hload _ hle
    exact h hload hle
  · intro h hload hle
    by_cases hempty : segment.header.memsz = 0
    · exact h hload hempty hle
    · have hencloses := (span_encloses hmem hload hempty).2
      have hlt := segment.header.vaddr.toNat_lt
      omega

/-- The placement loop faults exactly when some load starts outside the mapped bytes. -/
theorem placeLoads_guarded (image : ElfImage) {mapped : List UInt8}
    (hmapped : mapped.length = image.imageSpan.toNat) :
    Outcome.Guarded (image.segments.foldlM (placeLoad image.imageBase) mapped)
      (∀ segment ∈ image.segments,
        segment.StartsInside image.imageBase image.imageSpan.toNat)
      fun out => out.length = image.imageSpan.toNat :=
  Outcome.Guarded.foldlM image.segments
    (fun segment _ _ hout => placeLoad_guarded image.imageSpan.toNat_lt segment hout) hmapped

/-- Mapping an image never faults exactly when the span is rejected, or the empty loads
start inside it and, away from the preferred base, the relocated words have representable
ends. -/
theorem toMappedImageAt_defined_iff (image : ElfImage) (base : UInt64) :
    (image.toMappedImageAt base).Defined ↔ maxImage < image.imageSpan.toNat ∨
      image.EmptyLoadsInside ∧ (base = image.imageBase ∨ image.RelocationsRepresentable) := by
  rw [toMappedImageAt]
  dsimp only
  by_cases hspan : maxImage < image.imageSpan.toNat
  · rw [if_pos hspan]
    exact iff_of_true (Outcome.defined_fail _) (Or.inl hspan)
  · rw [if_neg hspan, or_iff_right hspan, ← startsInside_iff]
    have hplace := image.placeLoads_guarded
      (show (List.replicate image.imageSpan.toNat 0).length = _ from List.length_replicate)
    by_cases hinside : ∀ segment ∈ image.segments,
        segment.StartsInside image.imageBase image.imageSpan.toNat
    · obtain ⟨mapped, hmapped, -⟩ := hplace.ok hinside
      rcases image.copyHeaders_eq_ok mapped with ⟨out, hout, -⟩
      rw [hmapped, Outcome.ok_bind, hout, Outcome.ok_bind, and_iff_right hinside]
      by_cases hbase : base = image.imageBase
      · rw [if_neg (not_not.2 hbase)]
        exact iff_of_true (Outcome.defined_ok out) (Or.inl hbase)
      · rw [if_pos hbase, or_iff_right hbase]
        exact image.applyRelativeRelocations_defined_iff base out
    · rw [hplace.fault hinside, Outcome.fault_bind]
      exact iff_of_false (fun h => h rfl) fun h => hinside h.1

end ElfImage

/-- An executable whose only loadable segment has no memory and starts at `0x1000`. -/
def emptyLoadFile : List UInt8 :=
  { smallHeader with shoff := 0, shnum := 0, shstrndx := 0 }.write ++
    { smallLoad with filesz := 0, memsz := 0 }.write .little .elf64

/-- An executable at address zero with a relative relocation of the last address. -/
def farRelocationFile : List UInt8 :=
  { smallHeader with shoff := 144, shnum := 1, shstrndx := 0 }.write ++
    { smallLoad with vaddr := 0, filesz := 24, memsz := 24 }.write .little .elf64 ++
    Endian.little.u64Bytes 0xffffffffffffffff ++ Endian.little.u64Bytes 8 ++
    Endian.little.u64Bytes 0 ++
    { smallText with type := SectionType.rela, size := 24 }.write .little .elf64

/-- Placing an empty segment past the span faults, and so does forming the range of a
relocation at the last address. -/
theorem mapping_faults :
    (∃ image, ElfImage.parse emptyLoadFile = .ok image ∧
      image.toMappedImageAt 0 = Outcome.fault) ∧
    ∃ image, ElfImage.parse farRelocationFile = .ok image ∧
      image.toMappedImageAt 0x1000 = Outcome.fault := by
  constructor
  · obtain ⟨image, himage⟩ := Outcome.exists_of_isOk
      (show (ElfImage.parse emptyLoadFile).isOk = true by decide +kernel)
    have hrun : (ElfImage.parse emptyLoadFile >>= fun image => image.toMappedImageAt 0) =
        Outcome.fault := by decide +kernel
    rw [himage, Outcome.ok_bind] at hrun
    exact ⟨image, himage, hrun⟩
  · obtain ⟨image, himage⟩ := Outcome.exists_of_isOk
      (show (ElfImage.parse farRelocationFile).isOk = true by decide +kernel)
    have hrun : (ElfImage.parse farRelocationFile >>=
        fun image => image.toMappedImageAt 0x1000) = Outcome.fault := by decide +kernel
    rw [himage, Outcome.ok_bind] at hrun
    exact ⟨image, himage, hrun⟩

end Elfex
