import Elfex.Image.MappedRun
import Elfex.Image.Rebased
import Elfex.Image.Saved

/-!
# Saved images in memory

A rebuild moves file offsets and nothing else that a loader reads: the built file is mapped
to the bytes the image is mapped to, at every base, beyond the headers. So a run of writes
that is saved, parsed and mapped is found in memory where it was made.
-/

namespace Elfex

open Foundation

namespace ElfImage

variable {image : ElfImage}

/-- Every load has its bytes in the file. -/
def LoadsStored (image : ElfImage) : Prop :=
  ∀ segment ∈ image.segments, segment.header.type = SegmentType.load →
    segment.data.length ≤ segment.header.filesz.toNat

/-- The rebuilt loads are laid where the given ones are. -/
theorem placedLayers_rebuilt (hregular : image.Regular) (hstored : image.LoadsStored)
    (imageBase : UInt64) :
    placedLayers imageBase image.rebuilt.segments = placedLayers imageBase image.segments := by
  have hkept := segments_kept hregular
  have hboth : List.Forall₂ (fun segment segment' => SegmentKept segment segment' ∧
      segment ∈ image.segments) image.segments image.rebuilt.segments := by
    rw [List.forall₂_iff_zip] at hkept ⊢
    exact ⟨hkept.1, fun hmem => ⟨hkept.2 hmem, (List.of_mem_zip hmem).1⟩⟩
  refine (map_filter_eq_of_forall₂ hboth ?_ ?_).symm
  · rintro segment segment' ⟨hsegment, -⟩
    rw [decide_eq_decide, Segment.IsPlaced, Segment.IsPlaced, hsegment.type, hsegment.vaddr]
  · rintro segment segment' ⟨hsegment, hmem⟩ hplaced
    have hload := (of_decide_eq_true hplaced).1
    have hwhole : segment'.data = segment.data := by
      rw [hsegment.data, Nat.min_eq_right (hstored segment hmem hload), List.take_length]
    rw [Segment.layer, Segment.layer, Segment.mappedStart, Segment.mappedStart, hsegment.vaddr,
      hwhole]

theorem headerArea_rebuilt (hregular : image.Regular) :
    image.rebuilt.headerArea = image.headerArea := by
  have hlength := (segments_kept hregular).length_eq
  rw [headerArea, headerArea, show image.rebuilt.segments = image.rebuiltSegments from rfl,
    ← hlength]
  rfl

section Rebuilt

variable {b : List UInt8} (hregular : image.Regular) (hbuild : image.tryBuild = .ok b)

include hregular hbuild

theorem sameMeaning_of_tryBuild : SameMeaning image image.rebuilt := by
  have hpresent : image.Present b := by
    simpa using (tryBuild_eq_ok hbuild).present hregular.ident []
  exact sameMeaning_rebuilt hpresent hregular

theorem parse_of_tryBuild : parse b = .ok image.rebuilt := by
  have hmax : maxImage ≤ isizeMax := by decide
  simpa using parse_build hregular.ident hregular.names hbuild (t := [])
    (by simpa using (tryBuild_eq_ok hbuild).limit.trans hmax)

theorem imageBase_rebuilt : image.rebuilt.imageBase = image.imageBase := by
  rw [imageBase, imageBase, (sameMeaning_of_tryBuild hregular hbuild).geometry]

theorem imageSpan_rebuilt : image.rebuilt.imageSpan = image.imageSpan := by
  rw [imageSpan, imageSpan, (sameMeaning_of_tryBuild hregular hbuild).geometry]

theorem mappable_rebuilt : image.rebuilt.Mappable ↔ image.Mappable := by
  have hspan := imageSpan_rebuilt hregular hbuild
  have hbase := imageBase_rebuilt hregular hbuild
  have hinside : ∀ segment segment' : Segment, SegmentKept segment segment' →
      (segment'.StartsInside image.rebuilt.imageBase image.rebuilt.imageSpan.toNat ↔
        segment.StartsInside image.imageBase image.imageSpan.toNat) := by
    intro segment segment' hsegment
    rw [Segment.StartsInside, Segment.StartsInside, hsegment.type, hsegment.vaddr, hbase, hspan]
  constructor
  · rintro ⟨hallowed, hstarts⟩
    refine ⟨hspan ▸ hallowed, fun segment hmem => ?_⟩
    obtain ⟨i, hi⟩ := List.mem_iff_getElem?.1 hmem
    obtain ⟨segment', hsegment', hkept⟩ :=
      exists_getElem?_of_forall₂ (segments_kept hregular) hi
    exact (hinside segment segment' hkept).1 (hstarts segment' (List.mem_of_getElem? hsegment'))
  · rintro ⟨hallowed, hstarts⟩
    refine ⟨hspan.symm ▸ hallowed, fun segment' hmem => ?_⟩
    obtain ⟨segment, hsegment, hkept⟩ := exists_of_mem_of_forall₂ (segments_kept hregular) hmem
    exact (hinside segment segment' hkept).2 (hstarts segment hsegment)

/-- The rebuilt image relocates the slots the given one does. -/
theorem relativeSlots_rebuilt : image.rebuilt.relativeSlots = image.relativeSlots := by
  have hslot : image.rebuilt.relativeSlot = image.relativeSlot := by
    funext entry
    rw [relativeSlot, relativeSlot, imageBase_rebuilt hregular hbuild,
      imageSpan_rebuilt hregular hbuild]
    rfl
  rw [relativeSlots, relativeSlots, hslot, relocationEntries, relocationEntries,
    (sameMeaning_of_tryBuild hregular hbuild).relocations]

theorem relocatable_rebuilt : image.rebuilt.Relocatable ↔ image.Relocatable := by
  have hrelocations := (sameMeaning_of_tryBuild hregular hbuild).relocations
  have hbase := imageBase_rebuilt hregular hbuild
  have hrepresentable : image.rebuilt.RelocationsRepresentable ↔
      image.RelocationsRepresentable := by
    rw [RelocationsRepresentable, RelocationsRepresentable, hrelocations, hbase]
    rfl
  constructor
  · rintro ⟨hdecodes, hall⟩
    exact ⟨hrelocations ▸ hdecodes, hrepresentable.1 hall⟩
  · rintro ⟨hdecodes, hall⟩
    exact ⟨hrelocations.symm ▸ hdecodes, hrepresentable.2 hall⟩

/-- Beyond the headers the rebuilt image shows what the given one does. -/
theorem getElem?_mappedAtBase_rebuilt (hstored : image.LoadsStored) {a : ℕ}
    (harea : image.headerArea ≤ a) :
    image.rebuilt.mappedAtBase[a]? = image.mappedAtBase[a]? := by
  have hspan := imageSpan_rebuilt hregular hbuild
  by_cases ha : a < image.imageSpan.toNat
  · have hident : image.rebuilt.header.ident = image.rebuilt.ident := hregular.ident
    rw [mappedAtBase_of_le hregular.ident ha harea,
      mappedAtBase_of_le hident (hspan.symm ▸ ha)
        ((headerArea_rebuilt hregular).symm ▸ harea),
      imageBase_rebuilt hregular hbuild, placedLayers_rebuilt hregular hstored]
  · have hlength := length_mappedAtBase image
    have hlength' := length_mappedAtBase image.rebuilt
    rw [hspan] at hlength'
    rw [List.getElem?_eq_none (by omega), List.getElem?_eq_none (by omega)]

/-- The built file is mapped as the image is, at every base: the bytes beyond the headers are
the same, as long as no relocated word starts among the headers. -/
theorem toMappedImageAt_rebuilt (hstored : image.LoadsStored) {base : UInt64}
    (hslots : base ≠ image.imageBase → ∀ slot ∈ image.relativeSlots,
      image.headerArea ≤ slot.start) {mapped : List UInt8}
    (hmapped : image.toMappedImageAt base = .ok mapped) :
    ∃ mapped', image.rebuilt.toMappedImageAt base = .ok mapped' ∧
      mapped'.length = mapped.length ∧
      mapped'.drop image.headerArea = mapped.drop image.headerArea := by
  have hspan := imageSpan_rebuilt hregular hbuild
  have hbase := imageBase_rebuilt hregular hbuild
  have hlength : image.rebuilt.mappedAtBase.length = image.mappedAtBase.length := by
    rw [length_mappedAtBase, length_mappedAtBase, hspan]
  have hinside := relativeSlots_inside (length_mappedAtBase image)
  obtain ⟨hmappable, hrelocatable, rfl⟩ := toMappedImageAt_eq_ok_iff.1 hmapped
  refine ⟨_, toMappedImageAt_eq_ok_iff.2 ⟨(mappable_rebuilt hregular hbuild).2 hmappable,
    fun hne => (relocatable_rebuilt hregular hbuild).2 (hrelocatable (hbase ▸ hne)), rfl⟩, ?_, ?_⟩
  · rw [relativeSlots_rebuilt hregular hbuild, Slot.length_shiftAll _ hinside,
      Slot.length_shiftAll _ (hlength ▸ hinside), hlength]
  · have hagree : ∀ a, image.headerArea ≤ a →
        image.rebuilt.mappedAtBase[a]? = image.mappedAtBase[a]? := fun a =>
      getElem?_mappedAtBase_rebuilt hregular hbuild hstored
    rw [relativeSlots_rebuilt hregular hbuild, hbase, drop_eq_iff_getElem?]
    intro a ha
    by_cases hne : base = image.imageBase
    · -- at the preferred base no word moves
      have hzero : ∀ bytes : List UInt8, bytes.length = image.mappedAtBase.length →
          Slot.shiftAll image.ident.data.byteOrder (base - image.imageBase).toNat bytes
            image.relativeSlots = bytes := by
        intro bytes hbytes
        refine Slot.shiftAll_eq_self_of_dvd _ (hbytes.symm ▸ hinside) fun slot _ => ?_
        rw [hne, UInt64.sub_self, UInt64.toNat_zero]
        exact Nat.dvd_zero _
      have hrebuilt := hzero _ hlength
      rw [show image.rebuilt.ident = image.ident from rfl, hrebuilt, hzero _ rfl]
      exact hagree a ha
    · exact Slot.getElem?_shiftAll_of_agree _ hinside hlength (hslots hne) hagree ha

end Rebuilt

theorem loadsStored_of_parse {data : List UInt8} (hdata : data.length ≤ isizeMax)
    (hparse : parse data = .ok image) : image.LoadsStored := by
  intro segment hmem hload
  refine ((regular_of_parse hdata hparse).2 segment hmem ?_).le
  rw [hload]
  decide

/-- Rebuilding a parsed file keeps what is mapped of it, at every base at which no relocated
word starts among the headers. -/
theorem rebuild_keeps_memory {data b : List UInt8} (hdata : data.length ≤ isizeMax)
    (hparse : parse data = .ok image) (hbuild : image.tryBuild = .ok b) {base : UInt64}
    (hslots : base ≠ image.imageBase → ∀ slot ∈ image.relativeSlots,
      image.headerArea ≤ slot.start) {mapped : List UInt8}
    (hmapped : image.toMappedImageAt base = .ok mapped) :
    ∃ saved mapped', parse b = .ok saved ∧ saved.toMappedImageAt base = .ok mapped' ∧
      mapped'.length = mapped.length ∧
      mapped'.drop image.headerArea = mapped.drop image.headerArea := by
  have hregular := (regular_of_parse hdata hparse).1
  obtain ⟨mapped', hmapped', hkept⟩ := toMappedImageAt_rebuilt hregular hbuild
    (loadsStored_of_parse hdata hparse) hslots hmapped
  exact ⟨_, mapped', parse_of_tryBuild hregular hbuild, hmapped', hkept⟩

/-- A library that relocates one word is rebuilt and placed at another base. -/
theorem relaFile_keeps_memory :
    ∃ b mapped saved mapped', (imageOf (relaFile 8)).tryBuild = .ok b ∧
      (imageOf (relaFile 8)).toMappedImageAt 0x2000 = .ok mapped ∧ parse b = .ok saved ∧
      saved.toMappedImageAt 0x2000 = .ok mapped' ∧ mapped'.drop 120 = mapped.drop 120 := by
  have himage : parse (relaFile 8) = .ok (imageOf (relaFile 8)) :=
    parse_imageOf (by decide +kernel) (by decide +kernel)
  obtain ⟨b, hbuild⟩ := Outcome.exists_of_isOk
    (show (imageOf (relaFile 8)).tryBuild.isOk = true by decide +kernel)
  obtain ⟨mapped, hmapped⟩ := Outcome.exists_of_isOk
    (show ((imageOf (relaFile 8)).toMappedImageAt 0x2000).isOk = true by decide +kernel)
  have hslots : (imageOf (relaFile 8)).relativeSlots = [⟨0x100, 8⟩] := by decide +kernel
  have harea : (imageOf (relaFile 8)).headerArea = 120 := by decide +kernel
  obtain ⟨saved, mapped', hsaved, hmapped', -, hdrop⟩ := rebuild_keeps_memory
    (by decide +kernel) himage hbuild (fun _ => by rw [hslots, harea]; decide) hmapped
  rw [harea] at hdrop
  exact ⟨b, mapped, saved, mapped', hbuild, hmapped, hsaved, hmapped', hdrop⟩

/-! ## Saving a run of writes -/

/-- A run of writes keeps what the parser guarantees. -/
theorem Regular.writeAll (hregular : image.Regular) (ws : List Write) :
    (image.writeAll ws).Regular := by
  induction ws generalizing image with
  | nil => exact hregular
  | cons w ws ih =>
      rw [writeAll_cons]
      apply ih
      cases hwrite : image.writeAtIoff w.ioff w.bytes with
      | none => exact hregular
      | some image' =>
          obtain ⟨vaddr, index, segment, h⟩ := writeAtIoff_eq_some.1 hwrite
          exact h.regular hregular

theorem SameShape.loadsStored {image' : ElfImage} (h : image.SameShape image')
    (hstored : image.LoadsStored) : image'.LoadsStored := by
  intro segment hmem hload
  obtain ⟨index, hsegment⟩ := List.mem_iff_getElem?.1 hmem
  obtain ⟨before, hbefore, hheader, hlength⟩ := h.symm.segment hsegment
  rw [← hheader] at hload ⊢
  rw [← hlength]
  exact hstored before (List.mem_of_getElem? hbefore) hload

/-- A run of writes on a parsed file is found in memory after saving, parsing and mapping:
beyond the headers the mapped bytes are those of the file, with the last accepted request
at every offset. -/
theorem saved_run_in_memory {data : List UInt8} (hdata : data.length ≤ isizeMax)
    (hparse : parse data = .ok image) (hdisjoint : image.LoadsDisjoint)
    (hsizes : ∀ segment ∈ image.segments, segment.header.type = SegmentType.load →
      segment.header.filesz ≤ segment.header.memsz)
    {mapped : List UInt8} (hmapped : image.toMappedImage = .ok mapped) (ws : List Write)
    {b : List UInt8} (hbuild : (image.writeAll ws).tryBuild = .ok b) :
    ∃ saved mapped', parse b = .ok saved ∧ saved.toMappedImage = .ok mapped' ∧
      mapped'.length = mapped.length ∧
      ∀ a < mapped.length, image.headerArea ≤ a →
        mapped'[a]? = (Extent.topmost (image.acceptedAt ws) a).or mapped[a]? := by
  have hregular := (regular_of_parse hdata hparse).1
  have hshape := image.sameShape_writeAll ws
  obtain ⟨hmappable, rfl⟩ := (toMappedImage_eq_ok image).1 hmapped
  have hbase : (image.writeAll ws).toMappedImageAt (image.writeAll ws).imageBase =
      .ok (image.writeAll ws).mappedAtBase :=
    (toMappedImage_eq_ok _).2 ⟨(mappable_congr hshape.headers).2 hmappable, rfl⟩
  obtain ⟨mapped', hmapped', hlength', hkept⟩ := toMappedImageAt_rebuilt (hregular.writeAll ws)
    hbuild (hshape.loadsStored (loadsStored_of_parse hdata hparse))
    (fun hne => absurd rfl hne) hbase
  have hrebuilt : (image.writeAll ws).rebuilt.toMappedImage = .ok mapped' := by
    rw [toMappedImage, imageBase_rebuilt (hregular.writeAll ws) hbuild]
    exact hmapped'
  refine ⟨_, mapped', parse_of_tryBuild (hregular.writeAll ws) hbuild, hrebuilt,
    ?_, fun a ha harea => ?_⟩
  · rw [hlength', length_mappedAtBase, length_mappedAtBase, imageSpan_congr hshape.headers]
  · rw [hshape.headerArea_eq (image.lastWritesShow_writeAll ws).ident] at hkept
    rw [length_mappedAtBase] at ha
    rw [drop_eq_iff_getElem?.1 hkept a harea, getElem?_mappedAtBase_writeAll hdisjoint
      (data_le_memsz_of_parse hdata hparse hsizes) hregular.ident ws ha harea]

/-- A patched instruction is found in memory after saving. -/
theorem loadedFile_saved :
    ∃ b saved mapped', ((imageOf loadedFile).writeAll [⟨0x100, [0xcc]⟩]).tryBuild = .ok b ∧
      parse b = .ok saved ∧ saved.toMappedImage = .ok mapped' ∧
      mapped'[0x100]? = some 0xcc := by
  have himage : parse loadedFile = .ok (imageOf loadedFile) :=
    parse_imageOf (by decide +kernel) (by decide +kernel)
  obtain ⟨b, hbuild⟩ := Outcome.exists_of_isOk
    (show ((imageOf loadedFile).writeAll [⟨0x100, [0xcc]⟩]).tryBuild.isOk = true by
      decide +kernel)
  obtain ⟨mapped, hmapped⟩ := Outcome.exists_of_isOk
    (show (imageOf loadedFile).toMappedImage.isOk = true by decide +kernel)
  obtain ⟨saved, mapped', hsaved, hmapped', -, hshows⟩ := saved_run_in_memory
    (by decide +kernel) himage (by decide +kernel) (by decide +kernel) hmapped [⟨0x100, [0xcc]⟩]
    hbuild
  have hlength : (imageOf loadedFile).toMappedImage.map List.length = .ok 0x1000 := by
    decide +kernel
  rw [hmapped] at hlength
  have harea : (imageOf loadedFile).headerArea = 176 := by decide +kernel
  have htop : Extent.topmost ((imageOf loadedFile).acceptedAt [⟨0x100, [0xcc]⟩]) 0x100 =
      some 0xcc := by decide +kernel
  refine ⟨b, saved, mapped', hbuild, hsaved, hmapped', ?_⟩
  rw [hshows 0x100 (by have := Except.ok.inj hlength; omega) (by omega), htop]
  rfl

end ElfImage

end Elfex
