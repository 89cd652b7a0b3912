import Elfex.Image.SavedRun

/-!
# Dumps rebuilt

A dump holds the memory of its loads at their distances from the base. Rebuilt as a file it
keeps of each load what its file size asks for. So the rebuilt file is mapped back to the
dump where a load has bytes in the file, and to zeros everywhere else beyond the headers.
-/

namespace Elfex

open Foundation

namespace ElfImage

/-- An address whose byte a load of the image keeps in the file. -/
def StoredAt (image : ElfImage) (address : ℕ) : Prop :=
  ∃ segment ∈ image.segments, segment.header.type = SegmentType.load ∧
    segment.header.vaddr.toNat ≤ address ∧ address < segment.header.vaddr.toNat +
      min segment.header.filesz.toNat segment.header.memsz.toNat

instance (image : ElfImage) (address : ℕ) : Decidable (image.StoredAt address) :=
  inferInstanceAs (Decidable (∃ segment ∈ image.segments, _ ∧ _))

variable {image : ElfImage} {data : List UInt8}

/-- A load of a dump holds the dump's bytes at its distance from the base. -/
def HoldsDump (image : ElfImage) (data : List UInt8) : Prop :=
  ∀ segment ∈ image.segments, segment.header.type = SegmentType.load → ∀ i,
    segment.data[i]? = if i < segment.header.memsz.toNat then
      some (data.getD (segment.header.vaddr.toNat - image.imageBase.toNat + i) 0) else none

theorem holdsDump_of_mapped (hdata : data.length < 2 ^ 64)
    (h : parseMapped data = .ok image ∨ ∃ base, parseMappedAt data base = .ok image) :
    image.HoldsDump data := by
  obtain ⟨base, rfl⟩ : ∃ base, image = { mappedImageOf data with runtimeBase := base } := by
    rcases h with h | ⟨base, h⟩
    · exact ⟨_, ((parseMapped_eq_ok hdata).1 h).2.symm⟩
    · exact ⟨base, ((parseMappedAt_eq_ok hdata).1 h).2.symm⟩
  intro segment hmem hload i
  obtain ⟨header, -, rfl⟩ := List.mem_map.1 hmem
  have htype : header.type = SegmentType.load := hload
  have hnull : header.type ≠ SegmentType.null := by
    rw [htype]
    decide
  rw [imageBase_mappedImageOf, mappedSegmentOf, if_neg hnull, getElem?_mappedBytes hdata,
    toNat_saturatingSub, ProgramHeader.mappedLength, if_pos htype]

/-- What a rebuild keeps of a load of a dump are the dump's bytes. -/
theorem get?_layer_of_kept (hdump : image.HoldsDump data) {segment segment' : Segment}
    (hmem : segment ∈ image.segments) (hload : segment.header.type = SegmentType.load)
    (hkept : SegmentKept segment segment') (hbase : image.imageBase ≤ segment.header.vaddr)
    {a : ℕ} {x : UInt8} : (segment'.layer image.imageBase).get? a = some x ↔
      (segment.header.vaddr.toNat ≤ image.imageBase.toNat + a ∧ image.imageBase.toNat + a <
        segment.header.vaddr.toNat + min segment.header.filesz.toNat
          segment.header.memsz.toNat) ∧ data.getD a 0 = x := by
  have hle := UInt64.le_iff_toNat_le.1 hbase
  rw [Segment.layer, Extent.get?, Segment.mappedStart, hkept.vaddr, hkept.data,
    ← List.take_eq_take_min]
  dsimp only
  by_cases ha : segment.header.vaddr.toNat - image.imageBase.toNat ≤ a
  · rw [if_pos ha, List.getElem?_take, hdump segment hmem hload, Nat.add_sub_cancel' ha]
    split_ifs with hfile hmemory
    · rw [Option.some_inj]
      exact (and_iff_right ⟨by omega, by omega⟩).symm
    · simp only [false_iff]
      omega
    · simp only [false_iff]
      omega
  · simp only [if_neg ha, reduceCtorEq, false_iff]
    omega

/-- The loads of a rebuilt dump show the dump where they keep bytes in the file. -/
theorem topmost_rebuilt_dump (hregular : image.Regular) (hdump : image.HoldsDump data) (a : ℕ) :
    Extent.topmost (placedLayers image.imageBase image.rebuilt.segments) a =
      if image.StoredAt (image.imageBase.toNat + a) then some (data.getD a 0) else none := by
  have hkept := segments_kept hregular
  -- whatever a load shows is the dump's byte
  have hagree : ∀ e ∈ placedLayers image.imageBase image.rebuilt.segments, ∀ x,
      e.get? a = some x → image.StoredAt (image.imageBase.toNat + a) ∧ data.getD a 0 = x := by
    intro e he x hx
    obtain ⟨segment', hmem', ⟨hload', hbase'⟩, rfl⟩ := mem_placedLayers.1 he
    obtain ⟨segment, hmem, hsegment⟩ := exists_of_mem_of_forall₂ hkept hmem'
    rw [hsegment.type] at hload'
    rw [hsegment.vaddr] at hbase'
    obtain ⟨⟨hlow, hhigh⟩, hbyte⟩ :=
      (get?_layer_of_kept hdump hmem hload' hsegment hbase').1 hx
    exact ⟨⟨segment, hmem, hload', hlow, hhigh⟩, hbyte⟩
  split
  · rename_i hstored
    obtain ⟨segment, hmem, hload, hlow, hhigh⟩ := hstored
    have hmemsz : segment.header.memsz ≠ 0 := ne_zero_of_lt_toNat
      (n := image.imageBase.toNat + a - segment.header.vaddr.toNat) (by omega)
    have hbase := UInt64.le_iff_toNat_le.2 (span_encloses hmem hload hmemsz).1
    obtain ⟨index, hindex⟩ := List.mem_iff_getElem?.1 hmem
    obtain ⟨segment', hindex', hsegment⟩ := exists_getElem?_of_forall₂ hkept hindex
    have hplaced : segment'.IsPlaced image.imageBase := by
      rw [Segment.IsPlaced, hsegment.type, hsegment.vaddr]
      exact ⟨hload, hbase⟩
    refine Extent.topmost_eq_of_agree
      (mem_placedLayers.2 ⟨segment', List.mem_of_getElem? hindex', hplaced, rfl⟩)
      ((get?_layer_of_kept hdump hmem hload hsegment hbase).2 ⟨⟨hlow, hhigh⟩, rfl⟩) ?_
    exact fun e he x hx => (hagree e he x hx).2.symm
  · rename_i hstored
    rw [Extent.topmost_eq_none_iff]
    intro e he
    by_contra hsome
    obtain ⟨x, hx⟩ := Option.ne_none_iff_exists'.1 hsome
    exact hstored (hagree e he x hx).1

/-- A dump that is rebuilt as a file, parsed and mapped is the dump where a load has bytes
in the file and zero elsewhere. It is restored beyond the headers exactly when it held zeros
there. -/
theorem dump_restored (hdata : data.length ≤ isizeMax)
    (hparse : parseMapped data = .ok image ∨ ∃ base, parseMappedAt data base = .ok image)
    {b : List UInt8} (hbuild : image.tryBuild = .ok b) :
    ∃ saved, parse b = .ok saved ∧
      ((∃ mapped, saved.toMappedImage = .ok mapped) ↔
        ∃ mapped, image.toMappedImage = .ok mapped) ∧
      ∀ mapped, saved.toMappedImage = .ok mapped → mapped.length = image.imageSpan.toNat ∧
        (∀ a < mapped.length, image.headerArea ≤ a → mapped[a]? =
          some (if image.StoredAt (image.imageBase.toNat + a) then data.getD a 0 else 0)) ∧
        (mapped.length = data.length →
          (mapped.drop image.headerArea = data.drop image.headerArea ↔
            ∀ a < data.length, image.headerArea ≤ a →
              ¬image.StoredAt (image.imageBase.toNat + a) → data.getD a 0 = 0)) := by
  have hregular := (regular_of_mapped hdata hparse).1
  have hmax : isizeMax < 2 ^ 64 := by decide
  have hdump := holdsDump_of_mapped (hdata.trans_lt hmax) hparse
  have hspan := imageSpan_rebuilt hregular hbuild
  refine ⟨image.rebuilt, parse_of_tryBuild hregular hbuild, ?_, fun mapped hmapped => ?_⟩
  · simp only [toMappedImage_eq_ok, exists_and_left, exists_eq', and_true]
    exact mappable_rebuilt hregular hbuild
  obtain ⟨-, rfl⟩ := (toMappedImage_eq_ok _).1 hmapped
  have hlength : image.rebuilt.mappedAtBase.length = image.imageSpan.toNat := by
    rw [length_mappedAtBase, hspan]
  have hshows : ∀ a < image.rebuilt.mappedAtBase.length, image.headerArea ≤ a →
      image.rebuilt.mappedAtBase[a]? =
        some (if image.StoredAt (image.imageBase.toNat + a) then data.getD a 0 else 0) := by
    intro a ha harea
    rw [length_mappedAtBase] at ha
    have hident : image.rebuilt.header.ident = image.rebuilt.ident := hregular.ident
    rw [mappedAtBase_of_le hident ha ((headerArea_rebuilt hregular).symm ▸ harea),
      imageBase_rebuilt hregular hbuild, topmost_rebuilt_dump hregular hdump]
    split <;> rfl
  refine ⟨hlength, hshows, fun hsame => drop_eq_iff_getElem?.trans ?_⟩
  constructor
  · intro hdrop a ha harea hstored
    have hbyte := hdrop a harea
    rw [hshows a (hsame ▸ ha) harea, if_neg hstored] at hbyte
    rw [List.getD_eq_getElem?_getD, ← hbyte, Option.getD_some]
  · intro hzero a harea
    by_cases ha : a < data.length
    · rw [hshows a (hsame ▸ ha) harea, List.getElem?_eq_getElem ha, List.getElem_eq_getD 0]
      split
      · rfl
      · rename_i hstored
        rw [hzero a ha harea hstored]
    · rw [List.getElem?_eq_none (by omega), List.getElem?_eq_none (by omega)]

/-- A dump of an executable whose first segment has two bytes in the file and four in memory,
the last two not zero. -/
def dumpedFile : List UInt8 :=
  loadedFile.take 176 ++ List.replicate 0x50 0 ++ [0x90, 0xc3, 1, 2] ++
    List.replicate 0xfc 0 ++ [0xf4] ++ List.replicate 0xdff 0

/-- The bytes the file size leaves out are lost. -/
theorem dumpedFile_restored :
    ∃ image b saved mapped, parseMapped dumpedFile = .ok image ∧ image.tryBuild = .ok b ∧
      parse b = .ok saved ∧ saved.toMappedImage = .ok mapped ∧
      mapped[0x101]? = some 0xc3 ∧ mapped[0x102]? = some 0 ∧
      dumpedFile[0x102]? = some 1 := by
  obtain ⟨image, himage⟩ := Outcome.exists_of_isOk
    (show (parseMapped dumpedFile).isOk = true by decide +kernel)
  obtain ⟨-, rfl⟩ := (parseMapped_eq_ok (by decide +kernel)).1 himage
  obtain ⟨b, hbuild⟩ := Outcome.exists_of_isOk
    (show (mappedImageOf dumpedFile).tryBuild.isOk = true by decide +kernel)
  obtain ⟨saved, hsaved, hmaps, hshows⟩ :=
    dump_restored (by decide +kernel) (Or.inl himage) hbuild
  obtain ⟨mapped, hmapped⟩ := hmaps.2 (Outcome.exists_of_isOk
    (show (mappedImageOf dumpedFile).toMappedImage.isOk = true by decide +kernel))
  obtain ⟨hlength, hbytes, -⟩ := hshows mapped hmapped
  have hspan : (mappedImageOf dumpedFile).imageSpan = 0x1000 := by decide +kernel
  have hbase : (mappedImageOf dumpedFile).imageBase = 0x1000 := by decide +kernel
  have harea : (mappedImageOf dumpedFile).headerArea = 176 := by decide +kernel
  rw [hspan] at hlength
  have hlast : (mappedImageOf dumpedFile).StoredAt (UInt64.toNat 0x1000 + 0x101) := by
    decide +kernel
  have hlost : ¬(mappedImageOf dumpedFile).StoredAt (UInt64.toNat 0x1000 + 0x102) := by
    decide +kernel
  refine ⟨_, b, saved, mapped, himage, hbuild, hsaved, hmapped, ?_, ?_, by decide +kernel⟩
  · rw [hbytes 0x101 (by rw [hlength]; decide) (by rw [harea]; decide), hbase, if_pos hlast]
    decide +kernel
  · rw [hbytes 0x102 (by rw [hlength]; decide) (by rw [harea]; decide), hbase, if_neg hlost]

end ElfImage

end Elfex
