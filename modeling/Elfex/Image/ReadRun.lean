import Elfex.Image.LoaderView
import Elfex.Image.MappedRun

/-!
# Reading a run of writes

Where the first segment at an offset is a load, the owned read and the mapped image show
the same bytes as far as the load has memory, and a run of writes is read back as its last
accepted request at every offset.
-/

namespace Elfex

open Foundation

namespace ElfImage

variable {image : ElfImage} {ioff : UInt64} {load : Segment} {len : ℕ}

/-- The range from an offset on starts in a load that every accessor resolves it to, and
ends inside its memory. -/
structure InsideLoad (image : ElfImage) (ioff : UInt64) (len : ℕ) (load : Segment) :
    Prop where
  found : image.loadByIoff ioff = some load
  resolves : image.segmentByIoff ioff = image.loadByIoff ioff
  stop_le : image.imageBase.toNat + ioff.toNat + len ≤
    load.header.vaddr.toNat + load.header.memsz.toNat

namespace InsideLoad

/-- The owned read shows the bytes of the load, and zeros behind them. -/
theorem readIoff_eq (h : image.InsideLoad ioff len load) :
    ∃ bytes, image.readIoff ioff len = some bytes ∧ bytes.length = len ∧
      load ∈ image.segments ∧ load.header.type = SegmentType.load ∧ load.header.memsz ≠ 0 ∧
      ∀ k < len, load.Covers (image.imageBase.toNat + (ioff.toNat + k)) ∧ bytes[k]? =
        some ((load.memory.get? (image.imageBase.toNat + (ioff.toNat + k))).getD 0) := by
  have hfound := h.found
  rw [loadByIoff] at hfound
  simp only [Option.bind_eq_bind, Option.bind_eq_some_iff] at hfound
  obtain ⟨vaddr, hvaddr, hfind⟩ := hfound
  have haddress := checkedAdd_eq_some.1 hvaddr
  have hloads : load.loadsVaddr vaddr = true := List.find?_some hfind
  obtain ⟨hload, hcontains⟩ := Bool.and_eq_true_iff.1 hloads
  obtain ⟨hlow, hhigh⟩ := (load.containsVaddr_iff vaddr).1 hcontains
  have hsegment := h.resolves.trans h.found
  rw [segmentByIoff] at hsegment
  simp only [Option.bind_eq_bind, hvaddr, Option.bind_some] at hsegment
  refine ⟨load.loadedAt vaddr len, ?_, load.length_loadedAt vaddr len,
    List.mem_of_find?_eq_some hfind, by simpa [ProgramHeader.isLoad] using hload,
    ne_zero_of_lt_toNat (show 0 < load.header.memsz.toNat by omega), fun k hk => ⟨?_, ?_⟩⟩
  · rw [readIoff, hvaddr, Option.bind_eq_bind, Option.bind_some, readAtVaddr_eq, hsegment,
      Option.map_some]
  · have hstop := h.stop_le
    exact ⟨by omega, by omega⟩
  · have hindex : image.imageBase.toNat + (ioff.toNat + k) =
        load.memory.start + (vaddr.toNat + k - load.header.vaddr.toNat) := by
      rw [Segment.memory]
      dsimp only
      omega
    rw [Segment.getElem?_loadedAt hk hlow, hindex, Extent.get?_start_add, Segment.loadedByte,
      List.getD_eq_getElem?_getD]
    rfl

/-- Images of one shape have the range inside the load at the same index. -/
theorem of_sameShape {image' : ElfImage} (h : image.InsideLoad ioff len load)
    (hshape : image.SameShape image') :
    ∃ (index : ℕ) (load' : Segment), image.segments[index]? = some load ∧
      image'.segments[index]? = some load' ∧ image'.InsideLoad ioff len load' := by
  have hfound := h.found
  rw [loadByIoff] at hfound
  simp only [Option.bind_eq_bind, Option.bind_eq_some_iff] at hfound
  obtain ⟨vaddr, hvaddr, hfind⟩ := hfound
  obtain ⟨hloads, index, hindex, rfl, hfirst⟩ := List.find?_eq_some_iff_getElem.1 hfind
  obtain ⟨load', hload', hheader, -⟩ := hshape.segment (List.getElem?_eq_getElem hindex)
  have hvaddr' : image'.vaddrOf ioff = some vaddr := by
    rw [vaddrOf, hshape.imageBase_eq]
    exact hvaddr
  have hsame : ∀ {before after : Segment}, after.header = before.header →
      after.loadsVaddr vaddr = before.loadsVaddr vaddr := by
    intro before after hsame
    rw [Segment.loadsVaddr, Segment.containsVaddr, hsame]
    rfl
  have hfind' : image'.segments.find? (Segment.loadsVaddr vaddr) = some load' := by
    obtain ⟨hlt, hget⟩ := List.getElem?_eq_some_iff.1 hload'
    refine List.find?_eq_some_iff_getElem.2 ⟨by rw [hsame hheader, hloads], index, hlt, hget,
      fun j hj => ?_⟩
    obtain ⟨before, hbefore, hbeforeHeader, -⟩ :=
      hshape.symm.segment (List.getElem?_eq_getElem (hj.trans hlt))
    obtain ⟨hlt', rfl⟩ := List.getElem?_eq_some_iff.1 hbefore
    rw [hsame hbeforeHeader.symm]
    exact hfirst j hj
  refine ⟨index, load', List.getElem?_eq_getElem hindex, hload', ?_, ?_, ?_⟩
  · rw [loadByIoff, hvaddr', Option.bind_eq_bind, Option.bind_some, hfind']
  · rw [segmentByIoff_eq_loadByIoff_iff]
    intro vaddr₁ hvaddr₁ i other hother hcovers hload
    obtain rfl := Option.some.inj (hvaddr'.symm.trans hvaddr₁)
    obtain ⟨before, hbefore, hbeforeHeader, -⟩ := hshape.symm.segment hother
    rw [Segment.containsVaddr, ← hbeforeHeader] at hcovers
    rw [← hbeforeHeader] at hload
    obtain ⟨j, hj, first, hfirst, hloads'⟩ :=
      segmentByIoff_eq_loadByIoff_iff.1 h.resolves vaddr hvaddr i before hbefore hcovers hload
    obtain ⟨first', hfirst', hfirstHeader, -⟩ := hshape.segment hfirst
    exact ⟨j, hj, first', hfirst', (hsame hfirstHeader).trans hloads'⟩
  · rw [hshape.imageBase_eq, hheader]
    exact h.stop_le

end InsideLoad

/-- The three bytes in the middle of a load with two in the file. -/
theorem loadedFile_insideLoad :
    ∃ load, (imageOf loadedFile).InsideLoad 0x101 3 load ∧ (imageOf loadedFile).LoadsDisjoint ∧
      (imageOf loadedFile).header.ident = (imageOf loadedFile).ident := by
  obtain ⟨load, hload⟩ := Option.isSome_iff_exists.1
    (show ((imageOf loadedFile).loadByIoff 0x101).isSome = true by decide +kernel)
  have hresolves : (imageOf loadedFile).segmentByIoff 0x101 =
      (imageOf loadedFile).loadByIoff 0x101 := by decide +kernel
  have hstop : ((imageOf loadedFile).loadByIoff 0x101).all (fun load =>
      (imageOf loadedFile).imageBase.toNat + 0x104 ≤
        load.header.vaddr.toNat + load.header.memsz.toNat) = true := by decide +kernel
  rw [hload, Option.all_some, decide_eq_true_eq] at hstop
  exact ⟨load, ⟨hload, hresolves, hstop⟩, by decide +kernel, rfl⟩

/-- The owned read returns the bytes of the mapped image, which it can allocate. -/
theorem readIoff_eq_mapped (hident : image.header.ident = image.ident)
    (hdisjoint : image.LoadsDisjoint) (hsizes : ∀ segment ∈ image.segments,
      segment.header.type = SegmentType.load →
        segment.data.length ≤ segment.header.memsz.toNat)
    {mapped : List UInt8} (hmapped : image.toMappedImage = .ok mapped)
    (hinside : image.InsideLoad ioff len load) (harea : image.headerArea ≤ ioff.toNat)
    (hstop : image.imageBase.toNat + ioff.toNat + len < 2 ^ 64) :
    image.containsIoffRange ioff (UInt64.ofNat len) = true ∧
      image.readIoffExec ioff len = .ok (some (window mapped ioff.toNat len)) := by
  obtain ⟨hmappable, rfl⟩ := (toMappedImage_eq_ok image).1 hmapped
  obtain ⟨bytes, hread, hlength, hmem, hload, hmemsz, hbytes⟩ := hinside.readIoff_eq
  have hencloses := (span_encloses hmem hload hmemsz).2
  have hin : ioff.toNat + len ≤ image.imageSpan.toNat := by
    have hstop' := hinside.stop_le
    omega
  constructor
  · have hlen : (UInt64.ofNat len).toNat = len := toNat_ofNat_of_lt (by omega)
    rw [containsIoffRange]
    cases hadd : checkedAdd ioff (UInt64.ofNat len) with
    | none =>
        rw [checkedAdd_eq_none, hlen] at hadd
        omega
    | some stop =>
        have hsum := checkedAdd_eq_some.1 hadd
        rw [hlen] at hsum
        exact decide_eq_true (UInt64.le_iff_toNat_le.2 (hsum ▸ hin))
  · have hlen : len ≤ isizeMax := by
      have hspan := hmappable.span
      have hmax : maxImage ≤ isizeMax := by decide
      omega
    rw [image.readIoffExec_of_le ioff hlen, hread, Except.ok.injEq, Option.some_inj]
    apply List.ext_getElem?
    intro k
    rw [getElem?_window]
    split
    · rename_i hk
      obtain ⟨hcovers, hshows⟩ := hbytes k hk
      rw [hshows, mappedAtBase_covered hdisjoint hsizes hident hmem hload (by omega) (by omega)
        hcovers]
    · rename_i hk
      exact List.getElem?_eq_none (by omega)

/-- The last byte in the file and the two zeros behind it. -/
theorem loadedFile_read :
    ∃ mapped, (imageOf loadedFile).toMappedImage = .ok mapped ∧
      (imageOf loadedFile).readIoffExec 0x101 3 = .ok (some (window mapped 0x101 3)) := by
  obtain ⟨mapped, hmapped⟩ := Outcome.exists_of_isOk
    (show (imageOf loadedFile).toMappedImage.isOk = true by decide +kernel)
  obtain ⟨load, hinside, hdisjoint, hident⟩ := loadedFile_insideLoad
  exact ⟨mapped, hmapped, (readIoff_eq_mapped hident hdisjoint (by decide +kernel) hmapped hinside
    (by decide +kernel) (by decide +kernel)).2⟩

/-- A run of writes is read back: the owned read shows the last accepted request at every
offset, and what it showed before elsewhere. -/
theorem readIoff_writeAll (hdisjoint : image.LoadsDisjoint)
    (hsizes : ∀ segment ∈ image.segments, segment.header.type = SegmentType.load →
      segment.data.length ≤ segment.header.memsz.toNat)
    (hinside : image.InsideLoad ioff len load) (hlen : len ≤ isizeMax) (ws : List Write) :
    ∃ before after, image.readIoffExec ioff len = .ok (some before) ∧
      (image.writeAll ws).readIoffExec ioff len = .ok (some after) ∧ before.length = len ∧
      after.length = len ∧ ∀ k < len, after[k]? =
        (Extent.topmost (image.acceptedAt ws) (ioff.toNat + k)).or before[k]? := by
  have hshape := image.sameShape_writeAll ws
  obtain ⟨index, load', hsegment, hsegment', hinside'⟩ := hinside.of_sameShape hshape
  obtain ⟨before, hbefore, hlength, -, hload, -, hbytes⟩ := hinside.readIoff_eq
  obtain ⟨after, hafter, hlength', -, -, -, hbytes'⟩ := hinside'.readIoff_eq
  refine ⟨before, after, by rw [image.readIoffExec_of_le ioff hlen, hbefore],
    by rw [(image.writeAll ws).readIoffExec_of_le ioff hlen, hafter], hlength, hlength',
    fun k hk => ?_⟩
  obtain ⟨left, hleft, -, hget⟩ :=
    (image.lastWritesShow_writeAll ws).segments index load hsegment
  obtain rfl := Option.some.inj (hsegment'.symm.trans hleft)
  obtain ⟨hcovers, hshows⟩ := hbytes k hk
  rw [(hbytes' k hk).2, hshows, hshape.imageBase_eq, hget,
    topmost_segmentHits hdisjoint hsizes hsegment hload hcovers ws]
  cases Extent.topmost (image.acceptedAt ws) (ioff.toNat + k) <;> rfl

/-- Of two requests for one byte the later one is read. -/
theorem loadedFile_reads_last :
    ∃ after, ((imageOf loadedFile).writeAll
        [⟨0x101, [1]⟩, ⟨0x100, [2, 3]⟩]).readIoffExec 0x101 3 = .ok (some after) ∧
      after[0]? = some 3 := by
  obtain ⟨load, hinside, hdisjoint, -⟩ := loadedFile_insideLoad
  obtain ⟨before, after, -, hafter, -, -, hbytes⟩ := readIoff_writeAll hdisjoint
    (by decide +kernel) hinside (by decide) [⟨0x101, [1]⟩, ⟨0x100, [2, 3]⟩]
  have htop : Extent.topmost ((imageOf loadedFile).acceptedAt
      [⟨0x101, [1]⟩, ⟨0x100, [2, 3]⟩]) 0x101 = some 3 := by decide +kernel
  refine ⟨after, hafter, ?_⟩
  rw [hbytes 0 (by decide)]
  exact congrArg (·.or before[0]?) htop

end ElfImage

end Elfex
