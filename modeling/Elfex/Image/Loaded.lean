import Elfex.Image.Layers
import Elfex.Image.Regular

/-!
# The loader's memory

A loader gives every loadable segment its bytes at its address and zeros up to its memory
size. The geometry of an image encloses the memory of every segment, so when the
segments do not share an address the layers of the mapped image show each of them whole.
-/

namespace Elfex

open Foundation

/-- The addresses a segment has in memory. -/
def Segment.Covers (segment : Segment) (address : ℕ) : Prop :=
  segment.header.vaddr.toNat ≤ address ∧
    address < segment.header.vaddr.toNat + segment.header.memsz.toNat

instance (segment : Segment) (address : ℕ) : Decidable (segment.Covers address) :=
  inferInstanceAs (Decidable (_ ∧ _))

/-- Some loadable segment has the address in memory. -/
def ElfImage.LoadsCover (image : ElfImage) (address : ℕ) : Prop :=
  ∃ segment ∈ image.segments, segment.header.type = SegmentType.load ∧ segment.Covers address

instance (image : ElfImage) (address : ℕ) : Decidable (image.LoadsCover address) :=
  inferInstanceAs (Decidable (∃ segment ∈ image.segments, _))

namespace Segment

theorem not_covers {segment : Segment} (h : segment.header.memsz.toNat = 0) (address : ℕ) :
    ¬segment.Covers address := by
  rintro ⟨hstart, hstop⟩
  omega

/-- The two segments share an address. -/
def Overlaps (s t : Segment) : Prop := ∃ address, s.Covers address ∧ t.Covers address

theorem overlaps_iff (s t : Segment) : s.Overlaps t ↔
    max s.header.vaddr.toNat t.header.vaddr.toNat <
      min (s.header.vaddr.toNat + s.header.memsz.toNat)
        (t.header.vaddr.toNat + t.header.memsz.toNat) := by
  constructor
  · rintro ⟨address, hs, ht⟩
    obtain ⟨hs, hs'⟩ := hs
    obtain ⟨ht, ht'⟩ := ht
    omega
  · intro hlt
    exact ⟨max s.header.vaddr.toNat t.header.vaddr.toNat, ⟨by omega, by omega⟩, by omega,
      by omega⟩

instance (s t : Segment) : Decidable (s.Overlaps t) := decidable_of_iff _ (s.overlaps_iff t).symm

/-- The two segments share no address. -/
def MemoryDisjoint (s t : Segment) : Prop := ¬s.Overlaps t

instance (s t : Segment) : Decidable (s.MemoryDisjoint t) := inferInstanceAs (Decidable (¬_))

instance : Std.Symm MemoryDisjoint where
  symm _ _ h := fun ⟨address, ht, hs⟩ => h ⟨address, hs, ht⟩

end Segment

namespace ElfImage

variable {image : ElfImage}

/-- The loadable segments of the image share no address. -/
def LoadsDisjoint (image : ElfImage) : Prop :=
  (image.segments.filter fun segment => segment.header.isLoad).Pairwise Segment.MemoryDisjoint

instance (image : ElfImage) : Decidable image.LoadsDisjoint :=
  inferInstanceAs (Decidable (List.Pairwise _ _))

/-- Two loads with a common address are the same one. -/
theorem LoadsDisjoint.eq_of_covers (h : image.LoadsDisjoint) {s t : Segment}
    (hs : s ∈ image.segments) (ht : t ∈ image.segments)
    (hsload : s.header.type = SegmentType.load) (htload : t.header.type = SegmentType.load)
    {address : ℕ} (hcovers : s.Covers address) (hcovers' : t.Covers address) : s = t := by
  by_contra hne
  have hdisjoint := List.Pairwise.forall h
    (List.mem_filter.2 ⟨hs, by simpa [ProgramHeader.isLoad] using hsload⟩)
    (List.mem_filter.2 ⟨ht, by simpa [ProgramHeader.isLoad] using htload⟩) hne
  exact hdisjoint ⟨address, hcovers, hcovers'⟩

end ElfImage

/-- A layer holds bytes only at the addresses of its segment. -/
theorem Segment.covers_of_layer {imageBase : UInt64} {segment : Segment} {a : ℕ} {x : UInt8}
    (hplaced : segment.IsPlaced imageBase)
    (hsize : segment.data.length ≤ segment.header.memsz.toNat)
    (h : (segment.layer imageBase).get? a = some x) : segment.Covers (imageBase.toNat + a) := by
  have hle := UInt64.le_iff_toNat_le.1 hplaced.2
  have hbounds := Extent.bounds_of_get? h
  rw [Extent.stop, Segment.layer, Segment.mappedStart] at hbounds
  dsimp only at hbounds
  exact ⟨by omega, by omega⟩

namespace ElfImage

section Placed

variable {image : ElfImage} (hsizes : ∀ segment ∈ image.segments,
  segment.header.type = SegmentType.load →
    segment.data.length ≤ segment.header.memsz.toNat)

include hsizes

/-- Where no load has memory, no layer of a load shows. -/
theorem topmost_of_uncovered {a : ℕ} (h : ¬image.LoadsCover (image.imageBase.toNat + a)) :
    Extent.topmost (placedLayers image.imageBase image.segments) a = none := by
  rw [Extent.topmost_eq_none_iff]
  intro e he
  obtain ⟨segment, hmem, hplaced, rfl⟩ := mem_placedLayers.1 he
  by_contra hsome
  obtain ⟨x, hx⟩ := Option.ne_none_iff_exists'.1 hsome
  exact h ⟨segment, hmem, hplaced.1,
    Segment.covers_of_layer hplaced (hsizes segment hmem hplaced.1) hx⟩

/-- In the memory of a load that shares no address its own bytes show. -/
theorem topmost_of_covered (hdisjoint : image.LoadsDisjoint) {segment : Segment}
    (hmem : segment ∈ image.segments) (hload : segment.header.type = SegmentType.load)
    {i : ℕ} (hi : i < segment.header.memsz.toNat) :
    Extent.topmost (placedLayers image.imageBase image.segments)
      (segment.mappedStart image.imageBase + i) = segment.data[i]? := by
  have hbase := (span_encloses hmem hload (ne_zero_of_lt_toNat hi)).1
  have hplaced : segment.IsPlaced image.imageBase :=
    ⟨hload, UInt64.le_iff_toNat_le.2 hbase⟩
  have hcovers : segment.Covers
      (image.imageBase.toNat + (segment.mappedStart image.imageBase + i)) := by
    rw [Segment.mappedStart]
    exact ⟨by omega, by omega⟩
  -- a layer that holds the position is the segment's own
  have hown : ∀ e ∈ placedLayers image.imageBase image.segments, ∀ y,
      e.get? (segment.mappedStart image.imageBase + i) = some y →
        segment.data[i]? = some y := by
    intro e he y hy
    obtain ⟨other, hother, hplaced', rfl⟩ := mem_placedLayers.1 he
    have hcovers' := Segment.covers_of_layer hplaced'
      (hsizes other hother hplaced'.1) hy
    obtain rfl := hdisjoint.eq_of_covers hother hmem hplaced'.1 hload hcovers' hcovers
    rwa [Segment.layer, Extent.get?_start_add ⟨other.mappedStart image.imageBase, other.data⟩]
      at hy
  cases hdata : segment.data[i]? with
  | none =>
      rw [Extent.topmost_eq_none_iff]
      intro e he
      by_contra hsome
      obtain ⟨y, hy⟩ := Option.ne_none_iff_exists'.1 hsome
      rw [hown e he y hy] at hdata
      cases hdata
  | some x =>
      refine Extent.topmost_eq_of_agree (e := segment.layer image.imageBase)
        (mem_placedLayers.2 ⟨segment, hmem, hplaced, rfl⟩) ?_ fun e he y hy => ?_
      · rwa [Segment.layer,
          Extent.get?_start_add ⟨segment.mappedStart image.imageBase, segment.data⟩]
      · have hsame := hown e he y hy
        rw [hdata] at hsame
        exact (Option.some.inj hsame).symm

/-- Beyond the headers the mapped bytes are zero where no load has memory. -/
theorem mappedAtBase_uncovered (hident : image.header.ident = image.ident) {a : ℕ}
    (ha : a < image.imageSpan.toNat) (harea : image.headerArea ≤ a)
    (hfree : ¬image.LoadsCover (image.imageBase.toNat + a)) :
    image.mappedAtBase[a]? = some 0 := by
  rw [mappedAtBase_of_le hident ha harea, topmost_of_uncovered hsizes hfree, Option.getD_none]

end Placed

/-- The bytes a mapping of disjoint loads holds beyond the headers: each load's own bytes
and zeros up to its memory size, and zeros everywhere else. -/
theorem toMappedImage_loads {data : List UInt8} (hdata : data.length ≤ isizeMax)
    {image : ElfImage} (hparse : parse data = .ok image) (hdisjoint : image.LoadsDisjoint)
    (hsizes : ∀ segment ∈ image.segments, segment.header.type = SegmentType.load →
      segment.header.filesz ≤ segment.header.memsz ∧
      segment.header.vaddr.toNat + segment.header.memsz.toNat < 2 ^ 64)
    {mapped : List UInt8} (hmapped : image.toMappedImage = .ok mapped) :
    mapped.length = image.imageSpan.toNat ∧
    (∀ segment ∈ image.segments, segment.header.type = SegmentType.load →
      ∀ i < segment.header.memsz.toNat,
        let position := segment.header.vaddr.toNat - image.imageBase.toNat + i
        image.imageBase ≤ segment.header.vaddr ∧ position < mapped.length ∧
        (image.headerArea ≤ position → mapped[position]? =
          if i < segment.header.filesz.toNat then segment.data[i]? else some 0)) ∧
    ∀ a < mapped.length, image.headerArea ≤ a →
      ¬image.LoadsCover (image.imageBase.toNat + a) → mapped[a]? = some 0 := by
  obtain ⟨hregular, hfile⟩ := regular_of_parse hdata hparse
  obtain ⟨-, rfl⟩ := (toMappedImage_eq_ok image).1 hmapped
  have hlength : ∀ segment ∈ image.segments, segment.header.type = SegmentType.load →
      segment.data.length = segment.header.filesz.toNat := by
    intro segment hmem hload
    apply hfile segment hmem
    rw [hload]
    decide
  have hheld := data_le_memsz_of_parse hdata hparse fun segment hmem hload =>
    (hsizes segment hmem hload).1
  refine ⟨length_mappedAtBase image, fun segment hmem hload i hi => ?_,
    fun a ha harea hfree => ?_⟩
  · obtain ⟨hbase, hend⟩ := span_encloses hmem hload (ne_zero_of_lt_toNat hi)
    have hfits := (hsizes segment hmem hload).2
    have hin : segment.header.vaddr.toNat - image.imageBase.toNat + i <
        image.imageSpan.toNat := by omega
    refine ⟨UInt64.le_iff_toNat_le.2 hbase, by rwa [length_mappedAtBase], fun harea => ?_⟩
    have hshows := topmost_of_covered hheld hdisjoint hmem hload hi
    rw [Segment.mappedStart] at hshows
    rw [mappedAtBase_of_le hregular.ident hin harea, hshows]
    split
    · rename_i hi
      rw [List.getElem?_eq_getElem (by rwa [hlength segment hmem hload]), Option.getD_some]
    · rename_i hi
      rw [List.getElem?_eq_none (by rw [hlength segment hmem hload]; omega), Option.getD_none]
  · rw [length_mappedAtBase] at ha
    exact mappedAtBase_uncovered hheld hregular.ident ha harea hfree

end ElfImage

/-- An executable with two loadable segments: two bytes in the file and four in memory from
`0x1100` on, and a byte at `0x1200`. -/
def loadedFile : List UInt8 :=
  { smallHeader with phnum := 2, shoff := 0, shnum := 0, shstrndx := 0 }.write ++
    { smallLoad with offset := 176, vaddr := 0x1100, memsz := 4 }.write .little .elf64 ++
    { smallLoad with
      offset := 178, vaddr := 0x1200, filesz := 1, memsz := 1 }.write .little .elf64 ++
    [0x90, 0xc3, 0xf4]

/-- The segments are mapped at their distances from the page the first one starts in. -/
theorem loadedFile_loads :
    ∃ image mapped, ElfImage.parse loadedFile = .ok image ∧
      image.toMappedImage = .ok mapped ∧ mapped.length = 0x1000 ∧
      mapped[0x100]? = some 0x90 ∧ mapped[0x102]? = some 0 ∧ mapped[0x104]? = some 0 ∧
      mapped[0x200]? = some 0xf4 := by
  have himage : ElfImage.parse loadedFile = .ok (imageOf loadedFile) :=
    parse_imageOf (by decide +kernel) (by decide +kernel)
  obtain ⟨first, hfirst, hfirstHeader, hfirstData⟩ : ∃ segment ∈ (imageOf loadedFile).segments,
      segment.header = { smallLoad with offset := 176, vaddr := 0x1100, memsz := 4 } ∧
        segment.data = [0x90, 0xc3] := by decide +kernel
  obtain ⟨second, hsecond, hsecondHeader, hsecondData⟩ :
      ∃ segment ∈ (imageOf loadedFile).segments,
        segment.header = { smallLoad with
          offset := 178, vaddr := 0x1200, filesz := 1, memsz := 1 } ∧
          segment.data = [0xf4] := by decide +kernel
  have hbase : (imageOf loadedFile).imageBase = 0x1000 := by decide +kernel
  have hspan : (imageOf loadedFile).imageSpan = 0x1000 := by decide +kernel
  have harea : (imageOf loadedFile).headerArea = 176 := by decide +kernel
  obtain ⟨mapped, hmapped⟩ := Outcome.exists_of_isOk
    (show (imageOf loadedFile).toMappedImage.isOk = true by decide +kernel)
  obtain ⟨hlen, hloads, hfree⟩ := ElfImage.toMappedImage_loads (by decide +kernel) himage
    (by decide +kernel) (by decide +kernel) hmapped
  rw [hspan] at hlen
  have hbyte := fun i hi =>
    (hloads first hfirst (by rw [hfirstHeader]; rfl) i hi).2.2
  have hbyte' := fun i hi =>
    (hloads second hsecond (by rw [hsecondHeader]; rfl) i hi).2.2
  rw [hfirstHeader, hbase, harea, hfirstData] at hbyte
  rw [hsecondHeader, hbase, harea, hsecondData] at hbyte'
  refine ⟨_, _, himage, hmapped, hlen, ?_, ?_, ?_, ?_⟩
  · exact hbyte 0 (by decide) (by decide)
  · exact hbyte 2 (by decide) (by decide)
  · exact hfree 0x104 (by rw [hlen]; decide) (by rw [harea]; decide) (by decide +kernel)
  · exact hbyte' 0 (by decide) (by decide)

end Elfex
