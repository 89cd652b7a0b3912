import Elfex.Image.ReadBack

/-!
# The other copies of edited bytes

An image stores the bytes at one address once for every segment and section that covers
it. A write reaches the covering loadable segment and the sections that hold the whole
range, so the copies stay equal exactly when the ones it does not reach hold the written
bytes already.
-/

namespace Elfex

open Foundation

namespace ElfImage

/-- The bytes of a write at their addresses. -/
def written (image : ElfImage) (ioff : UInt64) (bytes : List UInt8) : Extent UInt8 :=
  ⟨(image.imageBase + ioff).toNat, bytes⟩

/-- The position of the loadable segment that covers an image-relative offset. -/
def loadIndex (image : ElfImage) (ioff : UInt64) : Option ℕ :=
  image.segments.findIdx? (Segment.loadsVaddr (image.imageBase + ioff))

def LoadAt (image : ElfImage) (q : ℕ) : Prop :=
  ∃ load, image.segments[q]? = some load ∧ load.header.isLoad = true

/-- Every other segment agrees with the loadable ones. -/
def OthersAgree (image : ElfImage) : Prop :=
  ∀ segment ∈ image.segments, segment.header.isLoad = false →
    ∀ load ∈ image.segments, load.header.isLoad = true → segment.memory.Agree load.memory

/-- Every segment agrees with the loadable ones. -/
def SegmentsAgree (image : ElfImage) : Prop :=
  ∀ segment ∈ image.segments, ∀ load ∈ image.segments, load.header.isLoad = true →
    segment.memory.Agree load.memory

/-- Every segment but the one at `index` holds the written bytes already, and loadable
segments agree where nothing is written. -/
def HoldsAlready (image : ElfImage) (w : Extent UInt8) (index : ℕ) : Prop :=
  (∀ (p : ℕ) (segment : Segment), p ≠ index → image.segments[p]? = some segment →
    w.Agree segment.memory) ∧
  ∀ load ∈ image.segments, ∀ load' ∈ image.segments, load.header.isLoad = true →
    load'.header.isLoad = true → w.AgreeOff load.memory load'.memory

variable {image image' : ElfImage} {ioff : UInt64} {bytes : List UInt8}

theorem written_stop (image : ElfImage) (ioff : UInt64) (bytes : List UInt8) :
    (image.written ioff bytes).stop = (image.imageBase + ioff).toNat + bytes.length := rfl

theorem WrittenAt.written_eq {vaddr : UInt64} {index : ℕ} {segment : Segment}
    (h : image.WrittenAt ioff bytes image' vaddr index segment) :
    image.written ioff bytes = ⟨vaddr.toNat, bytes⟩ := by
  rw [written, imageBase_add_of_vaddrOf h.address]

theorem WrittenAt.loadIndex_eq {vaddr : UInt64} {index : ℕ} {segment : Segment}
    (h : image.WrittenAt ioff bytes image' vaddr index segment) :
    image.loadIndex ioff = some index := by
  rcases List.getElem?_eq_some_iff.1 h.found with ⟨hlen, hsegment⟩
  rw [loadIndex, imageBase_add_of_vaddrOf h.address]
  refine List.findIdx?_eq_some_iff_getElem.2 ⟨hlen, hsegment ▸ h.loads, fun j hj => ?_⟩
  simpa using h.first j hj _ (List.getElem?_eq_getElem (hj.trans hlen))

theorem WrittenAt.loadAt_iff {vaddr : UInt64} {index : ℕ} {segment : Segment}
    (h : image.WrittenAt ioff bytes image' vaddr index segment) (q : ℕ) :
    image'.LoadAt q ↔ image.LoadAt q := by
  have hiff : ∀ other : ElfImage, other.LoadAt q ↔
      ∃ header, (other.segments[q]?).map Segment.header = some header ∧
        header.isLoad = true := by
    intro other
    simp only [LoadAt, Option.map_eq_some_iff]
    constructor
    · rintro ⟨load, hget, hload⟩
      exact ⟨load.header, ⟨load, hget, rfl⟩, hload⟩
    · rintro ⟨header, ⟨load, hget, rfl⟩, hload⟩
      exact ⟨load, hget, hload⟩
  rw [hiff, hiff, h.header_getElem? q]

/-- A relation between the memories of the segments and those of the loadable ones, by
position. -/
theorem forall_memory_iff (image : ElfImage) (R : ℕ → Extent UInt8 → Extent UInt8 → Prop) :
    (∀ (p : ℕ) (e : Extent UInt8) (q : ℕ) (f : Extent UInt8),
        (image.segments.map Segment.memory)[p]? = some e →
        (image.segments.map Segment.memory)[q]? = some f → image.LoadAt q → R p e f) ↔
      ∀ (p : ℕ) (segment : Segment), image.segments[p]? = some segment →
        ∀ load ∈ image.segments, load.header.isLoad = true →
          R p segment.memory load.memory := by
  simp only [List.getElem?_map, Option.map_eq_some_iff]
  constructor
  · intro hall p segment hsegment load hmem hload
    rcases List.mem_iff_getElem?.1 hmem with ⟨q, hq⟩
    exact hall p _ q _ ⟨segment, hsegment, rfl⟩ ⟨load, hq, rfl⟩ ⟨load, hq, hload⟩
  · rintro hall p e q f ⟨segment, hsegment, rfl⟩ ⟨load, hq, rfl⟩ ⟨load', hq', hload⟩
    obtain rfl : load = load' := Option.some.inj (hq.symm.trans hq')
    exact hall p segment hsegment load (List.mem_of_getElem? hq) hload

theorem segmentsAgree_iff_memory (image : ElfImage) :
    image.SegmentsAgree ↔ ∀ (p : ℕ) (e : Extent UInt8) (q : ℕ) (f : Extent UInt8),
      (image.segments.map Segment.memory)[p]? = some e →
      (image.segments.map Segment.memory)[q]? = some f → image.LoadAt q → e.Agree f := by
  rw [image.forall_memory_iff fun _ e f => e.Agree f]
  constructor
  · intro hall p segment hsegment
    exact hall segment (List.mem_of_getElem? hsegment)
  · intro hall segment hmem
    rcases List.mem_iff_getElem?.1 hmem with ⟨p, hp⟩
    exact hall p segment hp

theorem OthersAgree.memory (h : image.OthersAgree) (p : ℕ) (e : Extent UInt8) (q : ℕ)
    (f : Extent UInt8) (he : (image.segments.map Segment.memory)[p]? = some e)
    (hf : (image.segments.map Segment.memory)[q]? = some f) (hp : ¬image.LoadAt p)
    (hq : image.LoadAt q) : e.Agree f := by
  refine (forall_memory_iff image fun p e f => ¬image.LoadAt p → e.Agree f).2 ?_
    p e q f he hf hq hp
  intro p segment hsegment load hmem hload hp
  refine h segment (List.mem_of_getElem? hsegment) ?_ load hmem hload
  rw [Bool.eq_false_iff]
  exact fun htrue => hp ⟨segment, hsegment, htrue⟩

theorem holdsAlready_iff_memory (image : ElfImage) (w : Extent UInt8) (index : ℕ) :
    image.HoldsAlready w index ↔
      (∀ (p : ℕ) (e : Extent UInt8), p ≠ index →
        (image.segments.map Segment.memory)[p]? = some e → w.Agree e) ∧
      ∀ (p : ℕ) (e : Extent UInt8) (q : ℕ) (f : Extent UInt8),
        (image.segments.map Segment.memory)[p]? = some e →
        (image.segments.map Segment.memory)[q]? = some f → image.LoadAt p → image.LoadAt q →
        w.AgreeOff e f := by
  have hoff := forall_memory_iff image fun p e f => image.LoadAt p → w.AgreeOff e f
  unfold HoldsAlready
  constructor
  · rintro ⟨hon, hall⟩
    constructor
    · intro p e hp he
      rw [List.getElem?_map] at he
      rcases Option.map_eq_some_iff.1 he with ⟨other, hother, rfl⟩
      exact hon p other hp hother
    · intro p e q f he hf hp hq
      refine hoff.2 ?_ p e q f he hf hq hp
      rintro p other hother load hmem hload ⟨other', hother', hload'⟩
      obtain rfl : other = other' := Option.some.inj (hother.symm.trans hother')
      exact hall other (List.mem_of_getElem? hother) load hmem hload' hload
  · rintro ⟨hon, hall⟩
    constructor
    · intro p other hp hother
      apply hon p _ hp
      rw [List.getElem?_map, hother]
      rfl
    · intro load hmem load' hmem' hload hload'
      rcases List.mem_iff_getElem?.1 hmem with ⟨p, hp⟩
      exact hoff.1 (fun p e q f he hf hq hp => hall p e q f he hf hp hq) p load hp load' hmem'
        hload' ⟨load, hp, hload⟩

/-- The edited image's segments agree exactly when every other segment holds the written
bytes already. -/
theorem segmentsAgree_write_iff (hbefore : image.OthersAgree)
    (hwrite : image.writeAtIoff ioff bytes = some image') :
    image'.SegmentsAgree ↔ ∃ index, image.loadIndex ioff = some index ∧
      image.HoldsAlready (image.written ioff bytes) index := by
  rcases writeAtIoff_eq_some.1 hwrite with ⟨vaddr, index, segment, h⟩
  have hload : segment.header.isLoad = true := (Bool.and_eq_true_iff.1 h.loads).1
  have hcopies : image'.segments.map Segment.memory =
      (image.segments.map Segment.memory).set index
        (segment.memory.patch (image.written ioff bytes)) := by
    rw [h.result, h.written_eq, List.map_set]
    rfl
  have hmemory : (image.segments.map Segment.memory)[index]? = some segment.memory := by
    rw [List.getElem?_map, h.found]
    rfl
  have hwithin : (image.written ioff bytes).Within segment.memory := by
    rw [h.written_eq]
    exact h.within
  rw [segmentsAgree_iff_memory, hcopies, h.loadIndex_eq]
  simp only [h.loadAt_iff, Option.some_inj, exists_eq_left', holdsAlready_iff_memory]
  exact Extent.forall_agree_set_iff image.LoadAt hmemory ⟨segment, h.found, hload⟩ hwithin
    hbefore.memory

/-- A section holds the written bytes afterwards exactly when it covers the address and
holds the whole range, or holds the bytes already. -/
theorem sectionsHold_write_iff (hwrite : image.writeAtIoff ioff bytes = some image') :
    (∀ sec ∈ image'.sections, sec.header.flags.isAlloc = true →
        sec.header.isNobits = false → (image.written ioff bytes).Agree sec.memory) ↔
      ∀ sec ∈ image.sections, sec.header.flags.isAlloc = true →
        sec.header.isNobits = false →
        (sec.containsVaddr (image.imageBase + ioff) = true ∧
          (image.written ioff bytes).Within sec.memory) ∨
        (image.written ioff bytes).Agree sec.memory := by
  rcases writeAtIoff_eq_some.1 hwrite with ⟨vaddr, index, segment, h⟩
  have hvaddr := imageBase_add_of_vaddrOf h.address
  rw [h.written_eq, hvaddr, h.result]
  dsimp only
  rw [List.forall_mem_map]
  refine forall₂_congr fun sec _ => ?_
  rw [Section.writeAt_header]
  refine forall₂_congr fun _ hnobits => ?_
  by_cases hcovers : sec.containsVaddr vaddr = true
  · rw [Section.writeAt_of_covers hnobits hcovers]
    by_cases hwithin : (⟨vaddr.toNat, bytes⟩ : Extent UInt8).Within sec.memory
    · rw [if_pos hwithin]
      exact iff_of_true (Extent.agree_patch hwithin) (Or.inl ⟨hcovers, hwithin⟩)
    · rw [if_neg hwithin, or_iff_right fun h => hwithin h.2]
  · rw [Section.writeAt, Bool.eq_false_iff.2 hcovers, if_pos (by rfl),
      or_iff_right fun h => absurd h.1 (by simp)]

end ElfImage

/-! ## Edits of a small file -/

theorem smallFile_sectionsHold :
    ∃ image', (imageOf smallFile).writeAtIoff 0 [0xcc] = some image' ∧
      ∀ sec ∈ image'.sections, sec.header.flags.isAlloc = true →
        sec.header.isNobits = false →
        ((imageOf smallFile).written 0 [0xcc]).Agree sec.memory := by
  obtain ⟨image', hwrite⟩ := Option.isSome_iff_exists.1
    (show ((imageOf smallFile).writeAtIoff 0 [0xcc]).isSome = true by decide +kernel)
  refine ⟨image', hwrite, (ElfImage.sectionsHold_write_iff hwrite).2 ?_⟩
  have hcovers : ∀ sec ∈ (imageOf smallFile).sections, sec.header.flags.isAlloc = true →
      sec.header.isNobits = false →
      sec.containsVaddr ((imageOf smallFile).imageBase + 0) = true ∧
        ((imageOf smallFile).written 0 [0xcc]).Within sec.memory := by decide +kernel
  exact fun sec hsec halloc hnobits => Or.inl (hcovers sec hsec halloc hnobits)

/-- An executable whose code section starts inside the loadable segment. -/
def splitFile : List UInt8 :=
  smallHeader.write ++ smallLoad.write .little .elf64 ++ [0x90, 0xc3] ++
    (0 :: strBytes ".text" ++ 0 :: strBytes ".shstrtab" ++ [0]) ++
    { smallText with addr := 0x1001, offset := 121, size := 1 }.write .little .elf64 ++
    smallShstrtab.write .little .elf64

/-- A write that starts before the section leaves the section's byte as it was. -/
theorem splitFile_misses :
    ∃ image image', ElfImage.parse splitFile = .ok image ∧
      image.writeAtIoff 0 [0xcc, 0xcc] = some image' ∧
      ∃ sec ∈ image'.sections, sec.header.flags.isAlloc = true ∧
        sec.header.isNobits = false ∧ sec.memory.get? 0x1001 = some 0xc3 ∧
        (image.written 0 [0xcc, 0xcc]).get? 0x1001 = some 0xcc := by
  obtain ⟨image, himage⟩ := Outcome.exists_of_isOk
    (show (ElfImage.parse splitFile).isOk = true by decide +kernel)
  have hdescribed := ((parse_decides (by decide +kernel)).eq_ok_iff image).1 himage
  obtain ⟨image', hwrite⟩ := Option.isSome_iff_exists.1
    (show ((imageOf splitFile).writeAtIoff 0 [0xcc, 0xcc]).isSome = true by decide +kernel)
  have hbytes : ((imageOf splitFile).writeAtIoff 0 [0xcc, 0xcc]).all (fun image' =>
      image'.sections.any fun sec => sec.header.flags.isAlloc && !sec.header.isNobits &&
        sec.memory.get? 0x1001 == some 0xc3) = true := by decide +kernel
  rw [hwrite] at hbytes
  simp only [Option.all_some, List.any_eq_true, Bool.and_eq_true, beq_iff_eq,
    Bool.not_eq_true'] at hbytes
  obtain ⟨sec, hsec, ⟨halloc, hnobits⟩, hold⟩ := hbytes
  have hwritten : ((imageOf splitFile).written 0 [0xcc, 0xcc]).get? 0x1001 = some 0xcc := by
    decide +kernel
  rw [hdescribed.2] at hwrite hwritten
  exact ⟨image, image', himage, hwrite, sec, hsec, halloc, hnobits, hold, hwritten⟩

end Elfex
