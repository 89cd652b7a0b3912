import Elfex.Image.Remapped
import Elfex.Image.WriteRun

/-!
# Runs of writes in memory

When the loads of an image share no address, a run of writes and a mapping commute: the
mapped image of what the run leaves is the mapped image the run starts from, with the last
accepted request at every offset beyond the headers.
-/

namespace Elfex

open Foundation

namespace ElfImage

/-- The accepted requests of a run at their offsets. -/
def acceptedAt (image : ElfImage) (ws : List Write) : List (Extent UInt8) :=
  (ws.filter image.accepts).map Write.extent

theorem acceptedAt_cons (image : ElfImage) (w : Write) (ws : List Write) :
    image.acceptedAt (w :: ws) = image.acceptedAt [w] ++ image.acceptedAt ws := by
  rw [acceptedAt, ← List.singleton_append, List.filter_append, List.map_append]
  rfl

variable {image : ElfImage}

/-- The bytes of an accepted request are written at their offsets from the base. -/
theorem get?_written {w : Write} (h : image.accepts w = true) (a : ℕ) :
    (image.written w.ioff w.bytes).get? (image.imageBase.toNat + a) = w.extent.get? a := by
  have hstart := written_start_of_accepts h
  rw [Extent.get?, Extent.get?, hstart, Nat.add_sub_add_left, Write.extent]
  simp only [Nat.add_le_add_iff_left]
  rfl

theorem segmentHits_singleton {w : Write} (h : image.accepts w = true) (index : ℕ) :
    image.segmentHits [w] index =
      if image.loadIndex w.ioff = some index then [image.written w.ioff w.bytes] else [] := by
  rw [segmentHits, List.filter_singleton, h, Bool.true_and]
  split
  · rename_i hindex
    rw [hindex, beq_self_eq_true, cond_true, List.map_singleton]
  · rename_i hindex
    rw [beq_eq_false_iff_ne.2 hindex, cond_false, List.map_nil]

namespace SameShape

variable {image' : ElfImage} (h : image.SameShape image')

include h

theorem headerArea_eq (hident : image'.ident = image.ident) :
    image'.headerArea = image.headerArea := by
  have hlength := congrArg List.length h.headers
  rw [List.length_map, List.length_map] at hlength
  rw [headerArea, headerArea, hident, hlength]

theorem mappedHeaders_eq (hident : image'.ident = image.ident)
    (hheader : image'.header = image.header) : image'.mappedHeaders = image.mappedHeaders := by
  have htable : ∀ other : ElfImage, other.segments.flatMap (fun segment =>
      segment.header.write image.ident.data image.ident.elfClass) =
        (other.segments.map Segment.header).flatMap fun header =>
          header.write image.ident.data image.ident.elfClass := by
    intro other
    rw [List.flatMap_map]
  have hlength := congrArg List.length h.headers
  rw [List.length_map, List.length_map] at hlength
  simp only [mappedHeaders, mappedHeader, hident, hheader, hlength, htable, h.headers]

theorem loadsDisjoint (hdisjoint : image.LoadsDisjoint) : image'.LoadsDisjoint := by
  have hheaders : ∀ other : ElfImage, other.LoadsDisjoint ↔
      ((other.segments.map Segment.header).filter ProgramHeader.isLoad).Pairwise
        fun header header' => Segment.MemoryDisjoint ⟨header, []⟩ ⟨header', []⟩ := by
    intro other
    rw [List.filter_map, List.pairwise_map]
    rfl
  rw [hheaders, h.headers, ← hheaders]
  exact hdisjoint

theorem data_le (hsizes : ∀ segment ∈ image.segments,
    segment.header.type = SegmentType.load →
      segment.data.length ≤ segment.header.memsz.toNat) :
    ∀ segment ∈ image'.segments, segment.header.type = SegmentType.load →
      segment.data.length ≤ segment.header.memsz.toNat := by
  intro segment hmem hload
  obtain ⟨index, hsegment⟩ := List.mem_iff_getElem?.1 hmem
  obtain ⟨before, hbefore, hheader, hlength⟩ := h.symm.segment hsegment
  rw [← hheader] at hload ⊢
  rw [← hlength]
  exact hsizes before (List.mem_of_getElem? hbefore) hload

end SameShape

section Disjoint

variable (hdisjoint : image.LoadsDisjoint) (hsizes : ∀ segment ∈ image.segments,
  segment.header.type = SegmentType.load → segment.data.length ≤ segment.header.memsz.toNat)

include hdisjoint in
/-- Two loads with a common address have one index. -/
theorem index_eq_of_covers {i j : ℕ} {s t : Segment} (hs : image.segments[i]? = some s)
    (ht : image.segments[j]? = some t) (hsload : s.header.type = SegmentType.load)
    (htload : t.header.type = SegmentType.load) {address : ℕ} (hcovers : s.Covers address)
    (hcovers' : t.Covers address) : i = j := by
  rw [LoadsDisjoint, List.pairwise_filter, List.pairwise_iff_getElem] at hdisjoint
  obtain ⟨hi, rfl⟩ := List.getElem?_eq_some_iff.1 hs
  obtain ⟨hj, rfl⟩ := List.getElem?_eq_some_iff.1 ht
  have hload : ∀ segment : Segment, segment.header.type = SegmentType.load →
      segment.header.isLoad = true := fun segment h => by rw [ProgramHeader.isLoad, h]; rfl
  rcases Nat.lt_trichotomy i j with hlt | heq | hgt
  · exact absurd ⟨address, hcovers, hcovers'⟩
      (hdisjoint i j hi hj hlt (hload _ hsload) (hload _ htload))
  · exact heq
  · exact absurd ⟨address, hcovers', hcovers⟩
      (hdisjoint j i hj hi hgt (hload _ htload) (hload _ hsload))

include hsizes

/-- An accepted request is written inside the memory of its load. -/
theorem exists_load_of_accepts {w : Write} (h : image.accepts w = true) {a : ℕ} {x : UInt8}
    (hx : w.extent.get? a = some x) :
    ∃ index segment, image.loadIndex w.ioff = some index ∧
      image.segments[index]? = some segment ∧ segment.header.type = SegmentType.load ∧
      segment.Covers (image.imageBase.toNat + a) := by
  obtain ⟨image', hwrite⟩ := Option.isSome_iff_exists.1 h
  obtain ⟨vaddr, index, segment, hwritten⟩ := writeAtIoff_eq_some.1 hwrite
  have hload : segment.header.type = SegmentType.load := by
    simpa [ProgramHeader.isLoad] using (Bool.and_eq_true_iff.1 hwritten.loads).1
  have hsize := hsizes segment (List.mem_of_getElem? hwritten.found) hload
  rw [← get?_written h, hwritten.written_eq] at hx
  obtain ⟨hlow, hhigh⟩ := Extent.bounds_of_get? hx
  obtain ⟨hstart, hstop⟩ := hwritten.within
  simp only [Segment.memory, Extent.stop] at hlow hhigh hstart hstop
  exact ⟨index, segment, hwritten.loadIndex_eq, hwritten.found, hload, by omega, by omega⟩

/-- Where no load has memory, nothing is accepted. -/
theorem topmost_acceptedAt_uncovered (ws : List Write) {a : ℕ}
    (hfree : ¬image.LoadsCover (image.imageBase.toNat + a)) :
    Extent.topmost (image.acceptedAt ws) a = none := by
  rw [Extent.topmost_eq_none_iff]
  intro e he
  obtain ⟨w, hw, rfl⟩ := List.mem_map.1 he
  by_contra hsome
  obtain ⟨x, hx⟩ := Option.ne_none_iff_exists'.1 hsome
  obtain ⟨index, segment, -, hsegment, hload, hcovers⟩ :=
    exists_load_of_accepts hsizes (List.mem_filter.1 hw).2 hx
  exact hfree ⟨segment, List.mem_of_getElem? hsegment, hload, hcovers⟩

include hdisjoint

/-- In the memory of a load the requests written to it are the accepted ones. -/
theorem topmost_segmentHits {index : ℕ} {segment : Segment}
    (hsegment : image.segments[index]? = some segment)
    (hload : segment.header.type = SegmentType.load) {a : ℕ}
    (hcovers : segment.Covers (image.imageBase.toNat + a)) (ws : List Write) :
    Extent.topmost (image.segmentHits ws index) (image.imageBase.toNat + a) =
      Extent.topmost (image.acceptedAt ws) a := by
  induction ws with
  | nil => rfl
  | cons w ws ih =>
      have hone : Extent.topmost (image.segmentHits [w] index) (image.imageBase.toNat + a) =
          Extent.topmost (image.acceptedAt [w]) a := by
        cases haccepts : image.accepts w with
        | false => simp [segmentHits, acceptedAt, haccepts]
        | true =>
            have haccepted : image.acceptedAt [w] = [w.extent] := by
              rw [acceptedAt, List.filter_singleton, haccepts]
              rfl
            rw [segmentHits_singleton haccepts, haccepted, Extent.topmost_cons,
              Extent.topmost_nil, Option.none_or]
            split
            · rw [Extent.topmost_cons, Extent.topmost_nil, Option.none_or, get?_written haccepts]
            · rename_i hindex
              rw [Extent.topmost_nil]
              by_contra hsome
              obtain ⟨x, hx⟩ := Option.ne_none_iff_exists'.1 (Ne.symm hsome)
              obtain ⟨index', segment', hindex', hsegment', hload', hcovers'⟩ :=
                exists_load_of_accepts hsizes haccepts hx
              rw [index_eq_of_covers hdisjoint hsegment hsegment' hload hload' hcovers hcovers']
                at hindex
              exact hindex hindex'
      rw [segmentHits_cons, acceptedAt_cons, Extent.topmost_append, Extent.topmost_append, ih,
        hone]

/-- In the memory of a load beyond the headers the mapping shows the load's bytes, and
zeros behind them. -/
theorem mappedAtBase_covered (hident : image.header.ident = image.ident) {segment : Segment}
    (hmem : segment ∈ image.segments) (hload : segment.header.type = SegmentType.load) {a : ℕ}
    (ha : a < image.imageSpan.toNat) (harea : image.headerArea ≤ a)
    (hcovers : segment.Covers (image.imageBase.toNat + a)) :
    image.mappedAtBase[a]? =
      some ((segment.memory.get? (image.imageBase.toNat + a)).getD 0) := by
  obtain ⟨hlow, hhigh⟩ := hcovers
  obtain ⟨i, hi⟩ := Nat.exists_eq_add_of_le hlow
  have hin : i < segment.header.memsz.toNat := by omega
  have hbase := (span_encloses hmem hload (ne_zero_of_lt_toNat hin)).1
  have hposition : segment.mappedStart image.imageBase + i = a := by
    rw [Segment.mappedStart]
    omega
  have hshows := topmost_of_covered hsizes hdisjoint hmem hload hin
  rw [hposition] at hshows
  rw [mappedAtBase_of_le hident ha harea, hshows, hi]
  exact congrArg (fun x => some (x.getD 0)) (segment.memory.get?_start_add i).symm

/-- Beyond the headers the last accepted request shows over the bytes mapped before. -/
theorem getElem?_mappedAtBase_writeAll (hident : image.header.ident = image.ident)
    (ws : List Write) {a : ℕ} (ha : a < image.imageSpan.toNat) (harea : image.headerArea ≤ a) :
    (image.writeAll ws).mappedAtBase[a]? =
      (Extent.topmost (image.acceptedAt ws) a).or image.mappedAtBase[a]? := by
  have hshape := image.sameShape_writeAll ws
  have hleft := image.lastWritesShow_writeAll ws
  have hbase := imageBase_congr hshape.headers
  have hspan := imageSpan_congr hshape.headers
  have harea' : (image.writeAll ws).headerArea ≤ a := by
    rwa [hshape.headerArea_eq hleft.ident]
  have ha' : a < (image.writeAll ws).imageSpan.toNat := by rwa [hspan]
  have hident' : (image.writeAll ws).header.ident = (image.writeAll ws).ident := by
    rw [hleft.header, hleft.ident, hident]
  have hsizes' := hshape.data_le hsizes
  by_cases hcovered : image.LoadsCover (image.imageBase.toNat + a)
  · obtain ⟨segment, hmem, hload, hcovers⟩ := hcovered
    obtain ⟨index, hsegment⟩ := List.mem_iff_getElem?.1 hmem
    obtain ⟨segment', hsegment', hheader, hget⟩ := hleft.segments index segment hsegment
    have hload' : segment'.header.type = SegmentType.load := by rw [hheader, hload]
    have hcovers' : segment'.Covers ((image.writeAll ws).imageBase.toNat + a) := by
      rwa [Segment.Covers, hheader, hbase]
    rw [mappedAtBase_covered hdisjoint hsizes hident hmem hload ha harea hcovers,
      mappedAtBase_covered (hshape.loadsDisjoint hdisjoint) hsizes' hident'
        (List.mem_of_getElem? hsegment') hload' ha' harea' hcovers', hbase, hget,
      topmost_segmentHits hdisjoint hsizes hsegment hload hcovers ws]
    cases Extent.topmost (image.acceptedAt ws) a <;> rfl
  · have hfree : ¬(image.writeAll ws).LoadsCover ((image.writeAll ws).imageBase.toNat + a) := by
      rwa [loadsCover_congr hshape.headers, hbase]
    rw [mappedAtBase_uncovered hsizes hident ha harea hcovered,
      mappedAtBase_uncovered hsizes' hident' ha' harea' hfree,
      topmost_acceptedAt_uncovered hsizes ws hcovered, Option.none_or]

end Disjoint

/-- Writing and mapping commute: what a run of writes leaves is mapped to the bytes the
image was mapped to, with the last accepted request at every offset beyond the headers. -/
theorem toMappedImage_writeAll (hident : image.header.ident = image.ident)
    (hdisjoint : image.LoadsDisjoint) (hsizes : ∀ segment ∈ image.segments,
      segment.header.type = SegmentType.load →
        segment.data.length ≤ segment.header.memsz.toNat)
    {mapped : List UInt8} (hmapped : image.toMappedImage = .ok mapped) (ws : List Write) :
    ∃ mapped', (image.writeAll ws).toMappedImage = .ok mapped' ∧
      mapped'.length = mapped.length ∧
      mapped'.take image.headerArea = mapped.take image.headerArea ∧
      ∀ a < mapped.length, image.headerArea ≤ a →
        mapped'[a]? = (Extent.topmost (image.acceptedAt ws) a).or mapped[a]? := by
  have hshape := image.sameShape_writeAll ws
  have hleft := image.lastWritesShow_writeAll ws
  obtain ⟨hmappable, rfl⟩ := (toMappedImage_eq_ok image).1 hmapped
  refine ⟨_, (toMappedImage_eq_ok _).2 ⟨(mappable_congr hshape.headers).2 hmappable, rfl⟩,
    ?_, ?_, fun a ha harea => ?_⟩
  · rw [length_mappedAtBase, length_mappedAtBase, imageSpan_congr hshape.headers]
  · have hheaders := hshape.mappedHeaders_eq hleft.ident hleft.header
    have hident' : (image.writeAll ws).header.ident = (image.writeAll ws).ident := by
      rw [hleft.header, hleft.ident, hident]
    have htake := take_mappedAtBase hident'
    rwa [hshape.headerArea_eq hleft.ident, hheaders, imageSpan_congr hshape.headers,
      ← take_mappedAtBase hident] at htake
  · rw [length_mappedAtBase] at ha
    exact getElem?_mappedAtBase_writeAll hdisjoint hsizes hident ws ha harea

/-- Of two writes to an executable whose load is longer in memory the second is refused. -/
theorem loadedFile_written :
    ∃ mapped', ((imageOf loadedFile).writeAll
        [⟨0x100, [0xcc]⟩, ⟨0x102, [1]⟩]).toMappedImage = .ok mapped' ∧
      mapped'[0x100]? = some 0xcc ∧ mapped'[0x102]? = some 0 := by
  have himage : ElfImage.parse loadedFile = .ok (imageOf loadedFile) :=
    parse_imageOf (by decide +kernel) (by decide +kernel)
  have hregular := (regular_of_parse (by decide +kernel) himage).1
  obtain ⟨mapped, hmapped⟩ := Outcome.exists_of_isOk
    (show (imageOf loadedFile).toMappedImage.isOk = true by decide +kernel)
  obtain ⟨mapped', hmapped', -, -, hshows⟩ := toMappedImage_writeAll hregular.ident
    (by decide +kernel) (by decide +kernel) hmapped [⟨0x100, [0xcc]⟩, ⟨0x102, [1]⟩]
  have hbytes : (imageOf loadedFile).toMappedImage.map (fun bytes =>
      (bytes.length, bytes[0x102]?)) = .ok (0x1000, some 0) := by decide +kernel
  rw [hmapped] at hbytes
  obtain ⟨hlength, hzero⟩ := Prod.mk.inj (Except.ok.inj hbytes)
  have harea : (imageOf loadedFile).headerArea = 176 := by decide +kernel
  have htop : Extent.topmost ((imageOf loadedFile).acceptedAt
      [⟨0x100, [0xcc]⟩, ⟨0x102, [1]⟩]) 0x100 = some 0xcc := by decide +kernel
  refine ⟨mapped', hmapped', ?_, ?_⟩
  · rw [hshows 0x100 (by omega) (by omega), htop]
    rfl
  · rw [hshows 0x102 (by omega) (by omega), hzero]
    decide +kernel

end ElfImage

end Elfex
