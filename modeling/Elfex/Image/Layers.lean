import Elfex.Foundation.Layer
import Elfex.Image.Mapped

/-!
# The mapped image as layers

At its preferred base an image is mapped to the bytes its loadable segments show, laid
one over the other in table order, with the headers on top. A mapping succeeds exactly
when the span is allowed and every segment starts inside it.
-/

namespace Elfex

open Foundation

/-- A segment's data where the placement loop copies it. -/
def Segment.layer (imageBase : UInt64) (segment : Segment) : Extent UInt8 :=
  ⟨segment.mappedStart imageBase, segment.data⟩

/-- The layers of the segments the placement loop copies, in table order. -/
def placedLayers (imageBase : UInt64) (segments : List Segment) : List (Extent UInt8) :=
  (segments.filter fun segment => segment.IsPlaced imageBase).map (Segment.layer imageBase)

theorem mem_placedLayers {imageBase : UInt64} {segments : List Segment} {e : Extent UInt8} :
    e ∈ placedLayers imageBase segments ↔
      ∃ segment ∈ segments, segment.IsPlaced imageBase ∧ segment.layer imageBase = e := by
  simp [placedLayers, and_assoc]

/-- Placing a segment lays its layer over the mapped bytes. -/
theorem placeLoad_render {imageBase : UInt64} {span : ℕ} (hspan : span < 2 ^ 64)
    (es : List (Extent UInt8)) {segment : Segment}
    (hinside : segment.StartsInside imageBase span) :
    placeLoad imageBase (Extent.render 0 span es) segment =
      .ok (Extent.render 0 span (es ++ placedLayers imageBase [segment])) := by
  rw [placeLoad_eq (by rwa [Extent.length_render]), Extent.length_render]
  by_cases hplaced : segment.IsPlaced imageBase
  · have hstart : segment.mappedStart imageBase ≤ span := hinside hplaced.1 hplaced.2
    have hlayer : placedLayers imageBase [segment] = [segment.layer imageBase] := by
      simp [placedLayers, hplaced]
    rw [if_pos hplaced, if_pos hstart, hlayer,
      ← Extent.splice_render 0 es (e := segment.layer imageBase) hstart]
    rfl
  · have hnone : placedLayers imageBase [segment] = [] := by simp [placedLayers, hplaced]
    rw [if_neg hplaced, hnone, List.append_nil]

/-- The placement loop lays the layers of the segments in table order. -/
theorem placeLoads_render {imageBase : UInt64} {span : ℕ} (hspan : span < 2 ^ 64)
    (segments : List Segment) (es : List (Extent UInt8))
    (hinside : ∀ segment ∈ segments, segment.StartsInside imageBase span) :
    segments.foldlM (placeLoad imageBase) (Extent.render 0 span es) =
      .ok (Extent.render 0 span (es ++ placedLayers imageBase segments)) := by
  induction segments generalizing es with
  | nil => rw [placedLayers, List.filter_nil, List.map_nil, List.append_nil]; rfl
  | cons segment segments ih =>
      have happend : placedLayers imageBase (segment :: segments) =
          placedLayers imageBase [segment] ++ placedLayers imageBase segments := by
        rw [placedLayers, placedLayers, placedLayers, ← List.map_append, ← List.filter_append,
          List.singleton_append]
      rw [List.foldlM_cons, placeLoad_render hspan es (hinside segment List.mem_cons_self),
        Outcome.ok_bind, ih _ fun segment hmem => hinside segment (List.mem_cons_of_mem _ hmem),
        happend, List.append_assoc]

namespace ElfImage

/-- The headers, written over the start of the mapped bytes. -/
def headerLayer (image : ElfImage) : Extent UInt8 := ⟨0, image.mappedHeaders⟩

/-- The layers of a mapped image, in the order they are laid. -/
def layers (image : ElfImage) : List (Extent UInt8) :=
  placedLayers image.imageBase image.segments ++ [image.headerLayer]

/-- The bytes of an image mapped at its preferred base. -/
def mappedAtBase (image : ElfImage) : List UInt8 :=
  Extent.render 0 image.imageSpan.toNat image.layers

/-- An image can be mapped when its span is allowed and its segments start inside it. -/
structure Mappable (image : ElfImage) : Prop where
  span : image.imageSpan.toNat ≤ maxImage
  inside : ∀ segment ∈ image.segments,
    segment.StartsInside image.imageBase image.imageSpan.toNat

/-- Mapping an image lays its layers and then adjusts the relative relocations. -/
theorem toMappedImageAt_eq_ok (image : ElfImage) (base : UInt64) {mapped : List UInt8} :
    image.toMappedImageAt base = .ok mapped ↔ image.Mappable ∧
      (if base ≠ image.imageBase then image.applyRelativeRelocations image.mappedAtBase base
        else .ok image.mappedAtBase) = .ok mapped := by
  rw [toMappedImageAt]
  dsimp only
  by_cases hspan : maxImage < image.imageSpan.toNat
  · rw [if_pos hspan]
    exact iff_of_false (by simp [Outcome.fail]) fun h => absurd h.1.span (by omega)
  rw [if_neg hspan, ← Extent.render_nil]
  by_cases hinside : ∀ segment ∈ image.segments,
      segment.StartsInside image.imageBase image.imageSpan.toNat
  · have hheaders : copyFromSlice (Extent.render 0 image.imageSpan.toNat
        (placedLayers image.imageBase image.segments)) 0
        (min image.mappedHeaders.length image.imageSpan.toNat)
        (image.mappedHeaders.take (min image.mappedHeaders.length image.imageSpan.toNat)) =
          .ok image.mappedAtBase := by
      have hsplice := Extent.splice_render 0
        (placedLayers image.imageBase image.segments) (e := image.headerLayer)
        (Nat.zero_le image.imageSpan.toNat)
      rw [copyFromSlice_eq_ok, List.length_take, Extent.length_render]
      refine ⟨by omega, ?_⟩
      rw [Nat.min_comm, ← List.take_take, List.take_length]
      exact hsplice.symm
    rw [placeLoads_render image.imageSpan.toNat_lt _ _ hinside, Outcome.ok_bind,
      List.nil_append, Extent.length_render, hheaders, Outcome.ok_bind,
      and_iff_right (Mappable.mk (Nat.le_of_not_lt hspan) hinside)]
    rfl
  · have hplace := image.placeLoads_guarded (Extent.length_render 0 image.imageSpan.toNat [])
    rw [hplace.fault hinside, Outcome.fault_bind]
    exact iff_of_false (by simp [Outcome.fault]) fun h => hinside h.1.inside

theorem toMappedImage_eq_ok (image : ElfImage) {mapped : List UInt8} :
    image.toMappedImage = .ok mapped ↔ image.Mappable ∧ image.mappedAtBase = mapped := by
  rw [toMappedImage, toMappedImageAt_eq_ok, if_neg (not_not.2 rfl), Except.ok.injEq]

/-! ## The header area -/

/-- The size of the file header and the program header table. -/
def headerArea (image : ElfImage) : ℕ :=
  (ElfHeader.size image.ident.elfClass).toNat +
    image.segments.length * (ProgramHeader.size image.ident.elfClass).toNat

theorem length_mappedHeaders (image : ElfImage) (hident : image.header.ident = image.ident) :
    image.mappedHeaders.length = image.headerArea := by
  have htable := length_flatMap_of_width
    (fun segment : Segment => segment.header.write image.ident.data image.ident.elfClass)
    image.segments fun _ _ => ProgramHeader.length_write _ _ _
  rw [mappedHeaders, List.length_append, ElfHeader.length_write, htable, headerArea, mappedHeader,
    hident]

/-- What shows at a position of the mapped bytes. -/
theorem getElem?_mappedAtBase (image : ElfImage) (a : ℕ) :
    image.mappedAtBase[a]? = if a < image.imageSpan.toNat then
      some (((image.mappedHeaders[a]?).or
        (Extent.topmost (placedLayers image.imageBase image.segments) a)).getD 0) else none := by
  rw [mappedAtBase, Extent.getElem?_render, layers, Extent.topmost_append, Extent.topmost_cons,
    Extent.topmost_nil, Option.none_or, Extent.get?, headerLayer, if_pos (Nat.zero_le a)]
  rfl

section Shown

variable {image : ElfImage} (hident : image.header.ident = image.ident) {a : ℕ}
  (ha : a < image.imageSpan.toNat)

include hident ha

/-- In the header area the headers show. -/
theorem mappedAtBase_of_lt (harea : a < image.headerArea) :
    image.mappedAtBase[a]? = image.mappedHeaders[a]? := by
  rw [← length_mappedHeaders image hident] at harea
  rw [getElem?_mappedAtBase, if_pos ha, List.getElem?_eq_getElem harea, Option.some_or,
    Option.getD_some]

/-- Beyond the header area the loads show, and zeros where there are none. -/
theorem mappedAtBase_of_le (harea : image.headerArea ≤ a) :
    image.mappedAtBase[a]? =
      some ((Extent.topmost (placedLayers image.imageBase image.segments) a).getD 0) := by
  rw [← length_mappedHeaders image hident] at harea
  rw [getElem?_mappedAtBase, if_pos ha, List.getElem?_eq_none harea, Option.none_or]

end Shown

@[simp] theorem length_mappedAtBase (image : ElfImage) :
    image.mappedAtBase.length = image.imageSpan.toNat := Extent.length_render _ _ _

/-- The mapped bytes start with as much of the headers as they have room for. -/
theorem take_mappedAtBase {image : ElfImage} (hident : image.header.ident = image.ident) :
    image.mappedAtBase.take image.headerArea =
      image.mappedHeaders.take image.imageSpan.toNat := by
  have harea := length_mappedHeaders image hident
  have hspan := length_mappedAtBase image
  apply List.ext_getElem?
  intro a
  rw [List.getElem?_take, List.getElem?_take]
  by_cases ha : a < image.imageSpan.toNat
  · rw [if_pos ha]
    split
    · rename_i hheaders
      exact mappedAtBase_of_lt hident ha hheaders
    · rw [List.getElem?_eq_none (by omega)]
  · rw [if_neg ha, List.getElem?_eq_none (by omega), ite_self]

end ElfImage

end Elfex
