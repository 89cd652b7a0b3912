import Elfex.Foundation.Patches
import Elfex.Image.Edits
import Elfex.Image.InPlace
import Elfex.Image.Rebuild
import Elfex.Image.Views

/-!
# Runs of writes

A write changes no header and no length, so a run of writes meets the same segment table
and the same section table at every step: which requests are accepted, which segment each
of them is written to and which sections take it is decided by the image the run starts
from. What a run leaves is the last accepted request at every position of every segment and
section, whatever order requests that share no offset come in.
-/

namespace Elfex

open Foundation

/-- A request to replace bytes at an image-relative offset. -/
structure Write where
  ioff : UInt64
  bytes : List UInt8
  deriving DecidableEq, Repr

/-- The bytes of a request at their offsets. -/
def Write.extent (w : Write) : Extent UInt8 := ⟨w.ioff.toNat, w.bytes⟩

namespace Segment

/-- The segment with the bytes of a run of patches. -/
def patchAll (segment : Segment) (es : List (Extent UInt8)) : Segment :=
  { segment with data := (segment.memory.patchAll es).bytes }

theorem patchAll_nil (segment : Segment) : segment.patchAll [] = segment := rfl

theorem memory_patchAll (segment : Segment) (es : List (Extent UInt8)) :
    (segment.patchAll es).memory = segment.memory.patchAll es := by
  have hstart := segment.memory.patchAll_start es
  rw [memory, patchAll]
  exact congrArg (Extent.mk · (segment.memory.patchAll es).bytes) hstart.symm

theorem patchAll_append (segment : Segment) (es fs : List (Extent UInt8)) :
    segment.patchAll (es ++ fs) = (segment.patchAll es).patchAll fs := by
  rw [patchAll, patchAll, memory_patchAll, Extent.patchAll_append]
  rfl

end Segment

namespace Section

/-- The section with the bytes of a run of patches. -/
def patchAll (sec : Section) (es : List (Extent UInt8)) : Section :=
  { sec with data := (sec.memory.patchAll es).bytes }

theorem patchAll_nil (sec : Section) : sec.patchAll [] = sec := rfl

theorem memory_patchAll (sec : Section) (es : List (Extent UInt8)) :
    (sec.patchAll es).memory = sec.memory.patchAll es := by
  have hstart := sec.memory.patchAll_start es
  rw [memory, patchAll]
  exact congrArg (Extent.mk · (sec.memory.patchAll es).bytes) hstart.symm

theorem patchAll_append (sec : Section) (es fs : List (Extent UInt8)) :
    sec.patchAll (es ++ fs) = (sec.patchAll es).patchAll fs := by
  rw [patchAll, patchAll, memory_patchAll, Extent.patchAll_append]
  rfl

/-- Tests for a section that covers an address and holds all the bytes written there. -/
def takes (sec : Section) (vaddr : UInt64) (bytes : List UInt8) : Bool :=
  sec.containsVaddr vaddr && !sec.header.isNobits &&
    decide ((⟨vaddr.toNat, bytes⟩ : Extent UInt8).Within sec.memory)

theorem writeAt_eq_patchAll (sec : Section) (vaddr : UInt64) (bytes : List UInt8) :
    sec.writeAt vaddr bytes =
      sec.patchAll (if sec.takes vaddr bytes then [⟨vaddr.toNat, bytes⟩] else []) := by
  by_cases hturn : sec.containsVaddr vaddr = true ∧ sec.header.isNobits = false
  · obtain ⟨hcovers, hnobits⟩ := hturn
    rw [writeAt_of_covers hnobits hcovers, takes, hcovers, hnobits]
    by_cases hwithin : (⟨vaddr.toNat, bytes⟩ : Extent UInt8).Within sec.memory
    · rw [if_pos hwithin, if_pos (by simpa using hwithin)]
      rfl
    · rw [if_neg hwithin, if_neg (by simpa using hwithin), patchAll_nil]
  · have hskips : sec.takes vaddr bytes = false := by
      rw [takes]
      by_contra htakes
      simp only [Bool.not_eq_false, Bool.and_eq_true, Bool.not_eq_true'] at htakes
      exact hturn htakes.1
    rw [writeAt, if_pos (by simpa [or_iff_not_imp_left] using hturn), hskips]
    rfl

end Section

namespace ElfImage

/-- The image after a run of writes; a rejected one leaves it as it is. -/
def writeAll (image : ElfImage) (ws : List Write) : ElfImage :=
  Edit.run image (ws.map fun w => .writeAtIoff w.ioff w.bytes)

def accepts (image : ElfImage) (w : Write) : Bool := (image.writeAtIoff w.ioff w.bytes).isSome

/-- What the accepted requests write to the segment at an index. -/
def segmentHits (image : ElfImage) (ws : List Write) (index : ℕ) : List (Extent UInt8) :=
  (ws.filter fun w => image.accepts w && image.loadIndex w.ioff == some index).map fun w =>
    image.written w.ioff w.bytes

/-- What the accepted requests write to a section. -/
def sectionHits (image : ElfImage) (ws : List Write) (sec : Section) : List (Extent UInt8) :=
  (ws.filter fun w => image.accepts w && sec.takes (image.imageBase + w.ioff) w.bytes).map
    fun w => image.written w.ioff w.bytes

@[simp] theorem writeAll_nil (image : ElfImage) : image.writeAll [] = image := rfl

theorem writeAll_cons (image : ElfImage) (w : Write) (ws : List Write) :
    image.writeAll (w :: ws) =
      ((image.writeAtIoff w.ioff w.bytes).getD image).writeAll ws := rfl

/-! ## Images of one shape -/

/-- The two images have the same headers and hold as many bytes for each of them. -/
structure SameShape (image image' : ElfImage) : Prop where
  segments : image'.segments.map (fun segment => (segment.header, segment.data.length)) =
    image.segments.map fun segment => (segment.header, segment.data.length)
  sections : image'.sections.map (fun sec => (sec.header, sec.data.length)) =
    image.sections.map fun sec => (sec.header, sec.data.length)

namespace SameShape

variable {image image' image'' : ElfImage}

theorem refl (image : ElfImage) : image.SameShape image := ⟨rfl, rfl⟩

theorem symm (h : image.SameShape image') : image'.SameShape image :=
  ⟨h.segments.symm, h.sections.symm⟩

theorem trans (h : image.SameShape image') (h' : image'.SameShape image'') :
    image.SameShape image'' :=
  ⟨h'.segments.trans h.segments, h'.sections.trans h.sections⟩

theorem headers (h : image.SameShape image') :
    image'.segments.map Segment.header = image.segments.map Segment.header := by
  have hfst := congrArg (List.map Prod.fst) h.segments
  rwa [List.map_map, List.map_map] at hfst

theorem imageBase_eq (h : image.SameShape image') : image'.imageBase = image.imageBase := by
  rw [imageBase, imageBase, geometry, geometry, h.headers]

theorem written_eq (h : image.SameShape image') (ioff : UInt64) (bytes : List UInt8) :
    image'.written ioff bytes = image.written ioff bytes := by
  rw [written, written, h.imageBase_eq]

theorem segment (h : image.SameShape image') {j : ℕ} {segment : Segment}
    (hsegment : image.segments[j]? = some segment) :
    ∃ segment', image'.segments[j]? = some segment' ∧ segment'.header = segment.header ∧
      segment'.data.length = segment.data.length := by
  have hj := congrArg (·[j]?) h.segments
  simp only [List.getElem?_map, hsegment, Option.map_some, Option.map_eq_some_iff] at hj
  obtain ⟨segment', hsegment', heq⟩ := hj
  obtain ⟨hheader, hlength⟩ := Prod.mk.inj heq
  exact ⟨segment', hsegment', hheader, hlength⟩

theorem loadIndex_eq (h : image.SameShape image') (ioff : UInt64) :
    image'.loadIndex ioff = image.loadIndex ioff := by
  have hfind : ∀ other : ElfImage, other.loadIndex ioff =
      (other.segments.map Segment.header).findIdx? fun header =>
        Segment.loadsVaddr (other.imageBase + ioff) ⟨header, []⟩ := by
    intro other
    rw [List.findIdx?_map]
    rfl
  rw [hfind, hfind, h.headers, h.imageBase_eq]

/-- A request is accepted by images of one shape alike. -/
theorem accepts_of (h : image.SameShape image') {w : Write} (haccepts : image.accepts w = true) :
    image'.accepts w = true := by
  obtain ⟨result, hresult⟩ := Option.isSome_iff_exists.1 haccepts
  obtain ⟨vaddr, index, segment, hwrite⟩ := writeAtIoff_eq_some.1 hresult
  obtain ⟨segment', hsegment', hheader, hlength⟩ := h.segment hwrite.found
  have hstart : segment'.memory.start = segment.memory.start :=
    congrArg (fun header => header.vaddr.toNat) hheader
  refine Option.isSome_iff_exists.2 ⟨_, writeAtIoff_eq_some.2 ⟨vaddr, index, segment',
    ?_, hsegment', ?_, fun j hj other hother => ?_,
    (Extent.within_congr hstart hlength).2 hwrite.within, rfl⟩⟩
  · rw [vaddrOf, h.imageBase_eq]
    exact hwrite.address
  · rw [Segment.loadsVaddr, Segment.containsVaddr, hheader]
    exact hwrite.loads
  · obtain ⟨before, hbefore, hbeforeHeader, -⟩ := h.symm.segment hother
    have hfirst := hwrite.first j hj before hbefore
    rwa [Segment.loadsVaddr, Segment.containsVaddr, hbeforeHeader] at hfirst

theorem accepts_eq (h : image.SameShape image') (w : Write) :
    image'.accepts w = image.accepts w := by
  rw [Bool.eq_iff_iff]
  exact ⟨h.symm.accepts_of, h.accepts_of⟩

theorem segmentHits_eq (h : image.SameShape image') (ws : List Write) (index : ℕ) :
    image'.segmentHits ws index = image.segmentHits ws index := by
  simp only [segmentHits, h.accepts_eq, h.loadIndex_eq, h.written_eq]

theorem sectionHits_eq (h : image.SameShape image') (ws : List Write) {sec sec' : Section}
    (hheader : sec'.header = sec.header) (hlength : sec'.data.length = sec.data.length) :
    image'.sectionHits ws sec' = image.sectionHits ws sec := by
  have htakes : ∀ vaddr bytes, sec'.takes vaddr bytes = sec.takes vaddr bytes := by
    intro vaddr bytes
    have hstart : sec'.memory.start = sec.memory.start :=
      congrArg (fun header => header.addr.toNat) hheader
    rw [Section.takes, Section.takes, Section.containsVaddr, hheader,
      decide_eq_decide.2 (Extent.within_congr hstart hlength)]
    rfl
  simp only [sectionHits, h.accepts_eq, h.imageBase_eq, h.written_eq, htakes]

end SameShape

/-- A write keeps the shape of the image. -/
theorem WrittenAt.sameShape {image image' : ElfImage} {ioff vaddr : UInt64}
    {bytes : List UInt8} {index : ℕ} {segment : Segment}
    (h : image.WrittenAt ioff bytes image' vaddr index segment) : image.SameShape image' where
  segments := by
    have hlength : (segment.patch ⟨vaddr.toNat, bytes⟩).data.length = segment.data.length :=
      Extent.length_patch h.within
    have hget : (image.segments.map fun segment => (segment.header, segment.data.length))[index]?
        = some (segment.header, segment.data.length) := by
      rw [List.getElem?_map, h.found]
      rfl
    obtain ⟨hlt, heq⟩ := List.getElem?_eq_some_iff.1 hget
    rw [h.result, List.map_set, hlength, Segment.patch_header, ← heq]
    exact List.set_getElem_self hlt
  sections := by
    rw [h.result, List.map_map]
    refine List.map_congr_left fun sec _ => ?_
    rw [Function.comp_apply, sec.writeAt_header, sec.length_writeAt]

theorem sameShape_write (image : ElfImage) (w : Write) :
    image.SameShape ((image.writeAtIoff w.ioff w.bytes).getD image) := by
  cases hwrite : image.writeAtIoff w.ioff w.bytes with
  | none => exact SameShape.refl image
  | some image' =>
      obtain ⟨vaddr, index, segment, h⟩ := writeAtIoff_eq_some.1 hwrite
      exact h.sameShape

theorem sameShape_writeAll (image : ElfImage) (ws : List Write) :
    image.SameShape (image.writeAll ws) := by
  induction ws generalizing image with
  | nil => exact SameShape.refl image
  | cons w ws ih => exact (image.sameShape_write w).trans (ih _)

/-! ## What a run leaves -/

/-- The image with every segment and section patched by what a run writes to it. -/
def patched (image : ElfImage) (ws : List Write) : ElfImage :=
  { image with
    segments := image.segments.mapIdx fun i segment => segment.patchAll (image.segmentHits ws i)
    sections := image.sections.map fun sec => sec.patchAll (image.sectionHits ws sec) }

theorem segmentHits_cons (image : ElfImage) (w : Write) (ws : List Write) (index : ℕ) :
    image.segmentHits (w :: ws) index =
      image.segmentHits [w] index ++ image.segmentHits ws index := by
  rw [segmentHits, ← List.singleton_append, List.filter_append, List.map_append]
  rfl

theorem sectionHits_cons (image : ElfImage) (w : Write) (ws : List Write) (sec : Section) :
    image.sectionHits (w :: ws) sec =
      image.sectionHits [w] sec ++ image.sectionHits ws sec := by
  rw [sectionHits, ← List.singleton_append, List.filter_append, List.map_append]
  rfl

theorem within_of_mem_sectionHits (image : ElfImage) (ws : List Write) (sec : Section) :
    ∀ e ∈ image.sectionHits ws sec, e.Within sec.memory := by
  intro e he
  obtain ⟨w, hw, rfl⟩ := List.mem_map.1 he
  obtain ⟨-, htakes⟩ := Bool.and_eq_true_iff.1 (List.mem_filter.1 hw).2
  exact of_decide_eq_true (Bool.and_eq_true_iff.1 htakes).2

theorem within_of_mem_segmentHits {image : ElfImage} {index : ℕ} {segment : Segment}
    (hsegment : image.segments[index]? = some segment) (ws : List Write) :
    ∀ e ∈ image.segmentHits ws index, e.Within segment.memory := by
  intro e he
  obtain ⟨w, hw, rfl⟩ := List.mem_map.1 he
  obtain ⟨haccepts, hindex⟩ := Bool.and_eq_true_iff.1 (List.mem_filter.1 hw).2
  obtain ⟨image', hwrite⟩ := Option.isSome_iff_exists.1 haccepts
  obtain ⟨vaddr, index', segment', h⟩ := writeAtIoff_eq_some.1 hwrite
  rw [h.loadIndex_eq, beq_iff_eq, Option.some_inj] at hindex
  subst hindex
  obtain rfl := Option.some.inj (h.found.symm.trans hsegment)
  rw [h.written_eq]
  exact h.within

/-- A run that writes nothing leaves the image. -/
theorem patched_of_no_hits {image : ElfImage} {ws : List Write}
    (hsegments : ∀ index, image.segmentHits ws index = [])
    (hsections : ∀ sec, image.sectionHits ws sec = []) : image.patched ws = image := by
  have hsame : image.segments.mapIdx (fun _ segment => segment.patchAll []) = image.segments := by
    simp [List.mapIdx_eq_zipIdx_map, Segment.patchAll_nil]
  simp only [patched, hsegments, hsections, hsame, Section.patchAll_nil, List.map_id']

theorem write_eq_patched (image : ElfImage) (w : Write) :
    (image.writeAtIoff w.ioff w.bytes).getD image = image.patched [w] := by
  cases hwrite : image.writeAtIoff w.ioff w.bytes with
  | none =>
      have hsegments : ∀ index, image.segmentHits [w] index = [] := fun index => by
        simp [segmentHits, accepts, hwrite]
      have hsections : ∀ sec, image.sectionHits [w] sec = [] := fun sec => by
        simp [sectionHits, accepts, hwrite]
      exact (patched_of_no_hits hsegments hsections).symm
  | some image' =>
      have haccepts : image.accepts w = true := by rw [accepts, hwrite]; rfl
      obtain ⟨vaddr, index, segment, h⟩ := writeAtIoff_eq_some.1 hwrite
      rw [Option.getD_some, patched, h.result]
      congr 1
      · apply List.ext_getElem?
        intro j
        rw [List.getElem?_mapIdx, segmentHits, List.filter_singleton, haccepts, h.loadIndex_eq,
          Bool.true_and]
        by_cases hj : index = j
        · subst hj
          obtain ⟨hlen, -⟩ := List.getElem?_eq_some_iff.1 h.found
          rw [List.getElem?_set_self hlen, h.found, beq_self_eq_true, cond_true,
            List.map_singleton, h.written_eq]
          rfl
        · have hother : (some index == some j) = false := by simpa using hj
          rw [List.getElem?_set_ne hj, hother, cond_false, List.map_nil]
          simp [Segment.patchAll_nil]
      · refine List.map_congr_left fun sec _ => ?_
        rw [sec.writeAt_eq_patchAll, sectionHits, List.filter_singleton, haccepts, Bool.true_and,
          imageBase_add_of_vaddrOf h.address]
        cases sec.takes vaddr w.bytes with
        | false => rfl
        | true =>
            rw [cond_true, List.map_singleton, h.written_eq]
            rfl

/-- A run of writes patches every segment and section with what it writes to it. -/
theorem writeAll_eq_patched (image : ElfImage) (ws : List Write) :
    image.writeAll ws = image.patched ws := by
  induction ws generalizing image with
  | nil => exact (patched_of_no_hits (fun _ => rfl) fun _ => rfl).symm
  | cons w ws ih =>
      have hshape := image.sameShape_write w
      rw [write_eq_patched] at hshape
      have hsegments : (image.patched [w]).segments.mapIdx (fun i segment =>
          segment.patchAll ((image.patched [w]).segmentHits ws i)) =
            image.segments.mapIdx fun i segment =>
              segment.patchAll (image.segmentHits (w :: ws) i) := by
        rw [show (image.patched [w]).segments = image.segments.mapIdx fun i segment =>
          segment.patchAll (image.segmentHits [w] i) from rfl, List.mapIdx_mapIdx]
        refine congrArg (List.mapIdx · image.segments) (funext₂ fun i segment => ?_)
        rw [image.segmentHits_cons w ws, Segment.patchAll_append, hshape.segmentHits_eq]
        rfl
      have hsections : (image.patched [w]).sections.map (fun sec =>
          sec.patchAll ((image.patched [w]).sectionHits ws sec)) =
            image.sections.map fun sec => sec.patchAll (image.sectionHits (w :: ws) sec) := by
        rw [show (image.patched [w]).sections = image.sections.map fun sec =>
          sec.patchAll (image.sectionHits [w] sec) from rfl, List.map_map]
        refine List.map_congr_left fun sec _ => ?_
        have hhits : (image.patched [w]).sectionHits ws
            (sec.patchAll (image.sectionHits [w] sec)) = image.sectionHits ws sec :=
          hshape.sectionHits_eq ws rfl
            (Extent.length_patchAll (image.within_of_mem_sectionHits [w] sec))
        rw [image.sectionHits_cons w ws, Section.patchAll_append, Function.comp_apply, hhits]
      rw [writeAll_cons, ih, write_eq_patched, patched, hsegments, hsections]
      rfl

/-- What a run of writes leaves: everything but the data, and at every address of a segment
or a section the last accepted request that wrote there. -/
structure LastWritesShow (image left : ElfImage) (ws : List Write) : Prop where
  ident : left.ident = image.ident
  header : left.header = image.header
  runtimeBase : left.runtimeBase = image.runtimeBase
  accepts : ∀ w, left.accepts w = image.accepts w
  segments : ∀ (i : ℕ) (segment : Segment), image.segments[i]? = some segment →
    ∃ segment', left.segments[i]? = some segment' ∧ segment'.header = segment.header ∧
      ∀ a, segment'.memory.get? a =
        (Extent.topmost (image.segmentHits ws i) a).or (segment.memory.get? a)
  sections : ∀ (i : ℕ) (sec : Section), image.sections[i]? = some sec →
    ∃ sec', left.sections[i]? = some sec' ∧ sec'.header = sec.header ∧ sec'.name = sec.name ∧
      ∀ a, sec'.memory.get? a =
        (Extent.topmost (image.sectionHits ws sec) a).or (sec.memory.get? a)

theorem lastWritesShow_writeAll (image : ElfImage) (ws : List Write) :
    image.LastWritesShow (image.writeAll ws) ws := by
  have hshape := image.sameShape_writeAll ws
  rw [writeAll_eq_patched] at hshape ⊢
  refine ⟨rfl, rfl, rfl, hshape.accepts_eq, fun i segment hsegment => ?_, fun i sec hsec => ?_⟩
  · refine ⟨segment.patchAll (image.segmentHits ws i), ?_, rfl, fun a => ?_⟩
    · rw [patched, List.getElem?_mapIdx, hsegment]
      rfl
    · rw [Segment.memory_patchAll, Extent.get?_patchAll (within_of_mem_segmentHits hsegment ws)]
  · refine ⟨sec.patchAll (image.sectionHits ws sec), ?_, rfl, rfl, fun a => ?_⟩
    · rw [patched, List.getElem?_map, hsec]
      rfl
    · rw [Section.memory_patchAll, Extent.get?_patchAll (image.within_of_mem_sectionHits ws sec)]

/-- A run of writes keeps every header, every length and the addresses of the image, and the
last accepted request shows at every address. -/
theorem writeAll_leaves (image : ElfImage) (ws : List Write) :
    image.SameShape (image.writeAll ws) ∧
      (image.writeAll ws).geometry = image.geometry ∧
      image.LastWritesShow (image.writeAll ws) ws := by
  have hshape := image.sameShape_writeAll ws
  refine ⟨hshape, ?_, image.lastWritesShow_writeAll ws⟩
  rw [geometry, geometry, hshape.headers]

/-! ## The order of a run -/

/-- Runs with the same layers leave the same image. -/
theorem patched_congr {image : ElfImage} {ws ws' : List Write}
    (hsegments : ∀ i a, Extent.topmost (image.segmentHits ws i) a =
      Extent.topmost (image.segmentHits ws' i) a)
    (hsections : ∀ sec a, Extent.topmost (image.sectionHits ws sec) a =
      Extent.topmost (image.sectionHits ws' sec) a) : image.patched ws = image.patched ws' := by
  rw [patched, patched]
  congr 1
  · apply List.ext_getElem?
    intro i
    rw [List.getElem?_mapIdx, List.getElem?_mapIdx]
    cases hsegment : image.segments[i]? with
    | none => rfl
    | some segment =>
        have hpatch := Extent.patchAll_congr (within_of_mem_segmentHits hsegment ws)
          (within_of_mem_segmentHits hsegment ws') (hsegments i)
        rw [Option.map_some, Option.map_some, Segment.patchAll, Segment.patchAll, hpatch]
  · refine List.map_congr_left fun sec _ => ?_
    have hpatch := Extent.patchAll_congr (image.within_of_mem_sectionHits ws sec)
      (image.within_of_mem_sectionHits ws' sec) (hsections sec)
    rw [Section.patchAll, Section.patchAll, hpatch]

/-- An accepted request is written at its offset from the base. -/
theorem written_start_of_accepts {image : ElfImage} {w : Write} (h : image.accepts w = true) :
    (image.written w.ioff w.bytes).start = image.imageBase.toNat + w.ioff.toNat := by
  obtain ⟨image', hwrite⟩ := Option.isSome_iff_exists.1 h
  obtain ⟨vaddr, index, segment, hwritten⟩ := writeAtIoff_eq_some.1 hwrite
  rw [hwritten.written_eq]
  exact (checkedAdd_eq_some.1 hwritten.address).symm

/-- Accepted requests that share no offset are written to addresses apart. -/
theorem pairwise_disjoint_written (image : ElfImage) {ws : List Write}
    (hdisjoint : ws.Pairwise fun w w' => w.extent.Disjoint w'.extent) (p : Write → Bool) :
    ((ws.filter fun w => image.accepts w && p w).map fun w =>
      image.written w.ioff w.bytes).Pairwise Extent.Disjoint := by
  rw [List.pairwise_map]
  refine (hdisjoint.filter _).imp_of_mem fun {w w'} hw hw' hapart => ?_
  have hstart := written_start_of_accepts (Bool.and_eq_true_iff.1 (List.mem_filter.1 hw).2).1
  have hstart' := written_start_of_accepts (Bool.and_eq_true_iff.1 (List.mem_filter.1 hw').2).1
  rw [Extent.Disjoint, Extent.stop, Extent.stop, hstart, hstart']
  simp only [Extent.Disjoint, Extent.stop, Write.extent, written] at hapart ⊢
  omega

/-- Requests that share no offset can come in any order. -/
theorem writeAll_perm (image : ElfImage) {ws ws' : List Write} (hperm : ws.Perm ws')
    (hdisjoint : ws.Pairwise fun w w' => w.extent.Disjoint w'.extent) :
    image.writeAll ws = image.writeAll ws' := by
  rw [writeAll_eq_patched, writeAll_eq_patched]
  apply patched_congr
  · intro i
    exact Extent.topmost_perm ((hperm.filter _).map _)
      (image.pairwise_disjoint_written hdisjoint _)
  · intro sec
    exact Extent.topmost_perm ((hperm.filter _).map _)
      (image.pairwise_disjoint_written hdisjoint _)

/-- Two requests for the code of an executable. -/
theorem smallFile_writes_perm :
    (imageOf smallFile).writeAll [⟨0, [0xcc]⟩, ⟨1, [0xf4]⟩] =
        (imageOf smallFile).writeAll [⟨1, [0xf4]⟩, ⟨0, [0xcc]⟩] ∧
      (imageOf smallFile).accepts ⟨0, [0xcc]⟩ = true :=
  ⟨writeAll_perm _ (List.Perm.swap _ _ []) (List.pairwise_pair.2 (Or.inl (by decide))),
    by decide +kernel⟩

/-- Requests for one range are accepted alike. -/
theorem accepts_of_sameRange {image : ElfImage} {w w' : Write} (hioff : w'.ioff = w.ioff)
    (hlength : w'.bytes.length = w.bytes.length) (h : image.accepts w = true) :
    image.accepts w' = true := by
  obtain ⟨image', hwrite⟩ := Option.isSome_iff_exists.1 h
  obtain ⟨vaddr, index, segment, hwritten⟩ := writeAtIoff_eq_some.1 hwrite
  refine Option.isSome_iff_exists.2 ⟨_, writeAtIoff_eq_some.2 ⟨vaddr, index, segment,
    hioff ▸ hwritten.address, hwritten.found, hwritten.loads, hwritten.first, ?_, rfl⟩⟩
  have hwithin := hwritten.within
  rwa [Extent.Within, Extent.stop, ← hlength] at hwithin

/-- A request for a range that a later one writes over leaves nothing behind. -/
theorem writeAll_forgets (image : ElfImage) {w w' : Write} {ws : List Write} (hmem : w' ∈ ws)
    (hioff : w'.ioff = w.ioff) (hlength : w'.bytes.length = w.bytes.length) :
    image.writeAll (w :: ws) = image.writeAll ws := by
  have hstart : (image.written w'.ioff w'.bytes).start = (image.written w.ioff w.bytes).start := by
    rw [hioff]
    rfl
  -- whatever lets the first request through lets the later one through
  have hhides : ∀ p : Write → Bool, (p w = true → p w' = true) → ∀ a,
      Extent.topmost (((w :: ws).filter fun w => image.accepts w && p w).map fun w =>
        image.written w.ioff w.bytes) a =
      Extent.topmost ((ws.filter fun w => image.accepts w && p w).map fun w =>
        image.written w.ioff w.bytes) a := by
    intro p hp a
    rw [List.filter_cons]
    split
    · rename_i hpass
      obtain ⟨haccepts, hpw⟩ := Bool.and_eq_true_iff.1 hpass
      rw [List.map_cons]
      refine Extent.topmost_cons_of_sameRange (List.mem_map_of_mem (List.mem_filter.2 ⟨hmem, ?_⟩))
        hstart hlength a
      rw [accepts_of_sameRange hioff hlength haccepts, hp hpw]
      rfl
    · rfl
  rw [writeAll_eq_patched, writeAll_eq_patched]
  apply patched_congr
  · intro i
    exact hhides _ fun h => by rwa [hioff]
  · intro sec
    refine hhides _ fun h => ?_
    rw [hioff]
    simp only [Section.takes, Extent.Within, Extent.stop, hlength] at h ⊢
    exact h

/-- A byte written over after a byte next to it is. -/
theorem smallFile_forgets :
    (imageOf smallFile).writeAll [⟨0, [0xcc]⟩, ⟨1, [0xf4]⟩, ⟨0, [0x90]⟩] =
      (imageOf smallFile).writeAll [⟨1, [0xf4]⟩, ⟨0, [0x90]⟩] :=
  writeAll_forgets _ (List.mem_cons_of_mem _ List.mem_cons_self) rfl rfl

end ElfImage

end Elfex
