import Elfex.Image.Edit

/-!
# Edits in place

The editor mutates the segment it has found and then one section after another, and it may
stop early. Nothing has been written where it stops, and what it writes stays inside the
written range of the segment and of the allocated sections.
-/

namespace Elfex

open Foundation

/-- Changing one entry after another changes them all. -/
theorem foldl_modify_range {α : Type*} (l : List α) (f : α → α) :
    (List.range l.length).foldl (fun l i => l.modify i f) l = l.map f := by
  have hturns : ∀ n i : ℕ, ((List.range n).foldl (fun l i => l.modify i f) l)[i]? =
      if i < n then l[i]?.map f else l[i]? := by
    intro n i
    induction n with
    | zero => rfl
    | succ n ih =>
        rw [List.range_succ, List.foldl_concat, List.getElem?_modify, ih]
        rcases Nat.lt_trichotomy i n with hlt | rfl | hgt
        · rw [if_pos hlt, if_pos (by omega)]
          simp [hlt.ne']
        · simp
        · rw [if_neg (by omega), if_neg (by omega)]
          simp [hgt.ne]
  apply List.ext_getElem?
  intro i
  rw [hturns, List.getElem?_map]
  split
  · rfl
  · rename_i hge
    rw [List.getElem?_eq_none (Nat.not_lt.1 hge)]
    rfl

/-- Computations that change an image in place and may stop early. -/
abbrev Editing := OptionT (StateM ElfImage)

namespace Editing

variable {α β : Type}

/-- What the computation returns, and the image it leaves. -/
def exec (edit : Editing α) (image : ElfImage) : Option α × ElfImage := edit.run.run image

variable (image : ElfImage)

@[simp] theorem exec_get_bind (f : ElfImage → Editing α) :
    (get >>= f).exec image = (f image).exec image := rfl

@[simp] theorem exec_failure : (failure : Editing α).exec image = (none, image) := rfl

@[simp] theorem exec_set (image' : ElfImage) :
    (set image' : Editing PUnit).exec image = (some (), image') := rfl

/-- A step that stops early ends the computation, any other one is followed by the rest on
the image it leaves. -/
theorem exec_bind (step : Editing α) (f : α → Editing β) :
    (step >>= f).exec image =
      match step.exec image with
      | (none, image') => (none, image')
      | (some a, image') => (f a).exec image' := by
  have hbind : (step >>= f).exec image = (fun left : Option α × ElfImage =>
      (match left.1 with
        | some a => (f a).run
        | none => pure none).run left.2) (step.exec image) := rfl
  rw [hbind]
  rcases step.exec image with ⟨_ | a, image'⟩
  · rfl
  · rfl

end Editing

/-- A turn of the section loop changes bytes of an allocated section with data only, at the
written addresses. -/
theorem Section.bounds_of_writeAt_ne {sec : Section} {vaddr : UInt64} {bytes : List UInt8}
    {i : ℕ} (hne : (sec.writeAt vaddr bytes).data[i]? ≠ sec.data[i]?) :
    sec.header.flags.isAlloc = true ∧ sec.header.isNobits = false ∧
      vaddr.toNat ≤ sec.header.addr.toNat + i ∧
        sec.header.addr.toNat + i < vaddr.toNat + bytes.length := by
  by_cases hturn : sec.containsVaddr vaddr = true ∧ sec.header.isNobits = false
  · obtain ⟨hcovers, hnobits⟩ := hturn
    have halloc := ((sec.containsVaddr_iff vaddr).1 hcovers).1
    rw [writeAt_of_covers hnobits hcovers] at hne
    split_ifs at hne with hwithin
    · exact ⟨halloc, hnobits, Extent.bounds_of_patch_ne hwithin hne⟩
    · exact absurd rfl hne
  · rw [writeAt, if_pos (by simpa [or_iff_not_imp_left] using hturn)] at hne
    exact absurd rfl hne

namespace ElfImage

/-- Copies the bytes into the segment at `index`. -/
def writeSegmentInPlace (index : ℕ) (vaddr : UInt64) (bytes : List UInt8) : Editing Unit := do
  let image ← get
  let some segment := image.segments[index]? | failure
  let some data := copyAt segment.data (vaddr - segment.header.vaddr).toNat bytes | failure
  set { image with segments := image.segments.set index { segment with data } }

/-- One turn of the section loop. -/
def writeSectionInPlace (vaddr : UInt64) (bytes : List UInt8) (i : ℕ) : Editing Unit :=
  modify fun image =>
    { image with sections := image.sections.modify i fun sec => sec.writeAt vaddr bytes }

/-- Replaces bytes at an image-relative offset, in the image itself. -/
def writeAtIoffInPlace (ioff : UInt64) (bytes : List UInt8) : Editing Unit := do
  let image ← get
  let some vaddr := image.vaddrOf ioff | failure
  let some index := image.segments.findIdx? (Segment.loadsVaddr vaddr) | failure
  writeSegmentInPlace index vaddr bytes
  (List.range image.sections.length).forM (writeSectionInPlace vaddr bytes)

/-- The turns of the section loop change the sections only. -/
theorem exec_writeSections (vaddr : UInt64) (bytes : List UInt8) (turns : List ℕ)
    (image : ElfImage) :
    Editing.exec (turns.forM (writeSectionInPlace vaddr bytes)) image =
      (some (), { image with
        sections := turns.foldl (fun sections i =>
          sections.modify i fun sec => sec.writeAt vaddr bytes) image.sections }) := by
  induction turns generalizing image with
  | nil => rfl
  | cons i turns ih => exact ih _

theorem exec_writeSegment (index : ℕ) (vaddr : UInt64) (bytes : List UInt8)
    (image : ElfImage) :
    (writeSegmentInPlace index vaddr bytes).exec image =
      match image.segments[index]?.bind fun segment => segment.writeAt vaddr bytes with
      | none => (none, image)
      | some segment =>
        (some (), { image with segments := image.segments.set index segment }) := by
  simp only [writeSegmentInPlace, Segment.writeAt, Editing.exec_get_bind]
  cases hsegment : image.segments[index]? with
  | none => simp
  | some segment =>
      cases hcopy : copyAt segment.data (vaddr - segment.header.vaddr).toNat bytes with
      | none => simp [hcopy]
      | some data => simp [hcopy]

/-- The edit in place is the edit, and leaves the image alone where there is none. -/
theorem exec_writeAtIoff (image : ElfImage) (ioff : UInt64) (bytes : List UInt8) :
    (writeAtIoffInPlace ioff bytes).exec image =
      match image.writeAtIoff ioff bytes with
      | none => (none, image)
      | some image' => (some (), image') := by
  simp only [writeAtIoffInPlace, writeAtIoff, Editing.exec_get_bind]
  cases hvaddr : image.vaddrOf ioff with
  | none => simp
  | some vaddr =>
      cases hindex : image.segments.findIdx? (Segment.loadsVaddr vaddr) with
      | none => simp [hindex]
      | some index =>
          simp only [hindex, Option.bind_eq_bind, Option.bind_some]
          rw [Editing.exec_bind, exec_writeSegment, ← Option.bind_assoc]
          cases image.segments[index]?.bind fun segment => segment.writeAt vaddr bytes with
          | none => rfl
          | some segment =>
              dsimp only
              rw [exec_writeSections, foldl_modify_range]
              rfl

/-- What an edit at an address may change: the bytes at the written addresses of one load
that covers the address, and of the allocated sections with data. -/
structure Framed (image image' : ElfImage) (address : ℕ) (bytes : List UInt8) : Prop where
  ident : image'.ident = image.ident
  header : image'.header = image.header
  runtimeBase : image'.runtimeBase = image.runtimeBase
  segmentHeaders : image'.segments.map Segment.header = image.segments.map Segment.header
  segmentLengths : (image'.segments.map fun segment => segment.data.length) =
    image.segments.map fun segment => segment.data.length
  sectionNames : image'.sections.map Section.name = image.sections.map Section.name
  sectionHeaders : image'.sections.map Section.header = image.sections.map Section.header
  sectionLengths : (image'.sections.map fun sec => sec.data.length) =
    image.sections.map fun sec => sec.data.length
  segment : ∃ (index : ℕ) (segment segment' : Segment),
    image.segments[index]? = some segment ∧ segment.header.isLoad = true ∧
      (segment.header.vaddr.toNat ≤ address ∧
        address < segment.header.vaddr.toNat + segment.header.memsz.toNat) ∧
      image'.segments = image.segments.set index segment' ∧
      ∀ i, segment'.data[i]? ≠ segment.data[i]? →
        address ≤ segment.header.vaddr.toNat + i ∧
          segment.header.vaddr.toNat + i < address + bytes.length
  sections : ∀ (k : ℕ) (sec sec' : Section), image.sections[k]? = some sec →
    image'.sections[k]? = some sec' → ∀ i, sec'.data[i]? ≠ sec.data[i]? →
      sec.header.flags.isAlloc = true ∧ sec.header.isNobits = false ∧
        address ≤ sec.header.addr.toNat + i ∧
          sec.header.addr.toNat + i < address + bytes.length

variable {image image' : ElfImage} {ioff vaddr : UInt64} {bytes : List UInt8}

/-- A write is framed. -/
theorem WrittenAt.framed {index : ℕ} {segment : Segment}
    (h : image.WrittenAt ioff bytes image' vaddr index segment) :
    image.Framed image' vaddr.toNat bytes where
  ident := by rw [h.result]
  header := by rw [h.result]
  runtimeBase := by rw [h.result]
  segmentHeaders := h.headers
  segmentLengths := by
    have hlength : (segment.patch ⟨vaddr.toNat, bytes⟩).data.length = segment.data.length :=
      Extent.length_patch h.within
    have hget : (image.segments.map fun segment => segment.data.length)[index]? =
        some segment.data.length := by
      rw [List.getElem?_map, h.found]
      rfl
    obtain ⟨hlt, heq⟩ := List.getElem?_eq_some_iff.1 hget
    rw [h.result, List.map_set, hlength, ← heq]
    exact List.set_getElem_self hlt
  sectionNames := by
    rw [h.result, List.map_map]
    exact List.map_congr_left fun sec _ => sec.writeAt_name vaddr bytes
  sectionHeaders := by
    rw [h.result, List.map_map]
    exact List.map_congr_left fun sec _ => sec.writeAt_header vaddr bytes
  sectionLengths := by
    rw [h.result, List.map_map]
    exact List.map_congr_left fun sec _ => sec.length_writeAt vaddr bytes
  segment := by
    obtain ⟨hload, hcovers⟩ := Bool.and_eq_true_iff.1 h.loads
    have hbounds := (segment.containsVaddr_iff vaddr).1 hcovers
    refine ⟨index, segment, segment.patch ⟨vaddr.toNat, bytes⟩, h.found, hload,
      ⟨hbounds.1, by omega⟩, by rw [h.result], fun i hne => ?_⟩
    exact Extent.bounds_of_patch_ne h.within hne
  sections := by
    intro k sec sec' hsec hsec' i hne
    rw [h.result, List.getElem?_map, hsec, Option.map_some, Option.some_inj] at hsec'
    subst hsec'
    exact sec.bounds_of_writeAt_ne hne

/-- An edit leaves the image alone, or is framed. -/
theorem exec_writeAtIoff_framed (image : ElfImage) (ioff : UInt64) (bytes : List UInt8) :
    (((writeAtIoffInPlace ioff bytes).exec image).1 = none →
      ((writeAtIoffInPlace ioff bytes).exec image).2 = image) ∧
    (((writeAtIoffInPlace ioff bytes).exec image).1 = some () →
      image.Framed ((writeAtIoffInPlace ioff bytes).exec image).2
        (image.imageBase.toNat + ioff.toNat) bytes) := by
  rw [exec_writeAtIoff]
  cases hwrite : image.writeAtIoff ioff bytes with
  | none => exact ⟨fun _ => rfl, fun h => nomatch h⟩
  | some image' =>
      obtain ⟨vaddr, index, segment, h⟩ := writeAtIoff_eq_some.1 hwrite
      refine ⟨fun h => (nomatch h), fun _ => ?_⟩
      have haddress := checkedAdd_eq_some.1 h.address
      exact haddress ▸ h.framed

end ElfImage

end Elfex
