import Elfex.Image.Edit

/-!
# Reading a write back

The accessors that read search the segment table for the first segment of any type, the
editor for the first loadable one. The two searches give the same segment exactly when
every other segment that covers the address comes after a loadable one that does.
-/

namespace Elfex

open Foundation

/-- Restricting a first-match search does not change it exactly when every match that is
excluded comes after one that is not. -/
theorem find?_eq_find?_and_iff {α : Type} (l : List α) (p q : α → Bool) :
    l.find? q = l.find? (fun a => p a && q a) ↔
      ∀ (i : ℕ) (a : α), l[i]? = some a → q a = true → p a = false →
        ∃ j < i, ∃ b, l[j]? = some b ∧ (p b && q b) = true := by
  induction l with
  | nil => simp
  | cons c l ih =>
      rw [List.find?_cons, List.find?_cons]
      cases hq : q c with
      | false =>
          rw [Bool.and_false]
          dsimp only
          rw [ih]
          constructor
          · intro h i a hi hqa hpa
            cases i with
            | zero =>
                cases hi
                exact absurd hqa (by simp [hq])
            | succ i =>
                obtain ⟨j, hj, b, hb, hpq⟩ := h i a hi hqa hpa
                exact ⟨j + 1, Nat.succ_lt_succ hj, b, hb, hpq⟩
          · intro h i a hi hqa hpa
            obtain ⟨j, hj, b, hb, hpq⟩ := h (i + 1) a hi hqa hpa
            cases j with
            | zero =>
                cases hb
                exact absurd hpq (by simp [hq])
            | succ j => exact ⟨j, Nat.lt_of_succ_lt_succ hj, b, hb, hpq⟩
      | true =>
          rw [Bool.and_true]
          dsimp only
          cases hp : p c with
          | true =>
              refine iff_of_true rfl fun i a hi hqa hpa => ?_
              cases i with
              | zero =>
                  cases hi
                  exact absurd hpa (by simp [hp])
              | succ i => exact ⟨0, Nat.succ_pos i, c, rfl, by simp [hp, hq]⟩
          | false =>
              refine iff_of_false (fun h => ?_) fun h => ?_
              · have hfound := List.find?_some h.symm
                exact absurd hfound (by simp [hp])
              · obtain ⟨j, hj, -⟩ := h 0 c rfl hq hp
                exact absurd hj (Nat.not_lt_zero j)

/-- The bytes of a segment from an address on, zero past its data. -/
def Segment.loadedAt (segment : Segment) (vaddr : UInt64) (len : ℕ) : List UInt8 :=
  let bytes := window segment.data (vaddr.toNat - segment.header.vaddr.toNat) len
  bytes ++ List.replicate (len - bytes.length) 0

namespace ElfImage

/-- The loadable segment that covers an image-relative offset. -/
def loadByIoff (image : ElfImage) (ioff : UInt64) : Option Segment := do
  let vaddr ← image.vaddrOf ioff
  image.segments.find? (Segment.loadsVaddr vaddr)

/-- Every other segment that covers the address comes after a loadable one that does. -/
def LoadsFirst (image : ElfImage) (vaddr : UInt64) : Prop :=
  ∀ (i : ℕ) (segment : Segment), image.segments[i]? = some segment →
    segment.containsVaddr vaddr = true → segment.header.isLoad = false →
    ∃ j < i, ∃ load, image.segments[j]? = some load ∧ load.loadsVaddr vaddr = true

/-- Every accessor resolves the offset to the covering loadable segment, and what is
written at the offset is read back from it. -/
structure ResolvesToLoad (image : ElfImage) (ioff : UInt64) : Prop where
  segment : image.segmentByIoff ioff = image.loadByIoff ioff
  readAt : ∀ len, image.readAtIoff ioff len = (image.loadByIoff ioff).bind fun load =>
    load.dataAtVaddr (image.imageBase + ioff) len
  read : ∀ len, image.readIoff ioff len = (image.loadByIoff ioff).map fun load =>
    load.loadedAt (image.imageBase + ioff) len
  readBack : ∀ bytes image', bytes ≠ [] → image.writeAtIoff ioff bytes = some image' →
    ∃ (index : ℕ) (load load' : Segment), image.segments[index]? = some load ∧
      load.header.isLoad = true ∧
      load.writeAt (image.imageBase + ioff) bytes = some load' ∧
      image'.segments = image.segments.set index load' ∧
      image'.segmentByIoff ioff = some load' ∧
      image'.readIoff ioff bytes.length = some bytes

variable {image image' : ElfImage} {ioff : UInt64} {bytes : List UInt8}

/-- A read past the data of the covering segment is filled up with zeros. -/
theorem readAtVaddr_eq (image : ElfImage) (vaddr : UInt64) (len : ℕ) :
    image.readAtVaddr vaddr len =
      (image.segments.find? fun segment => segment.containsVaddr vaddr).map fun segment =>
        segment.loadedAt vaddr len := by
  rw [readAtVaddr]
  cases hfind : image.segments.find? fun segment => segment.containsVaddr vaddr with
  | none => rfl
  | some segment =>
      have hcovers : segment.containsVaddr vaddr = true := by
        simpa using List.find?_some hfind
      rcases (segment.containsVaddr_iff vaddr).1 hcovers with ⟨hle, -⟩
      have hstart : (vaddr - segment.header.vaddr).toNat =
          vaddr.toNat - segment.header.vaddr.toNat :=
        UInt64.toNat_sub_of_le _ _ (UInt64.le_iff_toNat_le.2 hle)
      have havailable : (if segment.data.length < vaddr.toNat - segment.header.vaddr.toNat
          then [] else segment.data.drop (vaddr.toNat - segment.header.vaddr.toNat)) =
            segment.data.drop (vaddr.toNat - segment.header.vaddr.toNat) := by
        split
        · rename_i hlt
          rw [List.drop_eq_nil_of_le hlt.le]
        · rfl
      simp only [Option.bind_eq_bind, Option.bind_some, Option.map_some, hstart, havailable,
        Option.pure_def, Option.some_inj]
      rw [Segment.loadedAt, splice, List.take_zero, List.nil_append, Nat.zero_add,
        List.drop_replicate, Nat.min_comm, ← List.take_eq_take_min]
      rfl

theorem segmentByIoff_eq_loadByIoff_iff :
    image.segmentByIoff ioff = image.loadByIoff ioff ↔
      ∀ vaddr, image.vaddrOf ioff = some vaddr → image.LoadsFirst vaddr := by
  unfold segmentByIoff loadByIoff
  cases hvaddr : image.vaddrOf ioff with
  | none => simp
  | some vaddr =>
      simp only [Option.bind_eq_bind, Option.bind_some, Option.some_inj, forall_eq']
      exact find?_eq_find?_and_iff image.segments (fun segment => segment.header.isLoad)
        fun segment => segment.containsVaddr vaddr

namespace WrittenAt

variable {vaddr : UInt64} {index : ℕ} {segment : Segment}

/-- The covering loadable segment of the edited image is the one that was written. -/
theorem loadByIoff_eq (h : image.WrittenAt ioff bytes image' vaddr index segment) :
    image'.loadByIoff ioff = some (segment.patch ⟨vaddr.toNat, bytes⟩) := by
  have hvaddr : image'.vaddrOf ioff = some vaddr := by
    rw [vaddrOf, h.imageBase_eq]
    exact h.address
  rcases List.getElem?_eq_some_iff.1 h.written_getElem? with ⟨hlen, hindex⟩
  rw [loadByIoff, hvaddr, Option.bind_eq_bind, Option.bind_some, List.find?_eq_some_iff_getElem]
  refine ⟨h.loads, index, hlen, hindex, fun j hj => ?_⟩
  have hother : image'.segments[j]? = image.segments[j]? := by
    rw [h.result]
    exact List.getElem?_set_ne (by omega)
  rw [List.getElem?_eq_getElem (hj.trans hlen)] at hother
  simpa using h.first j hj _ hother.symm

theorem loadsFirst (h : image.WrittenAt ioff bytes image' vaddr index segment)
    (hfirst : image.LoadsFirst vaddr) : image'.LoadsFirst vaddr := by
  intro i other hother hcovers hload
  have hheader := h.header_getElem? i
  rw [hother, Option.map_some, eq_comm, Option.map_eq_some_iff] at hheader
  obtain ⟨before, hbefore, hsame⟩ := hheader
  -- covering an address is a matter of the header alone
  obtain ⟨j, hj, load, hload', hloads⟩ := hfirst i before hbefore
    (by rwa [Segment.containsVaddr, hsame]) (by rwa [hsame])
  have hheader' := h.header_getElem? j
  rw [hload', Option.map_some, Option.map_eq_some_iff] at hheader'
  obtain ⟨load', hload'', hsame'⟩ := hheader'
  refine ⟨j, hj, load', hload'', ?_⟩
  rwa [Segment.loadsVaddr, Segment.containsVaddr, hsame']

theorem loadedAt_patch (h : image.WrittenAt ioff bytes image' vaddr index segment) :
    (segment.patch ⟨vaddr.toNat, bytes⟩).loadedAt vaddr bytes.length = bytes := by
  have hfit : vaddr.toNat - segment.header.vaddr.toNat + bytes.length ≤
      segment.data.length := by
    obtain ⟨hstart, hstop⟩ := h.within
    simp only [Segment.memory, Extent.stop] at hstart hstop
    omega
  have hwindow : window (segment.patch ⟨vaddr.toNat, bytes⟩).data
      (vaddr.toNat - segment.header.vaddr.toNat) bytes.length = bytes :=
    window_splice_self hfit
  rw [Segment.loadedAt, Segment.patch_header, hwindow, Nat.sub_self, List.replicate_zero,
    List.append_nil]

end WrittenAt

/-- The accessors agree with the editor at an offset exactly when no other segment that
covers its address comes before the loadable ones. -/
theorem resolvesToLoad_iff (image : ElfImage) (ioff : UInt64) :
    image.ResolvesToLoad ioff ↔
      ∀ vaddr, image.vaddrOf ioff = some vaddr → image.LoadsFirst vaddr := by
  rw [← segmentByIoff_eq_loadByIoff_iff]
  refine ⟨fun h => h.segment, fun hsegment => ⟨hsegment, ?_, ?_, ?_⟩⟩
  · intro len
    rw [readAtIoff, hsegment]
    rfl
  · intro len
    rw [readIoff]
    rw [segmentByIoff] at hsegment
    cases hvaddr : image.vaddrOf ioff with
    | none =>
        rw [loadByIoff, hvaddr]
        rfl
    | some vaddr =>
        rw [hvaddr] at hsegment
        rw [← hsegment, imageBase_add_of_vaddrOf hvaddr]
        exact image.readAtVaddr_eq vaddr len
  · intro bytes image' _ hwrite
    rcases writeAtIoff_eq_some.1 hwrite with ⟨vaddr, index, segment, h⟩
    rcases Bool.and_eq_true_iff.1 h.loads with ⟨hload, hcovers⟩
    have hvaddr : image'.vaddrOf ioff = some vaddr := by
      rw [vaddrOf, h.imageBase_eq]
      exact h.address
    have hfirst := h.loadsFirst (segmentByIoff_eq_loadByIoff_iff.1 hsegment vaddr h.address)
    have hsegment' : image'.segmentByIoff ioff = some (segment.patch ⟨vaddr.toNat, bytes⟩) := by
      rw [segmentByIoff_eq_loadByIoff_iff.2, h.loadByIoff_eq]
      intro vaddr' hvaddr'
      rwa [← Option.some.inj (hvaddr.symm.trans hvaddr')]
    refine ⟨index, segment, _, h.found, hload, ?_, congrArg ElfImage.segments h.result,
      hsegment', ?_⟩
    · rw [imageBase_add_of_vaddrOf h.address]
      exact (Segment.writeAt_eq_some hcovers).2 ⟨h.within, rfl⟩
    · rw [segmentByIoff] at hsegment'
      rw [hvaddr, Option.bind_eq_bind, Option.bind_some] at hsegment'
      rw [readIoff, hvaddr, Option.bind_eq_bind, Option.bind_some, readAtVaddr_eq, hsegment',
        Option.map_some, h.loadedAt_patch]

end ElfImage

/-- A file whose code is covered by a note header that comes before the loadable one. -/
def noteFile : List UInt8 :=
  { smallHeader with phnum := 2, shoff := 0, shnum := 0, shstrndx := 0 }.write ++
    { smallLoad with type := SegmentType.note, offset := 176 }.write .little .elf64 ++
    { smallLoad with offset := 176 }.write .little .elf64 ++ [0x90, 0xc3]

/-- The write changes the loadable segment and the read returns the bytes of the note. -/
theorem noteFile_read :
    ∃ image image', ElfImage.parse noteFile = .ok image ∧
      image.segments.countP (fun segment => segment.header.isLoad) = 1 ∧
      image.writeAtIoff 0 [0xcc] = some image' ∧
      (image'.segmentByIoff 0).map (fun segment => segment.header.type) =
        some SegmentType.note ∧
      image'.readIoff 0 1 = some [0x90] := by
  obtain ⟨image, himage⟩ := Outcome.exists_of_isOk
    (show (ElfImage.parse noteFile).isOk = true by decide +kernel)
  have hdescribed := ((parse_decides (by decide +kernel)).eq_ok_iff image).1 himage
  have hread : ((imageOf noteFile).writeAtIoff 0 [0xcc]).map (fun image' =>
      ((image'.segmentByIoff 0).map fun segment => segment.header.type, image'.readIoff 0 1)) =
        some (some SegmentType.note, some [0x90]) := by decide +kernel
  have hone : (imageOf noteFile).segments.countP (fun segment => segment.header.isLoad) = 1 := by
    decide +kernel
  rw [hdescribed.2] at hone
  rw [hdescribed.2, Option.map_eq_some_iff] at hread
  obtain ⟨image', hwrite, heq⟩ := hread
  obtain ⟨hsegment, hbytes⟩ := Prod.mk.inj heq
  exact ⟨image, image', himage, hone, hwrite, hsegment, hbytes⟩

end Elfex
