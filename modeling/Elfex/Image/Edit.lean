import Elfex.Foundation.Overlay
import Elfex.Image.Grammar
import Elfex.Image.Inspect

/-!
# Editing through image-relative offsets

`writeAtIoff` replaces bytes of the first loadable segment that covers an offset and of
the sections whose data holds the whole range. The readers resolve an offset to the
first segment of any type, so a write is read back exactly when no other segment that
covers the address comes before the loadable ones.
-/

namespace Elfex

open Foundation

/-- Copies `bytes` over a range of a slice; `none` when the range is not inside it. An end
that overflows is not inside any slice. -/
def copyAt (target : List UInt8) (start : ℕ) (bytes : List UInt8) : Option (List UInt8) :=
  if start + bytes.length ≤ target.length then some (splice target start bytes) else none

/-- Replaces bytes of a segment at an address it covers. -/
def Segment.writeAt (segment : Segment) (vaddr : UInt64) (bytes : List UInt8) :
    Option Segment := do
  let data ← copyAt segment.data (vaddr - segment.header.vaddr).toNat bytes
  return { segment with data }

/-- One round of the section loop: a section that does not cover the address, or does not
hold the whole range, is left as it is. -/
def Section.writeAt (sec : Section) (vaddr : UInt64) (bytes : List UInt8) : Section :=
  if !sec.containsVaddr vaddr || sec.header.isNobits then sec
  else
    match copyAt sec.data (vaddr - sec.header.addr).toNat bytes with
    | none => sec
    | some data => { sec with data }

/-- Tests for a loadable segment that covers an address. -/
def Segment.loadsVaddr (vaddr : UInt64) (segment : Segment) : Bool :=
  segment.header.isLoad && segment.containsVaddr vaddr

namespace ElfImage

/-- Replaces bytes at an image-relative offset. On `none` nothing has been written. -/
def writeAtIoff (image : ElfImage) (ioff : UInt64) (bytes : List UInt8) :
    Option ElfImage := do
  let vaddr ← image.vaddrOf ioff
  let index ← image.segments.findIdx? (Segment.loadsVaddr vaddr)
  let segment ← image.segments[index]?
  let segment ← segment.writeAt vaddr bytes
  return { image with
    segments := image.segments.set index segment
    sections := image.sections.map fun sec => sec.writeAt vaddr bytes }

end ElfImage

/-! ## A segment write -/

/-- The bytes of a segment at their addresses. -/
def Segment.memory (segment : Segment) : Extent UInt8 :=
  ⟨segment.header.vaddr.toNat, segment.data⟩

/-- The bytes of a section at their addresses. -/
def Section.memory (sec : Section) : Extent UInt8 := ⟨sec.header.addr.toNat, sec.data⟩

/-- The segment with the bytes of `written` at their addresses. -/
def Segment.patch (segment : Segment) (written : Extent UInt8) : Segment :=
  { segment with data := (segment.memory.patch written).bytes }

@[simp] theorem Segment.patch_header (segment : Segment) (written : Extent UInt8) :
    (segment.patch written).header = segment.header := rfl

theorem Segment.containsVaddr_iff (segment : Segment) (vaddr : UInt64) :
    segment.containsVaddr vaddr = true ↔ segment.header.vaddr.toNat ≤ vaddr.toNat ∧
      vaddr.toNat < min (segment.header.vaddr.toNat + segment.header.memsz.toNat)
        (2 ^ 64 - 1) := by
  rw [containsVaddr, Bool.and_eq_true, decide_eq_true_eq, decide_eq_true_eq,
    UInt64.le_iff_toNat_le, UInt64.lt_iff_toNat_lt, toNat_saturatingAdd]

/-- A segment that covers the address is written exactly when the range lies in its
bytes. -/
theorem Segment.writeAt_eq_some {segment segment' : Segment} {vaddr : UInt64}
    {bytes : List UInt8} (hcovers : segment.containsVaddr vaddr = true) :
    segment.writeAt vaddr bytes = some segment' ↔
      (⟨vaddr.toNat, bytes⟩ : Extent UInt8).Within segment.memory ∧
        segment.patch ⟨vaddr.toNat, bytes⟩ = segment' := by
  rcases (segment.containsVaddr_iff vaddr).1 hcovers with ⟨hle, -⟩
  have hstart : (vaddr - segment.header.vaddr).toNat =
      vaddr.toNat - segment.header.vaddr.toNat :=
    UInt64.toNat_sub_of_le _ _ (UInt64.le_iff_toNat_le.2 hle)
  have hwithin : (⟨vaddr.toNat, bytes⟩ : Extent UInt8).Within segment.memory ↔
      vaddr.toNat - segment.header.vaddr.toNat + bytes.length ≤ segment.data.length := by
    simp only [Extent.Within, Extent.stop, memory]
    omega
  unfold writeAt copyAt
  rw [hwithin, hstart]
  split
  · rename_i hfit
    simp only [Option.bind_eq_bind, Option.bind_some, hfit, true_and]
    exact Option.some_inj
  · rename_i hfit
    simp [hfit]

/-! ## A section round -/

namespace Section

theorem containsVaddr_iff (sec : Section) (vaddr : UInt64) :
    sec.containsVaddr vaddr = true ↔ sec.header.flags.isAlloc = true ∧
      sec.header.addr.toNat ≤ vaddr.toNat ∧
        vaddr.toNat < min (sec.header.addr.toNat + sec.header.size.toNat) (2 ^ 64 - 1) := by
  rw [containsVaddr, Bool.and_eq_true, Bool.and_eq_true, decide_eq_true_eq, decide_eq_true_eq,
    UInt64.le_iff_toNat_le, UInt64.lt_iff_toNat_lt, toNat_saturatingAdd, and_assoc]

theorem writeAt_header (sec : Section) (vaddr : UInt64) (bytes : List UInt8) :
    (sec.writeAt vaddr bytes).header = sec.header := by
  rw [writeAt]
  split
  · rfl
  · split <;> rfl

theorem writeAt_of_covers {sec : Section} {vaddr : UInt64}
    (hnobits : sec.header.isNobits = false) (hcovers : sec.containsVaddr vaddr = true)
    (bytes : List UInt8) :
    sec.writeAt vaddr bytes =
      if (⟨vaddr.toNat, bytes⟩ : Extent UInt8).Within sec.memory then
        { sec with data := (sec.memory.patch ⟨vaddr.toNat, bytes⟩).bytes }
      else sec := by
  have hle' := ((sec.containsVaddr_iff vaddr).1 hcovers).2.1
  have hle := UInt64.le_iff_toNat_le.2 hle'
  have hwithin : (⟨vaddr.toNat, bytes⟩ : Extent UInt8).Within sec.memory ↔
      (vaddr - sec.header.addr).toNat + bytes.length ≤ sec.data.length := by
    rw [UInt64.toNat_sub_of_le _ _ hle]
    simp only [Extent.Within, Extent.stop, memory]
    omega
  rw [writeAt, hcovers, hnobits, if_neg (by decide), copyAt]
  by_cases hfit : (vaddr - sec.header.addr).toNat + bytes.length ≤ sec.data.length
  · rw [if_pos hfit, if_pos (hwithin.2 hfit), UInt64.toNat_sub_of_le _ _ hle]
    rfl
  · rw [if_neg hfit, if_neg (mt hwithin.1 hfit)]

theorem length_writeAt (sec : Section) (vaddr : UInt64) (bytes : List UInt8) :
    (sec.writeAt vaddr bytes).data.length = sec.data.length := by
  unfold writeAt copyAt
  split
  · rfl
  · split <;> rename_i hcopy
    · rfl
    · split at hcopy
      · rename_i hfit
        rw [← Option.some.inj hcopy]
        exact length_splice hfit
      · cases hcopy

theorem writeAt_name (sec : Section) (vaddr : UInt64) (bytes : List UInt8) :
    (sec.writeAt vaddr bytes).name = sec.name := by
  rw [writeAt]
  split
  · rfl
  · split <;> rfl

end Section

/-! ## A successful write -/

namespace ElfImage

/-- A successful write: the covering loadable segment at position `index` and what it
becomes. -/
structure WrittenAt (image : ElfImage) (ioff : UInt64) (bytes : List UInt8)
    (image' : ElfImage) (vaddr : UInt64) (index : ℕ) (segment : Segment) : Prop where
  address : image.vaddrOf ioff = some vaddr
  found : image.segments[index]? = some segment
  loads : segment.loadsVaddr vaddr = true
  first : ∀ j < index, ∀ other : Segment, image.segments[j]? = some other →
    other.loadsVaddr vaddr = false
  within : (⟨vaddr.toNat, bytes⟩ : Extent UInt8).Within segment.memory
  result : image' = { image with
    segments := image.segments.set index (segment.patch ⟨vaddr.toNat, bytes⟩)
    sections := image.sections.map fun sec => sec.writeAt vaddr bytes }

variable {image image' : ElfImage} {ioff : UInt64} {bytes : List UInt8}

theorem imageBase_add_of_vaddrOf {vaddr : UInt64} (h : image.vaddrOf ioff = some vaddr) :
    image.imageBase + ioff = vaddr := by
  have hadd := checkedAdd_eq_some.1 h
  rw [← UInt64.toNat_inj, toNat_add_of_lt (hadd ▸ vaddr.toNat_lt), hadd]

theorem writeAtIoff_eq_some :
    image.writeAtIoff ioff bytes = some image' ↔
      ∃ vaddr index segment, image.WrittenAt ioff bytes image' vaddr index segment := by
  rw [writeAtIoff]
  simp only [Option.bind_eq_bind, Option.bind_eq_some_iff, Option.pure_def,
    Option.some_inj]
  constructor
  · rintro ⟨vaddr, hvaddr, index, hfind, segment, hsegment, segment', hwrite, heq⟩
    rcases List.findIdx?_eq_some_iff_getElem.1 hfind with ⟨hlen, hloads, hfirst⟩
    obtain rfl : image.segments[index] = segment :=
      Option.some.inj ((List.getElem?_eq_getElem hlen).symm.trans hsegment)
    have hcovers := (Bool.and_eq_true_iff.1 hloads).2
    rcases (Segment.writeAt_eq_some hcovers).1 hwrite with ⟨hwithin, rfl⟩
    refine ⟨vaddr, index, _, hvaddr, hsegment, hloads, ?_, hwithin, heq.symm⟩
    intro j hj other hother
    rcases List.getElem?_eq_some_iff.1 hother with ⟨hlt, rfl⟩
    simpa using hfirst j hj
  · rintro ⟨vaddr, index, segment, h⟩
    rcases List.getElem?_eq_some_iff.1 h.found with ⟨hlen, hsegment⟩
    have hcovers := (Bool.and_eq_true_iff.1 h.loads).2
    refine ⟨vaddr, h.address, index, ?_, segment, h.found, _,
      (Segment.writeAt_eq_some hcovers).2 ⟨h.within, rfl⟩, h.result.symm⟩
    refine List.findIdx?_eq_some_iff_getElem.2 ⟨hlen, hsegment ▸ h.loads, fun j hj => ?_⟩
    simpa using h.first j hj _ (List.getElem?_eq_getElem (hj.trans hlen))

namespace WrittenAt

variable {vaddr : UInt64} {index : ℕ} {segment : Segment}

/-- The headers are left as they are. -/
theorem header_getElem? (h : image.WrittenAt ioff bytes image' vaddr index segment) (j : ℕ) :
    (image'.segments[j]?).map Segment.header = (image.segments[j]?).map Segment.header := by
  rw [h.result]
  dsimp only
  by_cases hj : index = j
  · subst hj
    rcases List.getElem?_eq_some_iff.1 h.found with ⟨hlen, -⟩
    rw [List.getElem?_set_self hlen, h.found]
    rfl
  · rw [List.getElem?_set_ne hj]

theorem headers (h : image.WrittenAt ioff bytes image' vaddr index segment) :
    image'.segments.map Segment.header = image.segments.map Segment.header := by
  apply List.ext_getElem?
  intro j
  rw [List.getElem?_map, List.getElem?_map, h.header_getElem? j]

theorem imageBase_eq (h : image.WrittenAt ioff bytes image' vaddr index segment) :
    image'.imageBase = image.imageBase := by
  rw [imageBase, imageBase, geometry, geometry, h.headers]

theorem written_getElem? (h : image.WrittenAt ioff bytes image' vaddr index segment) :
    image'.segments[index]? = some (segment.patch ⟨vaddr.toNat, bytes⟩) := by
  rcases List.getElem?_eq_some_iff.1 h.found with ⟨hlen, -⟩
  rw [h.result]
  exact List.getElem?_set_self hlen

end WrittenAt

end ElfImage

end Elfex
