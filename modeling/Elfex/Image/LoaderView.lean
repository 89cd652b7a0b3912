import Elfex.Image.Overlap
import Elfex.Image.ReadBack

/-!
# The loader's view of an address

In an image of disjoint loads an address belongs to one segment at most: there it has the
byte of the file as far as the file size goes, and zero up to the memory size. The owned
read does not stop where the segment ends, and the borrowed one does not tell an address
behind the file bytes from one of them.
-/

namespace Elfex

open Foundation

/-- The segments are loads at representable addresses of their own, with no more bytes in
the file than in memory. -/
structure ElfImage.PlainLoads (image : ElfImage) : Prop where
  loads : ∀ segment ∈ image.segments, segment.header.isLoad = true
  apart : image.LoadsDisjoint
  sizes : ∀ segment ∈ image.segments, segment.header.filesz ≤ segment.header.memsz
  representable : ∀ segment ∈ image.segments, segment.Representable

namespace Segment

theorem containsVaddr_iff_covers {segment : Segment} (h : segment.Representable)
    (vaddr : UInt64) : segment.containsVaddr vaddr = true ↔ segment.Covers vaddr.toNat := by
  rw [containsVaddr_iff, Nat.min_eq_left (Nat.le_sub_one_of_lt h), Covers]

/-- The byte the loader puts at an address of the segment. -/
def loadedByte (segment : Segment) (address : ℕ) : UInt8 :=
  segment.data.getD (address - segment.header.vaddr.toNat) 0

@[simp] theorem length_loadedAt (segment : Segment) (vaddr : UInt64) (len : ℕ) :
    (segment.loadedAt vaddr len).length = len := by
  have hle : (window segment.data (vaddr.toNat - segment.header.vaddr.toNat) len).length ≤ len :=
    List.length_take_le _ _
  rw [loadedAt, List.length_append, List.length_replicate]
  omega

theorem getElem?_loadedAt {segment : Segment} {vaddr : UInt64} {len k : ℕ} (hk : k < len)
    (hle : segment.header.vaddr.toNat ≤ vaddr.toNat) :
    (segment.loadedAt vaddr len)[k]? = some (segment.loadedByte (vaddr.toNat + k)) := by
  rw [loadedAt, loadedByte, List.getD_eq_getElem?_getD, List.getElem?_append,
    Nat.sub_add_comm hle]
  split
  · rename_i hlt
    rw [getElem?_window, if_pos hk, List.getElem?_eq_getElem (by
      rw [length_window] at hlt
      omega), Option.getD_some]
  · rename_i hge
    rw [List.getElem?_replicate, if_pos (by omega), List.getElem?_eq_none (by
      rw [length_window] at hge
      omega), Option.getD_none]

end Segment

namespace ElfImage

variable {image : ElfImage} {ioff : UInt64}

/-- An address has one segment. -/
theorem PlainLoads.unique (h : image.PlainLoads) {s t : Segment} (hs : s ∈ image.segments)
    (ht : t ∈ image.segments) {address : ℕ} (hfirst : s.Covers address)
    (hsecond : t.Covers address) : s = t := by
  have hload : ∀ segment ∈ image.segments, segment.header.type = SegmentType.load :=
    fun segment hmem => by simpa [ProgramHeader.isLoad] using h.loads segment hmem
  exact h.apart.eq_of_covers hs ht (hload s hs) (hload t ht) hfirst hsecond

/-- The search for an address finds its segment. -/
theorem PlainLoads.find?_containsVaddr (h : image.PlainLoads) {segment : Segment}
    (hmem : segment ∈ image.segments) {vaddr : UInt64} (hin : segment.Covers vaddr.toNat) :
    (image.segments.find? fun segment => segment.containsVaddr vaddr) = some segment := by
  cases hfind : image.segments.find? fun segment => segment.containsVaddr vaddr with
  | none =>
      have hnot := List.find?_eq_none.1 hfind segment hmem
      exact absurd ((Segment.containsVaddr_iff_covers (h.representable segment hmem) vaddr).2 hin)
        hnot
  | some found =>
      have hfound := List.mem_of_find?_eq_some hfind
      have hcovers : found.containsVaddr vaddr = true := by simpa using List.find?_some hfind
      rw [h.unique hfound hmem ((Segment.containsVaddr_iff_covers
        (h.representable found hfound) vaddr).1 hcovers) hin]

/-- An address without a segment is not found. -/
theorem PlainLoads.find?_containsVaddr_none (h : image.PlainLoads) {vaddr : UInt64}
    (hout : ∀ segment ∈ image.segments, ¬segment.Covers vaddr.toNat) :
    (image.segments.find? fun segment => segment.containsVaddr vaddr) = none := by
  rw [List.find?_eq_none]
  intro segment hmem hcovers
  exact hout segment hmem ((Segment.containsVaddr_iff_covers
    (h.representable segment hmem) vaddr).1 hcovers)

/-- The address of an image-relative offset, in unbounded arithmetic. -/
def addressOf (image : ElfImage) (ioff : UInt64) : ℕ := image.imageBase.toNat + ioff.toNat

theorem addressOf_eq {vaddr : UInt64} (h : image.vaddrOf ioff = some vaddr) :
    image.addressOf ioff = vaddr.toNat :=
  checkedAdd_eq_some.1 h

/-- The address of an offset is representable if it has a segment. -/
theorem PlainLoads.exists_vaddrOf (h : image.PlainLoads) {segment : Segment}
    (hmem : segment ∈ image.segments) (hin : segment.Covers (image.addressOf ioff)) :
    ∃ vaddr, image.vaddrOf ioff = some vaddr ∧ segment.Covers vaddr.toNat := by
  cases hvaddr : image.vaddrOf ioff with
  | some vaddr => exact ⟨vaddr, rfl, addressOf_eq hvaddr ▸ hin⟩
  | none =>
      have hlarge := checkedAdd_eq_none.1 hvaddr
      have hend : segment.header.vaddr.toNat + segment.header.memsz.toNat < 2 ^ 64 :=
        h.representable segment hmem
      have hlt := hin.2
      rw [addressOf] at hlt
      omega

/-! ## The owned read -/

/-- The read with its allocation is the read as long as the allocation is possible. -/
theorem readAtVaddrExec_eq (image : ElfImage) (vaddr : UInt64) (len : ℕ) :
    image.readAtVaddrExec vaddr len =
      if isizeMax < len ∧
          (image.segments.find? fun segment => segment.containsVaddr vaddr).isSome = true then
        Outcome.fault
      else .ok (image.readAtVaddr vaddr len) := by
  rw [readAtVaddrExec, readAtVaddr]
  cases image.segments.find? fun segment => segment.containsVaddr vaddr with
  | none => simp
  | some segment =>
      rw [allocVec]
      by_cases hlarge : isizeMax < len
      · rw [if_pos hlarge, if_pos ⟨hlarge, rfl⟩]
        rfl
      · rw [if_neg hlarge, if_neg fun h => hlarge h.1]
        simp

/-- A read that is short enough to be allocated returns. -/
theorem readIoffExec_of_le (image : ElfImage) (ioff : UInt64) {len : ℕ} (hlen : len ≤ isizeMax) :
    image.readIoffExec ioff len = .ok (image.readIoff ioff len) := by
  rw [readIoffExec, readIoff]
  cases image.vaddrOf ioff with
  | none => rfl
  | some vaddr =>
      exact (image.readAtVaddrExec_eq vaddr len).trans
        (if_neg fun h => absurd h.1 (Nat.not_lt.2 hlen))

/-- At an offset with a segment the bytes of that segment are read, as long as the
allocation is possible. -/
theorem PlainLoads.readIoffExec_of_covers (h : image.PlainLoads) {segment : Segment}
    (hmem : segment ∈ image.segments) (hin : segment.Covers (image.addressOf ioff))
    (len : ℕ) : image.readIoffExec ioff len =
      if isizeMax < len then Outcome.fault
      else .ok (some (segment.loadedAt (image.imageBase + ioff) len)) := by
  obtain ⟨vaddr, hvaddr, hin⟩ := h.exists_vaddrOf hmem hin
  rw [readIoffExec, hvaddr]
  dsimp only
  rw [readAtVaddrExec_eq, readAtVaddr_eq, h.find?_containsVaddr hmem hin,
    imageBase_add_of_vaddrOf hvaddr]
  simp

/-- At any other offset nothing is read. -/
theorem PlainLoads.readIoffExec_of_outside (h : image.PlainLoads)
    (hout : ∀ segment ∈ image.segments, ¬segment.Covers (image.addressOf ioff)) (len : ℕ) :
    image.readIoffExec ioff len = .ok none := by
  rw [readIoffExec]
  cases hvaddr : image.vaddrOf ioff with
  | none => rfl
  | some vaddr =>
      rw [addressOf_eq hvaddr] at hout
      dsimp only
      rw [readAtVaddrExec_eq, readAtVaddr_eq, h.find?_containsVaddr_none hout]
      simp

/-- What the owned read is to return: the loader's bytes at the offset, up to the end of
the segment in memory, and nothing where there is no segment. -/
def ReadsLikeLoader (image : ElfImage) (ioff : UInt64) (len : ℕ) : Prop :=
  ∃ result, image.readIoffExec ioff len = .ok result ∧
    (result.isSome = true ↔
      ∃ segment ∈ image.segments, segment.Covers (image.addressOf ioff)) ∧
    ∀ bytes, result = some bytes → ∀ segment ∈ image.segments,
      segment.Covers (image.addressOf ioff) →
      bytes.length = min len (segment.header.vaddr.toNat + segment.header.memsz.toNat -
          image.addressOf ioff) ∧
        ∀ k < bytes.length,
          bytes[k]? = some (segment.loadedByte (image.addressOf ioff + k))

/-- The owned read returns what the loader has at the offset exactly when the segment there
has as many addresses as are asked for, and a vector may have as many bytes. -/
theorem readsLikeLoader_iff (h : image.PlainLoads) (len : ℕ) :
    image.ReadsLikeLoader ioff len ↔ ∀ segment ∈ image.segments,
      segment.Covers (image.addressOf ioff) → len ≤ isizeMax ∧
        image.addressOf ioff + len ≤
          segment.header.vaddr.toNat + segment.header.memsz.toNat := by
  by_cases hcovered : ∃ segment ∈ image.segments, segment.Covers (image.addressOf ioff)
  · obtain ⟨segment, hmem, hin⟩ := hcovered
    obtain ⟨vaddr, hvaddr, -⟩ := h.exists_vaddrOf hmem hin
    have haddress : (image.imageBase + ioff).toNat = image.addressOf ioff := by
      rw [imageBase_add_of_vaddrOf hvaddr, addressOf_eq hvaddr]
    have hread := h.readIoffExec_of_covers hmem hin len
    constructor
    · rintro ⟨result, hresult, -, hbytes⟩ other hother hin'
      obtain rfl := h.unique hother hmem hin' hin
      rw [hread] at hresult
      split_ifs at hresult with hlarge
      · cases hresult
      · cases hresult
        obtain ⟨hlen, -⟩ := hbytes _ rfl other hmem hin
        rw [Segment.length_loadedAt] at hlen
        have hlt := hin.2
        omega
    · intro hfits
      obtain ⟨hsmall, hend⟩ := hfits segment hmem hin
      rw [if_neg (Nat.not_lt.2 hsmall)] at hread
      refine ⟨_, hread, iff_of_true rfl ⟨segment, hmem, hin⟩, ?_⟩
      rintro bytes hbytes other hother hin'
      cases hbytes
      obtain rfl := h.unique hother hmem hin' hin
      rw [Segment.length_loadedAt]
      refine ⟨by omega, fun k hk => ?_⟩
      rw [Segment.getElem?_loadedAt hk (haddress ▸ hin.1), haddress]
  · have hout := fun segment hmem hin => hcovered ⟨segment, hmem, hin⟩
    refine iff_of_true ⟨none, h.readIoffExec_of_outside hout len,
      iff_of_false (by simp) hcovered, fun _ hbytes => nomatch hbytes⟩ ?_
    exact fun segment hmem hin => absurd hin (hout segment hmem)

end ElfImage

theorem smallFile_plainLoads : (imageOf smallFile).PlainLoads where
  loads := by decide +kernel
  apart := by decide +kernel
  sizes := by decide +kernel
  representable := by decide +kernel

/-- The two bytes of the code are all that is asked for. -/
theorem smallFile_readsLikeLoader : (imageOf smallFile).ReadsLikeLoader 0 2 :=
  (ElfImage.readsLikeLoader_iff smallFile_plainLoads 2).2 (by
    have hfits : ∀ segment ∈ (imageOf smallFile).segments, 2 ≤ isizeMax ∧
        (imageOf smallFile).addressOf 0 + 2 ≤
          segment.header.vaddr.toNat + segment.header.memsz.toNat := by decide +kernel
    exact fun segment hmem _ => hfits segment hmem)

/-- A third byte is read behind the end of the segment. -/
theorem smallFile_reads_past : ∃ image, ElfImage.parse smallFile = .ok image ∧
    image.PlainLoads ∧ image.readIoffExec 0 3 = .ok (some [0x90, 0xc3, 0]) ∧
    ¬image.ReadsLikeLoader 0 3 := by
  have hread : (imageOf smallFile).readIoffExec 0 3 = .ok (some [0x90, 0xc3, 0]) := by
    decide +kernel
  refine ⟨imageOf smallFile, (parse_eq_ok smallFile_length).2 ⟨smallFile_accepted, rfl⟩,
    smallFile_plainLoads, hread, ?_⟩
  rintro ⟨result, hresult, hcovered, hbytes⟩
  obtain rfl := Except.ok.inj (hread.symm.trans hresult)
  obtain ⟨segment, hmem, hin⟩ := hcovered.1 rfl
  obtain ⟨hlen, -⟩ := hbytes _ rfl segment hmem hin
  have hend : ∀ segment ∈ (imageOf smallFile).segments,
      segment.header.vaddr.toNat + segment.header.memsz.toNat =
        (imageOf smallFile).addressOf 0 + 2 := by decide +kernel
  have hlength : [(0x90 : UInt8), 0xc3, 0].length = 3 := rfl
  rw [hend segment hmem] at hlen
  omega

/-! ## The borrowed read and the file offset -/

namespace Segment

/-- The address is that of a byte the file holds for the segment. -/
def FileBacked (segment : Segment) (address : ℕ) : Prop :=
  segment.header.vaddr.toNat ≤ address ∧
    address < segment.header.vaddr.toNat + segment.header.filesz.toNat

theorem FileBacked.covers {segment : Segment} {address : ℕ}
    (hsize : segment.header.filesz ≤ segment.header.memsz)
    (h : segment.FileBacked address) : segment.Covers address :=
  ⟨h.1, h.2.trans_le (Nat.add_le_add_left (UInt64.le_iff_toNat_le.1 hsize) _)⟩

/-- The bytes of the segment are those of its file range, which lies in the file. -/
structure SliceOf (data : List UInt8) (segment : Segment) : Prop where
  eq : segment.data = window data segment.header.offset.toNat segment.header.filesz.toNat
  inside : 0 < segment.header.filesz.toNat →
    segment.header.offset.toNat + segment.header.filesz.toNat ≤ data.length

theorem SliceOf.length {data : List UInt8} {segment : Segment} (h : segment.SliceOf data) :
    segment.data.length = segment.header.filesz.toNat := by
  rw [h.eq]
  rcases Nat.eq_zero_or_pos segment.header.filesz.toNat with hzero | hpos
  · rw [hzero, window_zero_right, List.length_nil]
  · exact length_window_of_le (h.inside hpos)

/-- The borrowed bytes at an address that is covered. -/
theorem dataAtVaddr_of_covers {segment : Segment} {vaddr : UInt64}
    (h : segment.containsVaddr vaddr = true) (len : ℕ) :
    segment.dataAtVaddr vaddr len =
      if segment.data.length < vaddr.toNat - segment.header.vaddr.toNat then none
      else some (window segment.data (vaddr.toNat - segment.header.vaddr.toNat)
        (min len (segment.data.length - (vaddr.toNat - segment.header.vaddr.toNat)))) := by
  have hle := ((segment.containsVaddr_iff vaddr).1 h).1
  have hstart : (vaddr - segment.header.vaddr).toNat =
      vaddr.toNat - segment.header.vaddr.toNat :=
    UInt64.toNat_sub_of_le _ _ (UInt64.le_iff_toNat_le.2 hle)
  rw [dataAtVaddr, if_pos h]
  simp only [hstart, List.length_drop]
  rfl

end Segment

namespace ElfImage

variable {image : ElfImage} {ioff : UInt64}

/-- The segments of a parsed image of loads are slices of the file. -/
theorem PlainLoads.sliceOf {data : List UInt8} (hdata : data.length ≤ isizeMax)
    (hparse : ElfImage.parse data = .ok image) (h : image.PlainLoads) {segment : Segment}
    (hmem : segment ∈ image.segments) : segment.SliceOf data := by
  obtain ⟨hgrammar, rfl⟩ := (parse_eq_ok hdata).1 hparse
  have hload := h.loads segment hmem
  obtain ⟨header, hheader, rfl⟩ := List.mem_map.1 hmem
  have hnull : header.type ≠ SegmentType.null := by
    intro hnull
    rw [segmentOf, ProgramHeader.isLoad, hnull] at hload
    exact absurd hload (by decide)
  exact ⟨if_neg hnull, fun hpos => (hgrammar.segments header hheader hnull hpos).2⟩

/-- The search of the translation is for a segment the file holds the byte for. -/
theorem PlainLoads.translates_iff (h : image.PlainLoads) {segment : Segment}
    (hmem : segment ∈ image.segments) (vaddr : UInt64) :
    (segment.header.isLoad && decide (segment.header.vaddr ≤ vaddr) &&
        decide (vaddr < saturatingAdd segment.header.vaddr segment.header.filesz)) = true ↔
      segment.FileBacked vaddr.toNat := by
  have hsize := UInt64.le_iff_toNat_le.1 (h.sizes segment hmem)
  have hend : segment.header.vaddr.toNat + segment.header.memsz.toNat < 2 ^ 64 :=
    h.representable segment hmem
  rw [h.loads segment hmem, Bool.true_and, Bool.and_eq_true, decide_eq_true_eq,
    decide_eq_true_eq, UInt64.le_iff_toNat_le, UInt64.lt_iff_toNat_lt, toNat_saturatingAdd,
    Nat.min_eq_left (by omega), Segment.FileBacked]

/-- At an offset with a byte in the file, the translation is the position of that byte. -/
theorem PlainLoads.ioffToOffset_of_fileBacked (h : image.PlainLoads) {segment : Segment}
    (hmem : segment ∈ image.segments) (hin : segment.FileBacked (image.addressOf ioff))
    (hend : segment.header.offset.toNat + segment.header.filesz.toNat < 2 ^ 64) :
    ∃ offset, image.ioffToOffset ioff = some offset ∧ offset.toNat =
      segment.header.offset.toNat + (image.addressOf ioff - segment.header.vaddr.toNat) := by
  obtain ⟨vaddr, hvaddr, -⟩ := h.exists_vaddrOf hmem (hin.covers (h.sizes segment hmem))
  rw [addressOf_eq hvaddr] at hin ⊢
  have hdelta : (vaddr - segment.header.vaddr).toNat =
      vaddr.toNat - segment.header.vaddr.toNat :=
    UInt64.toNat_sub_of_le _ _ (UInt64.le_iff_toNat_le.2 hin.1)
  have hfind : (image.segments.find? fun segment =>
      segment.header.isLoad && decide (segment.header.vaddr ≤ vaddr) &&
        decide (vaddr < saturatingAdd segment.header.vaddr segment.header.filesz)) =
      some segment := by
    cases hfind : image.segments.find? fun segment =>
        segment.header.isLoad && decide (segment.header.vaddr ≤ vaddr) &&
          decide (vaddr < saturatingAdd segment.header.vaddr segment.header.filesz) with
    | none =>
        have hnot := List.find?_eq_none.1 hfind segment hmem
        exact absurd ((h.translates_iff hmem vaddr).2 hin) hnot
    | some found =>
        have hfound := List.mem_of_find?_eq_some hfind
        have htrue := List.find?_some hfind
        have hbacked := (h.translates_iff hfound vaddr).1 htrue
        rw [h.unique hfound hmem (hbacked.covers (h.sizes found hfound))
          (hin.covers (h.sizes segment hmem))]
  have hlt := hin.2
  refine ⟨segment.header.offset + (vaddr - segment.header.vaddr), ?_, ?_⟩
  · rw [ioffToOffset, hvaddr, Option.bind_eq_bind, Option.bind_some, hfind, Option.bind_eq_bind,
      Option.bind_some, checkedAdd_eq_some, toNat_add_of_lt (by omega), hdelta]
  · rw [toNat_add_of_lt (by omega), hdelta]

/-- At any other offset there is no translation. -/
theorem PlainLoads.ioffToOffset_of_not_fileBacked (h : image.PlainLoads)
    (hout : ∀ segment ∈ image.segments, ¬segment.FileBacked (image.addressOf ioff)) :
    image.ioffToOffset ioff = none := by
  rw [ioffToOffset]
  cases hvaddr : image.vaddrOf ioff with
  | none => rfl
  | some vaddr =>
      rw [addressOf_eq hvaddr] at hout
      rw [Option.bind_eq_bind, Option.bind_some, List.find?_eq_none.2 fun segment hmem htrue =>
        hout segment hmem ((h.translates_iff hmem vaddr).1 htrue)]
      rfl

/-- At an offset with a segment the file bytes of that segment are borrowed, if the offset
is not behind them. -/
theorem PlainLoads.readAtIoff_of_covers (h : image.PlainLoads) {segment : Segment}
    (hmem : segment ∈ image.segments) (hin : segment.Covers (image.addressOf ioff))
    (len : ℕ) : image.readAtIoff ioff len =
      if segment.data.length < image.addressOf ioff - segment.header.vaddr.toNat then none
      else some (window segment.data (image.addressOf ioff - segment.header.vaddr.toNat)
        (min len (segment.data.length -
          (image.addressOf ioff - segment.header.vaddr.toNat)))) := by
  obtain ⟨vaddr, hvaddr, hin⟩ := h.exists_vaddrOf hmem hin
  have hcovers :=
    (Segment.containsVaddr_iff_covers (h.representable segment hmem) vaddr).2 hin
  have hsegment : image.segmentByIoff ioff = some segment := by
    rw [segmentByIoff, hvaddr, Option.bind_eq_bind, Option.bind_some,
      h.find?_containsVaddr hmem hin]
  rw [readAtIoff, hsegment, Option.bind_eq_bind, Option.bind_some,
    imageBase_add_of_vaddrOf hvaddr, addressOf_eq hvaddr]
  exact Segment.dataAtVaddr_of_covers hcovers len

/-- At any other offset nothing is borrowed. -/
theorem PlainLoads.readAtIoff_of_outside (h : image.PlainLoads)
    (hout : ∀ segment ∈ image.segments, ¬segment.Covers (image.addressOf ioff)) (len : ℕ) :
    image.readAtIoff ioff len = none := by
  have hsegment : image.segmentByIoff ioff = none := by
    rw [segmentByIoff]
    cases hvaddr : image.vaddrOf ioff with
    | none => rfl
    | some vaddr =>
        rw [addressOf_eq hvaddr] at hout
        rw [Option.bind_eq_bind, Option.bind_some, h.find?_containsVaddr_none hout]
  rw [readAtIoff, hsegment]
  rfl

/-- The borrowed read and the translation exist together, and the read is what the file
has at the translated offset, up to the end of the segment's file bytes. -/
structure TranslationAgrees (data : List UInt8) (image : ElfImage) (ioff : UInt64)
    (len : ℕ) : Prop where
  together : (image.readAtIoff ioff len).isSome = true ↔ (image.ioffToOffset ioff).isSome = true
  slice : ∀ offset, image.ioffToOffset ioff = some offset → offset.toNat < data.length ∧
    ∃ segment ∈ image.segments, segment.FileBacked (image.addressOf ioff) ∧
      ∃ n, n = min len (segment.header.vaddr.toNat + segment.header.filesz.toNat -
          image.addressOf ioff) ∧ 0 < n ∧ offset.toNat + n ≤ data.length ∧
        image.readAtIoff ioff len = some (window data offset.toNat n)

/-- The offset is that of the first address behind the file bytes of a segment that goes on
in memory. -/
def AtZeroTail (image : ElfImage) (ioff : UInt64) : Prop :=
  ∃ segment ∈ image.segments, segment.header.filesz < segment.header.memsz ∧
    image.addressOf ioff = segment.header.vaddr.toNat + segment.header.filesz.toNat

theorem translationAgrees_of_none {data : List UInt8} {len : ℕ}
    (hread : image.readAtIoff ioff len = none) (htranslated : image.ioffToOffset ioff = none) :
    TranslationAgrees data image ioff len := by
  refine ⟨by simp [hread, htranslated], fun offset hoffset => ?_⟩
  rw [htranslated] at hoffset
  cases hoffset

/-- Where the file holds a byte of a segment, the borrowed read and the translation
agree. -/
theorem PlainLoads.translationAgrees_of_fileBacked {data : List UInt8}
    (hdata : data.length ≤ isizeMax) (hparse : ElfImage.parse data = .ok image)
    (h : image.PlainLoads) {segment : Segment} (hmem : segment ∈ image.segments)
    (hbacked : segment.FileBacked (image.addressOf ioff)) {len : ℕ} (hlen : 1 ≤ len) :
    TranslationAgrees data image ioff len := by
  have hmax : isizeMax < 2 ^ 64 := by decide
  have hslice := h.sliceOf hdata hparse hmem
  have hread := h.readAtIoff_of_covers hmem (hbacked.covers (h.sizes segment hmem)) len
  obtain ⟨hstart, hstop⟩ := hbacked
  have hinside := hslice.inside (by omega)
  obtain ⟨offset, htranslated, hoffset⟩ :=
    h.ioffToOffset_of_fileBacked hmem ⟨hstart, hstop⟩ (by omega)
  rw [hslice.length, if_neg (by omega), hslice.eq, window_window data (by omega),
    ← hoffset] at hread
  refine ⟨by rw [hread, htranslated]; rfl, fun other hother => ?_⟩
  obtain rfl := Option.some.inj (htranslated.symm.trans hother)
  refine ⟨by omega, segment, hmem, ⟨hstart, hstop⟩, _, rfl, by omega, by omega, ?_⟩
  rw [hread]
  congr 3
  omega

/-- An address of a segment is the first one behind its file bytes or not. -/
theorem PlainLoads.atZeroTail_iff (h : image.PlainLoads) {segment : Segment}
    (hmem : segment ∈ image.segments) (hin : segment.Covers (image.addressOf ioff)) :
    image.AtZeroTail ioff ↔ image.addressOf ioff =
      segment.header.vaddr.toNat + segment.header.filesz.toNat := by
  constructor
  · rintro ⟨other, hother, hgoes, heq⟩
    rw [UInt64.lt_iff_toNat_lt] at hgoes
    obtain rfl := h.unique hother hmem ⟨by omega, by omega⟩ hin
    exact heq
  · intro heq
    have hlt := hin.2
    exact ⟨segment, hmem, UInt64.lt_iff_toNat_lt.2 (by omega), heq⟩

/-- The borrowed read and the translation agree at every offset that is not the first one
behind the file bytes of a segment. -/
theorem translationAgrees_iff {data : List UInt8} (hdata : data.length ≤ isizeMax)
    (hparse : ElfImage.parse data = .ok image) (h : image.PlainLoads) {len : ℕ}
    (hlen : 1 ≤ len) : TranslationAgrees data image ioff len ↔ ¬image.AtZeroTail ioff := by
  by_cases hcovered : ∃ segment ∈ image.segments, segment.Covers (image.addressOf ioff)
  · obtain ⟨segment, hmem, hin⟩ := hcovered
    have hread := h.readAtIoff_of_covers hmem hin len
    rw [(h.sliceOf hdata hparse hmem).length] at hread
    rw [h.atZeroTail_iff hmem hin]
    have hstart := hin.1
    by_cases hbacked : image.addressOf ioff <
        segment.header.vaddr.toNat + segment.header.filesz.toNat
    · exact iff_of_true
        (h.translationAgrees_of_fileBacked hdata hparse hmem ⟨hstart, hbacked⟩ hlen) (by omega)
    have htranslated : image.ioffToOffset ioff = none :=
      h.ioffToOffset_of_not_fileBacked fun other hother hother' => by
        obtain rfl := h.unique hother hmem (hother'.covers (h.sizes other hother)) hin
        exact hbacked hother'.2
    by_cases htail : image.addressOf ioff =
        segment.header.vaddr.toNat + segment.header.filesz.toNat
    · -- an empty slice is borrowed
      rw [if_neg (by omega)] at hread
      refine iff_of_false (fun hagrees => ?_) (not_not.2 htail)
      have htogether := hagrees.together
      rw [hread, htranslated] at htogether
      exact absurd (htogether.1 rfl) (by decide)
    · rw [if_pos (by omega)] at hread
      exact iff_of_true (translationAgrees_of_none hread htranslated) htail
  · have hout := fun segment hmem hin => hcovered ⟨segment, hmem, hin⟩
    have htranslated : image.ioffToOffset ioff = none :=
      h.ioffToOffset_of_not_fileBacked fun other hother hother' =>
        hout other hother (hother'.covers (h.sizes other hother))
    refine iff_of_true
      (translationAgrees_of_none (h.readAtIoff_of_outside hout len) htranslated) ?_
    rintro ⟨segment, hmem, hgoes, heq⟩
    rw [UInt64.lt_iff_toNat_lt] at hgoes
    exact hout segment hmem ⟨by omega, by omega⟩

end ElfImage

/-- A load of two bytes in the file and four in memory. -/
def tailFile : List UInt8 :=
  { smallHeader with shoff := 0, shnum := 0, shstrndx := 0 }.write ++
    { smallLoad with memsz := 4 }.write .little .elf64 ++ [0x90, 0xc3]

theorem tailFile_parsed : ∃ image, ElfImage.parse tailFile = .ok image ∧
    image.PlainLoads ∧ image = imageOf tailFile := by
  have himage : ElfImage.parse tailFile = .ok (imageOf tailFile) :=
    parse_imageOf (by decide +kernel) (by decide +kernel)
  exact ⟨_, himage, ⟨by decide +kernel, by decide +kernel, by decide +kernel,
    by decide +kernel⟩, rfl⟩

/-- At the second byte of the file the two agree. -/
theorem tailFile_agrees : ElfImage.TranslationAgrees tailFile (imageOf tailFile) 1 3 := by
  obtain ⟨image, himage, hplain, rfl⟩ := tailFile_parsed
  refine (ElfImage.translationAgrees_iff (by decide +kernel) himage hplain (by decide)).2 ?_
  rintro ⟨segment, hmem, -, heq⟩
  have hother : ∀ segment ∈ (imageOf tailFile).segments, (imageOf tailFile).addressOf 1 ≠
      segment.header.vaddr.toNat + segment.header.filesz.toNat := by decide +kernel
  exact hother segment hmem heq

/-- Behind it, no bytes are borrowed at an offset that is not translated. -/
theorem tailFile_disagrees : ∃ image, ElfImage.parse tailFile = .ok image ∧
    image.PlainLoads ∧ image.readAtIoff 2 1 = some [] ∧ image.ioffToOffset 2 = none ∧
    ¬ElfImage.TranslationAgrees tailFile image 2 1 := by
  obtain ⟨image, himage, hplain, rfl⟩ := tailFile_parsed
  have hread : (imageOf tailFile).readAtIoff 2 1 = some [] := by decide +kernel
  have htranslated : (imageOf tailFile).ioffToOffset 2 = none := by decide +kernel
  refine ⟨_, himage, hplain, hread, htranslated, fun hagrees => ?_⟩
  have htogether := hagrees.together
  rw [hread, htranslated] at htogether
  exact absurd (htogether.1 rfl) (by decide)

end Elfex
