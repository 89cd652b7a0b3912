import Elfex.Foundation.Moved
import Elfex.Image.PointerWidth
import Elfex.Image.Remapped

/-!
# Mapping a placed image again

An image mapped at a base, parsed from the mapped bytes and mapped at the same base again
is shifted a second time, by its distance from the preferred base: the base it was placed
at is recorded and not used. The bytes stay as they are when what the readable relocation
tables add to each of them is nothing modulo 256.
-/

namespace Elfex

open Foundation

namespace ElfImage

variable {image image' : ElfImage} {base : UInt64} {placed : List UInt8}

/-- What adding the base change to the relative slots of a string, one after the other, adds
to a byte. -/
def addedAt (image : ElfImage) (base : UInt64) (bytes : List UInt8) (a : ℕ) : ℕ :=
  Slot.totalAt image.ident.data.byteOrder image.ident.data.rank (base - image.imageBase).toNat
    bytes image.relativeSlots a

/-- What an image that is read from a string keeps of it: its headers, the string where a
load has memory, and zeros elsewhere. -/
def keptOf (image : ElfImage) (bytes : List UInt8) : List UInt8 :=
  bytes.mapIdx fun a byte =>
    if a < image.headerArea then image.mappedHeaders.getD a 0
    else if image.LoadsCover (image.imageBase.toNat + a) then byte else 0

/-- An image read from placed bytes is placed there again as it is: nothing modulo 256 is
added to the memory of its loads, and what is added makes up for the headers and the zeros
elsewhere. -/
structure StaysPlaced (image : ElfImage) (placed : List UInt8) (base : UInt64) : Prop where
  mappable : image.Mappable
  relocatable : base ≠ image.imageBase → image.Relocatable
  length : placed.length = image.imageSpan.toNat
  headers : ∀ a < placed.length, a < image.headerArea → placed[a]? =
    image.mappedHeaders[a]?.map (· + UInt8.ofNat (image.addedAt base (image.keptOf placed) a))
  loads : ∀ a < placed.length, image.headerArea ≤ a →
    image.LoadsCover (image.imageBase.toNat + a) → 256 ∣ image.addedAt base (image.keptOf placed) a
  gaps : ∀ a < placed.length, image.headerArea ≤ a →
    ¬image.LoadsCover (image.imageBase.toNat + a) →
      placed[a]? = some (UInt8.ofNat (image.addedAt base (image.keptOf placed) a))

/-- No word of a relative relocation reaches into the headers. -/
def HeadersKept (image : ElfImage) : Prop :=
  ∀ slot ∈ image.relativeSlots, ∀ a, slot.Holds a → image.headerArea ≤ a

/-- The words of the relative relocations lie beyond the headers, in the memory of
loadable segments. -/
def SlotsInLoads (image : ElfImage) : Prop :=
  ∀ slot ∈ image.relativeSlots, ∀ a, slot.Holds a →
    image.headerArea ≤ a ∧ image.LoadsCover (image.imageBase.toNat + a)

theorem SlotsInLoads.headersKept (h : image.SlotsInLoads) : image.HeadersKept :=
  fun slot hslot a ha => (h slot hslot a ha).1

theorem length_placed_image (hplaced : image.toMappedImageAt base = .ok placed) :
    placed.length = image.imageSpan.toNat := by
  obtain ⟨-, -, rfl⟩ := toMappedImageAt_eq_ok_iff.1 hplaced
  rw [Slot.length_shiftAll _ (relativeSlots_inside (length_mappedAtBase image)),
    length_mappedAtBase]

/-- A byte outside the slots is the one mapped at the preferred base. -/
theorem getElem?_placed (hplaced : image.toMappedImageAt base = .ok placed) {a : ℕ}
    (ha : ∀ slot ∈ image.relativeSlots, ¬slot.Holds a) :
    placed[a]? = image.mappedAtBase[a]? := by
  obtain ⟨-, -, rfl⟩ := toMappedImageAt_eq_ok_iff.1 hplaced
  have hinside := relativeSlots_inside (length_mappedAtBase image)
  exact Slot.getElem?_shiftAll_of_not_holds _ hinside ha

/-! ## Byte by byte -/

theorem getElem?_keptOf (hident : image.header.ident = image.ident) {bytes : List UInt8} {a : ℕ}
    (ha : a < bytes.length) : (image.keptOf bytes)[a]? =
      if a < image.headerArea then image.mappedHeaders[a]?
      else some (if image.LoadsCover (image.imageBase.toNat + a) then bytes.getD a 0 else 0) := by
  rw [keptOf, List.getElem?_mapIdx, List.getElem?_eq_getElem ha, Option.map_some,
    List.getD_eq_getElem?_getD, List.getD_eq_getElem?_getD, List.getElem?_eq_getElem ha,
    Option.getD_some]
  split
  · rename_i harea
    rw [← length_mappedHeaders image hident] at harea
    rw [List.getElem?_eq_getElem harea, Option.getD_some]
  · rfl

/-- When a byte of the string is again what it was. -/
theorem getElem?_again_iff (hident : image.header.ident = image.ident) {a : ℕ}
    (ha : a < placed.length) (n : ℕ) :
    placed[a]? = (image.keptOf placed)[a]?.map (· + UInt8.ofNat n) ↔
      if a < image.headerArea then placed[a]? = image.mappedHeaders[a]?.map (· + UInt8.ofNat n)
      else if image.LoadsCover (image.imageBase.toNat + a) then 256 ∣ n
      else placed[a]? = some (UInt8.ofNat n) := by
  rw [getElem?_keptOf hident ha]
  split
  · exact Iff.rfl
  · split
    · rw [List.getD_eq_getElem?_getD, List.getElem?_eq_getElem ha, Option.getD_some,
        Option.map_some, Option.some_inj, eq_comm, add_ofNat_eq_self_iff]
    · rw [Option.map_some, UInt8.zero_add]

section ReadAgain

variable (hlen : placed.length < 2 ^ 64)
  (hread : { mappedImageOf placed with runtimeBase := base } = image')

include hread in
theorem header_ident_read : image'.header.ident = image'.ident := by
  subst hread
  exact headerOf_ident placed

include hlen hread

/-- An image read from a string as long as its memory is mapped to what it keeps of it. -/
theorem mappedAtBase_eq_keptOf (hlength : placed.length = image'.imageSpan.toNat) :
    image'.mappedAtBase = image'.keptOf placed := by
  apply List.ext_getElem?
  intro a
  by_cases ha : a < placed.length
  · rw [getElem?_keptOf (header_ident_read hread) ha]
    -- the runtime base is not read by the mapping
    subst hread
    exact getElem?_mappedAtBase_mappedImageOf hlen (hlength ▸ ha)
  · rw [keptOf, List.getElem?_mapIdx, List.getElem?_eq_none (Nat.le_of_not_lt ha),
      List.getElem?_eq_none (by rw [length_mappedAtBase, ← hlength]; exact Nat.le_of_not_lt ha)]
    rfl

/-- The image read from placed bytes is mapped to them again exactly when it stays placed. -/
theorem toMappedImageAt_read_iff :
    image'.toMappedImageAt base = .ok placed ↔ image'.StaysPlaced placed base := by
  have hinside := relativeSlots_inside (length_mappedAtBase image')
  have hident := header_ident_read hread
  rw [toMappedImageAt_eq_ok_iff, Slot.shiftAll_eq_iff image'.ident.data.ranks hinside,
    length_mappedAtBase]
  constructor
  · rintro ⟨hmappable, hrelocatable, hlength, hbytes⟩
    rw [mappedAtBase_eq_keptOf hlen hread hlength] at hbytes
    have hbyte := fun a (ha : a < placed.length) =>
      (getElem?_again_iff hident ha _).1 (hbytes a (hlength ▸ ha))
    refine ⟨hmappable, hrelocatable, hlength, fun a ha harea => ?_, fun a ha harea hcover => ?_,
      fun a ha harea hfree => ?_⟩
    · have h := hbyte a ha
      rwa [if_pos harea] at h
    · have h := hbyte a ha
      rwa [if_neg (Nat.not_lt.2 harea), if_pos hcover] at h
    · have h := hbyte a ha
      rwa [if_neg (Nat.not_lt.2 harea), if_neg hfree] at h
  · rintro ⟨hmappable, hrelocatable, hlength, hheaders, hloads, hgaps⟩
    rw [mappedAtBase_eq_keptOf hlen hread hlength]
    refine ⟨hmappable, hrelocatable, hlength, fun a hspan => ?_⟩
    have ha : a < placed.length := hlength ▸ hspan
    refine (getElem?_again_iff hident ha _).2 ?_
    split
    · rename_i harea
      exact hheaders a ha harea
    · rename_i harea
      split
      · rename_i hcover
        exact hloads a ha (Nat.le_of_not_lt harea) hcover
      · rename_i hfree
        exact hgaps a ha (Nat.le_of_not_lt harea) hfree

end ReadAgain

/-! ## Relocations beyond the headers -/

section Placed

variable (hplaced : image.toMappedImageAt base = .ok placed) (hregular : image.Regular)

include hplaced hregular

theorem headsWith_placed (hkept : image.HeadersKept) : image.HeadsWith placed := by
  intro a ha harea
  rw [getElem?_placed hplaced fun slot hslot hholds => ?_]
  · rw [length_placed_image hplaced, ← length_mappedAtBase] at ha
    exact headsWith_mappedAtBase hregular.ident a ha harea
  · exact absurd (hkept slot hslot a hholds) (Nat.not_le.2 harea)

/-- A placed image shows its own bytes under its headers and loads. -/
theorem mappedAtBase_placed (hslots : image.SlotsInLoads)
    (hcount : image.segments.length < 2 ^ 16)
    (hsizes : ∀ segment ∈ image.segments, segment.header.type = SegmentType.load →
      segment.data.length ≤ segment.header.memsz.toNat)
    (hin : HeadersInside placed) : (mappedImageOf placed).mappedAtBase = placed := by
  apply (headsWith_placed hplaced hregular hslots.headersKept).mappedAtBase_eq hregular hin hcount
    (length_placed_image hplaced)
  intro a ha harea hfree
  rw [getElem?_placed hplaced fun slot hslot hholds => hfree (hslots slot hslot a hholds).2]
  rw [length_placed_image hplaced] at ha
  exact mappedAtBase_uncovered hsizes hregular.ident ha harea hfree

variable (hcount : image.segments.length < 2 ^ 16) (hin : HeadersInside placed)

include hcount hin

variable (hread : { mappedImageOf placed with runtimeBase := base } = image')

include hread

/-- An image read from placed bytes whose headers are kept has the headers again. -/
theorem headers_read (hkept : image.HeadersKept) :
    image'.segments.map Segment.header = image.segments.map Segment.header ∧
      image'.headerArea = image.headerArea ∧ image'.mappedHeaders = image.mappedHeaders := by
  have hd := headsWith_placed hplaced hregular hkept
  have hheaders := (headers_mappedImageOf placed).trans
    (hd.programHeadersOf_eq hregular hin hcount)
  have harea : (mappedImageOf placed).headerArea = image.headerArea := by
    rw [headerArea, headerArea, show (mappedImageOf placed).ident = image.ident from
      hd.identOf_eq hregular hin, ← List.length_map Segment.header, hheaders, List.length_map]
  subst hread
  exact ⟨hheaders, harea, hd.mappedHeaders_eq hregular hin hcount⟩

/-- With the headers kept, they and the loads must stay as they are, and what is added
elsewhere makes up for the zeros there. -/
theorem staysPlaced_iff_of_headersKept (hkept : image.HeadersKept) :
    image'.StaysPlaced placed base ↔
      (base ≠ image.imageBase → image'.Relocatable) ∧
      (∀ a < placed.length,
        a < image.headerArea ∨ image.LoadsCover (image.imageBase.toNat + a) →
          256 ∣ image'.addedAt base (image'.keptOf placed) a) ∧
      ∀ a < placed.length, image.headerArea ≤ a →
        ¬image.LoadsCover (image.imageBase.toNat + a) →
          placed[a]? = some (UInt8.ofNat (image'.addedAt base (image'.keptOf placed) a)) := by
  obtain ⟨hheaders, harea, hmappedHeaders⟩ :=
    headers_read hplaced hregular hcount hin hread hkept
  have hmappable := (mappable_congr hheaders).2 (toMappedImageAt_eq_ok_iff.1 hplaced).1
  have hbase := imageBase_congr hheaders
  have hcover := loadsCover_congr hheaders
  have hlength : placed.length = image'.imageSpan.toNat := by
    rw [length_placed_image hplaced, imageSpan_congr hheaders]
  have hheaderBytes : ∀ a < placed.length, a < image.headerArea → ∀ n : ℕ,
      (placed[a]? = image'.mappedHeaders[a]?.map (· + UInt8.ofNat n) ↔ 256 ∣ n) := by
    intro a ha hlt n
    rw [hmappedHeaders, ← headsWith_placed hplaced hregular hkept a ha hlt,
      List.getElem?_eq_getElem ha, Option.map_some, Option.some_inj, eq_comm,
      add_ofNat_eq_self_iff]
  constructor
  · intro h
    refine ⟨hbase ▸ h.relocatable, fun a ha hkind => ?_, fun a ha hle hfree => ?_⟩
    · by_cases hlt : a < image.headerArea
      · exact (hheaderBytes a ha hlt _).1 (h.headers a ha (harea ▸ hlt))
      · refine h.loads a ha (harea ▸ Nat.le_of_not_lt hlt) ?_
        rw [hbase, hcover]
        exact hkind.resolve_left hlt
    · refine h.gaps a ha (harea ▸ hle) ?_
      rwa [hbase, hcover]
  · rintro ⟨hrelocatable, hkind, hgaps⟩
    refine ⟨hmappable, hbase ▸ hrelocatable, hlength, fun a ha hlt => ?_,
      fun a ha hle hcovers => ?_, fun a ha hle hfree => ?_⟩
    · rw [harea] at hlt
      exact (hheaderBytes a ha hlt _).2 (hkind a ha (Or.inl hlt))
    · rw [hbase, hcover] at hcovers
      exact hkind a ha (Or.inr hcovers)
    · rw [hbase, hcover] at hfree
      exact hgaps a ha (harea ▸ hle) hfree

/-- With the relocations in the memory of loads the placed bytes themselves must stay. -/
theorem toMappedImageAt_read_iff_of_slotsInLoads (hslots : image.SlotsInLoads)
    (hsizes : ∀ segment ∈ image.segments, segment.header.type = SegmentType.load →
      segment.data.length ≤ segment.header.memsz.toNat) :
    image'.imageBase = image.imageBase ∧ placed.length = image'.imageSpan.toNat ∧
      (image'.toMappedImageAt base = .ok placed ↔
        base = image.imageBase ∨ image'.Relocatable ∧
          Slot.shiftAll image'.ident.data.byteOrder (base - image.imageBase).toNat placed
            image'.relativeSlots = placed) := by
  obtain ⟨hheaders, -, -⟩ := headers_read hplaced hregular hcount hin hread hslots.headersKept
  have hmappable := (mappable_congr hheaders).2 (toMappedImageAt_eq_ok_iff.1 hplaced).1
  have hbase := imageBase_congr hheaders
  have hlength : placed.length = image'.imageSpan.toNat := by
    rw [length_placed_image hplaced, imageSpan_congr hheaders]
  have hbytes : image'.mappedAtBase = placed := by
    rw [← hread]
    exact mappedAtBase_placed hplaced hregular hslots hcount hsizes hin
  refine ⟨hbase, hlength, ?_⟩
  rw [toMappedImageAt_eq_ok_iff, and_iff_right hmappable, hbytes, hbase]
  by_cases hsame : base = image.imageBase
  · refine iff_of_true ⟨fun hne => absurd hsame hne, ?_⟩ (Or.inl hsame)
    refine Slot.shiftAll_eq_self_of_dvd _ (relativeSlots_inside hlength) fun slot _ => ?_
    rw [hsame, UInt64.sub_self, UInt64.toNat_zero]
    exact Nat.dvd_zero _
  · rw [or_iff_right hsame, forall_prop_of_true hsame]

end Placed

/-- Mapping a placed image again at its base gives the same bytes exactly when it stays
placed: what the readable relocations add to the bytes of its loads is nothing modulo 256,
and makes up for its headers and the zeros elsewhere. Where no relocation of the image
reaches its headers these must stay too; where the relocations lie in the memory of loads,
all bytes must; and words that are apart or equal stay when their widths divide the base
change as often as they are listed. -/
theorem toMappedImageAt_again_iff {data : List UInt8} (hdata : data.length ≤ isizeMax)
    (hparse : parse data = .ok image)
    (hsizes : ∀ segment ∈ image.segments, segment.header.type = SegmentType.load →
      segment.header.filesz ≤ segment.header.memsz)
    (hplaced : image.toMappedImageAt base = .ok placed)
    (hparse' : parseMappedAt placed base = .ok image') :
    (image'.toMappedImageAt base = .ok placed ↔ image'.StaysPlaced placed base) ∧
    (image.HeadersKept → (image'.toMappedImageAt base = .ok placed ↔
      (base ≠ image.imageBase → image'.Relocatable) ∧
      (∀ a < placed.length,
        a < image.headerArea ∨ image.LoadsCover (image.imageBase.toNat + a) →
          256 ∣ image'.addedAt base (image'.keptOf placed) a) ∧
      ∀ a < placed.length, image.headerArea ≤ a →
        ¬image.LoadsCover (image.imageBase.toNat + a) →
          placed[a]? = some (UInt8.ofNat (image'.addedAt base (image'.keptOf placed) a)))) ∧
    (image.SlotsInLoads → (image'.toMappedImageAt base = .ok placed ↔
      base = image.imageBase ∨ image'.Relocatable ∧
        ∀ a < placed.length, 256 ∣ image'.addedAt base placed a)) ∧
    (image.SlotsInLoads → image'.relativeSlots.Pairwise Slot.Apart →
      (image'.toMappedImageAt base = .ok placed ↔
        base = image.imageBase ∨ image'.Relocatable ∧ ∀ slot ∈ image'.relativeSlots,
          256 ^ slot.width ∣
            image'.relativeSlots.count slot * (base - image.imageBase).toNat)) := by
  obtain ⟨hregular, -⟩ := regular_of_parse hdata hparse
  have hcount := length_segments_of_parse hdata hparse
  have hheld := data_le_memsz_of_parse hdata hparse hsizes
  have hlength := length_placed_image hplaced
  have hlen : placed.length < 2 ^ 64 := hlength ▸ image.imageSpan.toNat_lt
  obtain ⟨hgrammar, hread⟩ := (parseMappedAt_eq_ok hlen).1 hparse'
  have hin := hgrammar.toHeadersInside
  have hagain := toMappedImageAt_read_iff hlen hread
  have hinLoads := fun hslots : image.SlotsInLoads =>
    toMappedImageAt_read_iff_of_slotsInLoads hplaced hregular hcount hin hread hslots hheld
  refine ⟨hagain, fun hkept => ?_, fun hslots => ?_, fun hslots hapart => ?_⟩
  · exact hagain.trans (staysPlaced_iff_of_headersKept hplaced hregular hcount hin hread hkept)
  · obtain ⟨hbase, hspan, hiff⟩ := hinLoads hslots
    simp only [addedAt, hbase]
    rw [hiff, Slot.shiftAll_eq_self_iff_total image'.ident.data.ranks (relativeSlots_inside hspan)]
  · obtain ⟨-, hspan, hiff⟩ := hinLoads hslots
    rw [hiff, Slot.shiftAll_eq_self_iff_count (relativeSlots_inside hspan) hapart]

end ElfImage

/-- A 32-bit machine's executable of the 64-bit class, mapped whole with a relocation table
of two four-byte words. -/
def pairFile : List UInt8 :=
  { smallHeader with
    machine := Machine.i386, shoff := 176, shnum := 1, shstrndx := 0 }.write ++
    { smallLoad with offset := 0, filesz := 240, memsz := 240 }.write .little .elf64 ++
    Endian.little.u32Bytes 0x1078 ++ Endian.little.u32Bytes 0x107c ++
    Endian.little.u64Bytes 0x1078 ++ Endian.little.u64Bytes 8 ++ Endian.little.u64Bytes 0 ++
    Endian.little.u64Bytes 0x107c ++ Endian.little.u64Bytes 8 ++ Endian.little.u64Bytes 0 ++
    { smallText with
      type := SectionType.rela, flags := 0, addr := 0, offset := 128,
      size := 48 }.write .little .elf64

/-- The table is read again from the placed bytes, and its words stay: the executable is
placed a multiple of their width away. -/
theorem pairFile_placed_again :
    ∃ image placed image', ElfImage.parse pairFile = .ok image ∧
      image.toMappedImageAt 0x100001000 = .ok placed ∧
      ElfImage.parseMappedAt placed 0x100001000 = .ok image' ∧
      image'.relativeSlots = [⟨0x78, 4⟩, ⟨0x7c, 4⟩] ∧
      image'.toMappedImageAt 0x100001000 = .ok placed := by
  have hrun : (ElfImage.parse pairFile >>= fun image =>
      image.toMappedImageAt 0x100001000 >>= fun placed =>
      ElfImage.parseMappedAt placed 0x100001000 >>= fun image' =>
      image'.relocations >>= fun tables =>
      pure (tables.all fun table => table.entries.all fun entry => decide (entry.offset < 0x2000),
        image'.relativeSlots)) = .ok (true, [⟨0x78, 4⟩, ⟨0x7c, 4⟩]) := by decide +kernel
  simp only [Outcome.bind_eq_ok] at hrun
  obtain ⟨image, himage, placed, hplaced, image', himage', tables, htables, hret⟩ := hrun
  obtain ⟨hoffsets, hagain⟩ := Prod.mk.inj (Except.ok.inj hret)
  simp only [List.all_eq_true, decide_eq_true_eq] at hoffsets
  obtain ⟨-, rfl⟩ := (parse_eq_ok (by decide +kernel)).1 himage
  obtain ⟨segment, hsegments⟩ := List.length_eq_one_iff.1
    (show (imageOf pairFile).segments.length = 1 by decide +kernel)
  have hheader : (imageOf pairFile).segments.map Segment.header =
      [{ smallLoad with offset := 0, filesz := 240, memsz := 240 }] := by decide +kernel
  have hslots : (imageOf pairFile).relativeSlots = [⟨0x78, 4⟩, ⟨0x7c, 4⟩] := by decide +kernel
  have hbase : (imageOf pairFile).imageBase = 0x1000 := by decide +kernel
  have harea : (imageOf pairFile).headerArea = 0x78 := by decide +kernel
  rw [hsegments, List.map_singleton, List.singleton_inj] at hheader
  have hinLoads : (imageOf pairFile).SlotsInLoads := by
    have hrange : ∀ slot ∈ (imageOf pairFile).relativeSlots,
        0x78 ≤ slot.start ∧ slot.stop ≤ 0x80 := by
      rw [hslots]
      decide
    rintro slot hslot a ⟨hlow, hhigh⟩
    obtain ⟨hstart, hstop⟩ := hrange slot hslot
    have hlow : 0x78 ≤ a := hstart.trans hlow
    have hhigh : a < 0x80 := hhigh.trans_le hstop
    rw [harea, hbase]
    refine ⟨hlow, segment, by rw [hsegments]; exact List.mem_singleton_self _, ?_⟩
    rw [hheader, Segment.Covers, hheader]
    exact ⟨rfl, show 0x1000 ≤ 0x1000 + a by omega, show 0x1000 + a < 0x10f0 by omega⟩
  have hrelocatable : image'.Relocatable := by
    refine ⟨by rw [htables]; rfl, fun tables' htables' table htable entry hentry _ width _ _ => ?_⟩
    obtain rfl := Except.ok.inj (htables.symm.trans htables')
    have hoffset := UInt64.lt_iff_toNat_lt.1 (hoffsets table htable entry hentry)
    have hoffset : entry.offset.toNat < 0x2000 := hoffset
    have hwidth := width.toNat_lt
    omega
  have hiff := (ElfImage.toMappedImageAt_again_iff (by decide +kernel) himage
    (by rw [hsegments, List.forall_mem_singleton, hheader]; decide) hplaced himage').2.2.2
      hinLoads (by rw [hagain]; decide)
  refine ⟨_, placed, image', himage, hplaced, himage', hagain, hiff.2 (Or.inr ⟨hrelocatable, ?_⟩)⟩
  rw [hagain, hbase]
  decide

/-- An executable mapped whole, with its relocation table: the word after its headers is
relocated. -/
def wholeFile : List UInt8 :=
  { smallHeader with shoff := 152, shnum := 1, shstrndx := 0 }.write ++
    { smallLoad with offset := 0, filesz := 216, memsz := 216 }.write .little .elf64 ++
    Endian.little.u64Bytes 8 ++ Endian.little.u64Bytes 0x1078 ++
    Endian.little.u64Bytes 8 ++ Endian.little.u64Bytes 8 ++
    { smallText with
      type := SectionType.rela, flags := 0, addr := 0, offset := 128,
      size := 24 }.write .little .elf64

/-- Mapping the placed executable again at the same base shifts its word again. -/
theorem wholeFile_placed_twice :
    ∃ image placed image' placed', ElfImage.parse wholeFile = .ok image ∧
      (∀ segment ∈ image.segments, segment.header.filesz ≤ segment.header.memsz) ∧
      image.toMappedImageAt 0x2000 = .ok placed ∧
      ElfImage.parseMappedAt placed 0x2000 = .ok image' ∧
      image'.toMappedImageAt 0x2000 = .ok placed' ∧
      window placed 120 8 = Endian.little.u64Bytes 0x1008 ∧
      window placed' 120 8 = Endian.little.u64Bytes 0x2008 ∧ placed' ≠ placed := by
  have hrun : (ElfImage.parse wholeFile >>= fun image =>
      image.toMappedImageAt 0x2000 >>= fun placed =>
      ElfImage.parseMappedAt placed 0x2000 >>= fun image' =>
      image'.toMappedImageAt 0x2000 >>= fun placed' =>
      pure (window placed 120 8, window placed' 120 8)) =
        .ok (Endian.little.u64Bytes 0x1008, Endian.little.u64Bytes 0x2008) := by
    decide +kernel
  simp only [Outcome.bind_eq_ok] at hrun
  obtain ⟨image, himage, placed, hplaced, image', himage', placed', hplaced', hret⟩ := hrun
  obtain ⟨hword, hword'⟩ := Prod.mk.inj (Except.ok.inj hret)
  obtain ⟨-, rfl⟩ := (parse_eq_ok (by decide +kernel)).1 himage
  refine ⟨_, placed, image', placed', himage, by decide +kernel, hplaced, himage', hplaced',
    hword, hword', fun hsame => ?_⟩
  rw [hsame, hword] at hword'
  exact absurd hword' (by decide)

end Elfex
