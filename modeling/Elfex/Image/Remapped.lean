import Elfex.Image.Headers
import Elfex.Image.Loaded

/-!
# Mapping a mapped image again

The image a mapped byte string describes shows, under its headers, the string itself at
the addresses of its loads and zeros elsewhere. A string that starts with the headers of
an image describes them, so mapping an image, parsing the bytes and mapping the result
gives the same bytes.
-/

namespace Elfex

open Foundation

/-! ## What a mapped string shows -/

section Shown

variable {mapped : List UInt8}

theorem imageBase_mappedImageOf_eq (mapped : List UInt8) :
    (mappedImageOf mapped).imageBase = computeImageBase (programHeadersOf mapped) :=
  imageBase_mappedImageOf mapped _

theorem headers_mappedImageOf (mapped : List UInt8) :
    (mappedImageOf mapped).segments.map Segment.header = programHeadersOf mapped := by
  rw [mappedImageOf, List.map_map]
  exact List.map_id _

/-- A load read from a mapped string holds its memory there. -/
theorem data_mappedImageOf {segment : Segment}
    (hmem : segment ∈ (mappedImageOf mapped).segments)
    (hload : segment.header.type = SegmentType.load) :
    segment.data = mappedBytes mapped (segment.mappedStart (mappedImageOf mapped).imageBase)
      segment.header.memsz.toNat := by
  obtain ⟨header, -, rfl⟩ := List.mem_map.1 hmem
  have hload : header.type = SegmentType.load := hload
  rw [Segment.mappedStart, imageBase_mappedImageOf_eq, mappedSegmentOf, hload,
    if_neg (by decide), ProgramHeader.mappedLength, if_pos hload, toNat_saturatingSub]

/-- The layer of a load holds the bytes of the string at its own addresses. -/
theorem get?_layer_mappedImageOf (hlen : mapped.length < 2 ^ 64) {segment : Segment}
    (hmem : segment ∈ (mappedImageOf mapped).segments)
    (hplaced : segment.IsPlaced (mappedImageOf mapped).imageBase) (a : ℕ) :
    (segment.layer (mappedImageOf mapped).imageBase).get? a =
      if segment.Covers ((mappedImageOf mapped).imageBase.toNat + a) then
        some (mapped.getD a 0) else none := by
  have hbase := UInt64.le_iff_toNat_le.1 hplaced.2
  rw [Segment.layer, Extent.get?, data_mappedImageOf hmem hplaced.1,
    getElem?_mappedBytes hlen]
  have hstart : segment.mappedStart (mappedImageOf mapped).imageBase +
      (mappedImageOf mapped).imageBase.toNat = segment.header.vaddr.toNat :=
    Nat.sub_add_cancel hbase
  dsimp only
  by_cases hcovers : segment.Covers ((mappedImageOf mapped).imageBase.toNat + a)
  · rw [if_pos hcovers]
    obtain ⟨hlow, hhigh⟩ := hcovers
    rw [if_pos (by omega), if_pos (by omega), Nat.add_sub_of_le (by omega)]
  · rw [if_neg hcovers]
    by_cases hlow : segment.mappedStart (mappedImageOf mapped).imageBase ≤ a
    · rw [if_pos hlow, if_neg]
      exact fun hlt => hcovers ⟨by omega, by omega⟩
    · rw [if_neg hlow]

/-- Under its headers a mapped string shows itself where a load covers the position. -/
theorem topmost_mappedImageOf (hlen : mapped.length < 2 ^ 64) (a : ℕ) :
    Extent.topmost (placedLayers (mappedImageOf mapped).imageBase
        (mappedImageOf mapped).segments) a =
      if (mappedImageOf mapped).LoadsCover ((mappedImageOf mapped).imageBase.toNat + a) then
        some (mapped.getD a 0) else none := by
  split
  · rename_i hcover
    obtain ⟨segment, hmem, hload, hcovers⟩ := hcover
    have hpos : 0 < segment.header.memsz.toNat := by
      have hlow := hcovers.1
      have hhigh := hcovers.2
      omega
    have hplaced : segment.IsPlaced (mappedImageOf mapped).imageBase :=
      ⟨hload, UInt64.le_iff_toNat_le.2
        (ElfImage.span_encloses hmem hload (ne_zero_of_lt_toNat hpos)).1⟩
    refine Extent.topmost_eq_of_agree (mem_placedLayers.2 ⟨segment, hmem, hplaced, rfl⟩) ?_ ?_
    · rw [get?_layer_mappedImageOf hlen hmem hplaced, if_pos hcovers]
    · intro e he y hy
      obtain ⟨other, hother, hplaced', rfl⟩ := mem_placedLayers.1 he
      rw [get?_layer_mappedImageOf hlen hother hplaced'] at hy
      split at hy
      · exact (Option.some.inj hy).symm
      · cases hy
  · rename_i hfree
    rw [Extent.topmost_eq_none_iff]
    intro e he
    obtain ⟨segment, hmem, hplaced, rfl⟩ := mem_placedLayers.1 he
    rw [get?_layer_mappedImageOf hlen hmem hplaced, if_neg]
    exact fun hcovers => hfree ⟨segment, hmem, hplaced.1, hcovers⟩

/-- The image a mapped string describes is mapped to its headers, the string where a load
has memory, and zeros elsewhere. -/
theorem getElem?_mappedAtBase_mappedImageOf (hlen : mapped.length < 2 ^ 64) {a : ℕ}
    (ha : a < (mappedImageOf mapped).imageSpan.toNat) :
    (mappedImageOf mapped).mappedAtBase[a]? =
      if a < (mappedImageOf mapped).headerArea then (mappedImageOf mapped).mappedHeaders[a]?
      else some (if (mappedImageOf mapped).LoadsCover
        ((mappedImageOf mapped).imageBase.toNat + a) then mapped.getD a 0 else 0) := by
  have hident : (mappedImageOf mapped).header.ident = (mappedImageOf mapped).ident :=
    headerOf_ident mapped
  split
  · rename_i harea
    exact ElfImage.mappedAtBase_of_lt hident ha harea
  · rename_i harea
    rw [ElfImage.mappedAtBase_of_le hident ha (Nat.le_of_not_lt harea), topmost_mappedImageOf hlen]
    split <;> rfl

end Shown

/-! ## Strings that start with the headers of an image -/

namespace ElfImage

/-- The program header table as the mapped image holds it. -/
def mappedTable (image : ElfImage) : List UInt8 :=
  (image.segments.map Segment.header).flatMap fun header =>
    header.write image.ident.data image.ident.elfClass

theorem mappedHeaders_eq (image : ElfImage) :
    image.mappedHeaders = image.mappedHeader.write ++ image.mappedTable := by
  rw [mappedTable, List.flatMap_map]
  rfl

/-- The string starts with the headers of the image, as far as it goes. -/
def HeadsWith (image : ElfImage) (d : List UInt8) : Prop :=
  ∀ a < d.length, a < image.headerArea → d[a]? = image.mappedHeaders[a]?

/-- A header that fits the class still fits with the fields of the mapped image. -/
theorem mappedHeader_fits {image : ElfImage} (hfits : image.header.Fits) :
    image.mappedHeader.Fits := by
  have htype := congrArg ElfHeader.type hfits
  have hentry := congrArg ElfHeader.entry hfits
  have hshoff := congrArg ElfHeader.shoff hfits
  have hphoff : image.header.ident.elfClass.keep (ElfHeader.size image.ident.elfClass) =
      ElfHeader.size image.ident.elfClass := by
    apply ElfClass.keep_of_lt
    cases image.ident.elfClass <;> decide
  dsimp only [ElfHeader.narrow] at htype hentry hshoff
  rw [ElfHeader.Fits, ElfHeader.narrow, mappedHeader]
  dsimp only
  rw [htype, hentry, hshoff, hphoff]

/-- The start of such a string is a window of the headers. -/
theorem HeadsWith.window_eq {image : ElfImage} {d : List UInt8} (hd : image.HeadsWith d)
    {o n : ℕ} (hn : o + n ≤ d.length) (hn' : o + n ≤ image.headerArea) :
    window d o n = window image.mappedHeaders o n := by
  apply List.ext_getElem?
  intro i
  rw [getElem?_window, getElem?_window]
  split
  · exact hd _ (by omega) (by omega)
  · rfl

section Headed

variable {image : ElfImage} {d : List UInt8} (hd : image.HeadsWith d)
  (hregular : image.Regular) (hin : HeadersInside d)
  (hcount : image.segments.length < 2 ^ 16)

include hd hregular hin

theorem HeadsWith.identOf_eq : identOf d = image.ident := by
  have hsize := sixteen_le_size (identOf d).elfClass
  have hsize' := sixteen_le_size image.ident.elfClass
  have hlen := hsize.trans hin.header
  have harea : 16 ≤ image.headerArea := hsize'.trans (Nat.le_add_right _ _)
  have hwindow := hd.window_eq (o := 0) (n := 16) (by omega) (by omega)
  rw [mappedHeaders_eq, window_append_left, ElfHeader.window_write_ident] at hwindow
  · rw [(identOf_written hwindow).2.2.2]
    exact hregular.ident
  · rw [ElfHeader.length_write, show image.mappedHeader.ident = image.ident from hregular.ident]
    omega

theorem HeadsWith.headerOf_eq : headerOf d = image.mappedHeader := by
  have hident : image.mappedHeader.ident = image.ident := hregular.ident
  have hlen := hin.header
  rw [hd.identOf_eq hregular hin] at hlen
  have hwindow : window d 0 (ElfHeader.size image.mappedHeader.ident.elfClass).toNat =
      image.mappedHeader.write := by
    rw [hident, hd.window_eq (by omega)
      (by rw [headerArea, Nat.zero_add]; exact Nat.le_add_right _ _), mappedHeaders_eq,
      window_append_left]
    · exact window_eq_self (by rw [ElfHeader.length_write, hident])
    · rw [ElfHeader.length_write, hident, Nat.zero_add]
  rw [headerOf_written hwindow]
  exact mappedHeader_fits hregular.header

include hcount

theorem HeadsWith.phnum_eq : (headerOf d).phnum.toNat = image.segments.length := by
  rw [hd.headerOf_eq hregular hin]
  have hphnum : image.mappedHeader.phnum = UInt16.ofNat image.segments.length := if_pos hcount
  rw [hphnum]
  exact Nat.mod_eq_of_lt hcount

/-- A string the headers lie inside of holds all of them. -/
theorem HeadsWith.headerArea_le : image.headerArea ≤ d.length := by
  have hident := hd.identOf_eq hregular hin
  have hphnum := hd.phnum_eq hregular hin hcount
  have hheader := hin.header
  rw [hident] at hheader
  cases hsegments : image.segments.length with
  | zero =>
      rw [headerArea, hsegments, Nat.zero_mul]
      exact hheader
  | succ n =>
      have hlast := hin.programHeaders n (by omega)
      rw [programHeaderStart, hd.headerOf_eq hregular hin, hident] at hlast
      rw [headerArea, hsegments, Nat.succ_mul, ← Nat.add_assoc]
      exact hlast

theorem HeadsWith.programHeadersOf_eq :
    programHeadersOf d = image.segments.map Segment.header := by
  have hident := hd.identOf_eq hregular hin
  have harea := hd.headerArea_le hregular hin hcount
  have hwrite : image.mappedHeader.write.length =
      (ElfHeader.size image.ident.elfClass).toNat := by
    rw [ElfHeader.length_write, show image.mappedHeader.ident = image.ident from hregular.ident]
  have htable : image.mappedTable.length =
      image.segments.length * (ProgramHeader.size image.ident.elfClass).toNat := by
    rw [mappedTable, length_flatMap_of_width _ _ fun _ _ => ProgramHeader.length_write _ _ _,
      List.length_map]
  have hheld : Extent.Held ⟨(ElfHeader.size image.ident.elfClass).toNat, image.mappedTable⟩ d := by
    have hstop : (ElfHeader.size image.ident.elfClass).toNat + image.mappedTable.length =
        image.headerArea := by rw [htable, headerArea]
    refine ⟨hstop.trans_le harea, ?_⟩
    dsimp only
    rw [hd.window_eq (by omega) (by omega), mappedHeaders_eq,
      window_append_of_le _ (by omega), hwrite, Nat.sub_self]
    exact window_self _
  have hcount' : (headerOf d).phnum.toNat = (image.segments.map Segment.header).length := by
    rw [hd.phnum_eq hregular hin hcount, List.length_map]
  have hwritten := programHeadersOf_written hcount' (by
    rw [hd.headerOf_eq hregular hin, hident]
    exact hheld)
  rw [hwritten, hident, List.map_map]
  refine List.map_congr_left fun segment hmem => ?_
  exact hregular.segmentHeader segment hmem

end Headed

/-! ## Images with the same headers -/

section SameHeaders

variable {image image' : ElfImage}
  (h : image'.segments.map Segment.header = image.segments.map Segment.header)

include h

theorem geometry_congr : image'.geometry = image.geometry := by
  rw [geometry, geometry, h]

theorem imageBase_congr : image'.imageBase = image.imageBase := by
  rw [imageBase, imageBase, geometry_congr h]

theorem imageSpan_congr : image'.imageSpan = image.imageSpan := by
  rw [imageSpan, imageSpan, geometry_congr h]

theorem loadsCover_congr (address : ℕ) :
    image'.LoadsCover address ↔ image.LoadsCover address := by
  have hheaders : ∀ image : ElfImage, image.LoadsCover address ↔
      ∃ header ∈ image.segments.map Segment.header, header.type = SegmentType.load ∧
        header.vaddr.toNat ≤ address ∧ address < header.vaddr.toNat + header.memsz.toNat := by
    intro image
    simp [LoadsCover, Segment.Covers]
  rw [hheaders, hheaders, h]

theorem mappable_congr : image'.Mappable ↔ image.Mappable := by
  have hheaders : ∀ image : ElfImage, image.Mappable ↔ image.imageSpan.toNat ≤ maxImage ∧
      ∀ header ∈ image.segments.map Segment.header, header.type = SegmentType.load →
        image.imageBase ≤ header.vaddr →
          header.vaddr.toNat - image.imageBase.toNat ≤ image.imageSpan.toNat := by
    intro image
    rw [List.forall_mem_map]
    exact ⟨fun h => ⟨h.span, h.inside⟩, fun h => ⟨h.1, h.2⟩⟩
  rw [hheaders, hheaders, h, imageBase_congr h, imageSpan_congr h]

end SameHeaders

/-! ## Mapping again -/

section Again

variable {image : ElfImage}

/-- The bytes of an image start with its headers. -/
theorem headsWith_mappedAtBase (hident : image.header.ident = image.ident) :
    image.HeadsWith image.mappedAtBase := by
  intro a ha harea
  rw [length_mappedAtBase] at ha
  exact mappedAtBase_of_lt hident ha harea

/-- The headers of the image a string with the headers of another describes. -/
theorem HeadsWith.mappedHeaders_eq {d : List UInt8} (hd : image.HeadsWith d)
    (hregular : image.Regular) (hin : HeadersInside d)
    (hcount : image.segments.length < 2 ^ 16) :
    (mappedImageOf d).mappedHeaders = image.mappedHeaders := by
  have hident := hd.identOf_eq hregular hin
  have hheaders := (headers_mappedImageOf d).trans
    (hd.programHeadersOf_eq hregular hin hcount)
  have hlength : (mappedImageOf d).segments.length = image.segments.length := by
    simpa using congrArg List.length hheaders
  have hheader : (mappedImageOf d).mappedHeader = image.mappedHeader := by
    rw [mappedHeader, hlength, show (mappedImageOf d).header = image.mappedHeader from
      hd.headerOf_eq hregular hin, show (mappedImageOf d).ident = image.ident from hident]
    rfl
  rw [ElfImage.mappedHeaders_eq, ElfImage.mappedHeaders_eq, hheader, mappedTable, mappedTable,
    hheaders, show (mappedImageOf d).ident = image.ident from hident]

/-- A string as long as the span of an image that starts with its headers and is zero
where no load has memory is mapped to itself. -/
theorem HeadsWith.mappedAtBase_eq {d : List UInt8} (hd : image.HeadsWith d)
    (hregular : image.Regular) (hin : HeadersInside d)
    (hcount : image.segments.length < 2 ^ 16) (hlen : d.length = image.imageSpan.toNat)
    (hfree : ∀ a < d.length, image.headerArea ≤ a →
      ¬image.LoadsCover (image.imageBase.toNat + a) → d[a]? = some 0) :
    (mappedImageOf d).mappedAtBase = d := by
  have hheaders := (headers_mappedImageOf d).trans (hd.programHeadersOf_eq hregular hin hcount)
  have hlt : d.length < 2 ^ 64 := hlen ▸ image.imageSpan.toNat_lt
  apply List.ext_getElem?
  intro a
  rw [getElem?_mappedAtBase, imageSpan_congr hheaders, hd.mappedHeaders_eq hregular hin hcount,
    topmost_mappedImageOf hlt, imageBase_congr hheaders]
  by_cases ha : a < d.length
  · rw [if_pos (hlen ▸ ha)]
    by_cases harea : a < image.headerArea
    · rw [← hd a ha harea, List.getElem?_eq_getElem ha, Option.some_or, Option.getD_some]
    · have hbeyond : image.mappedHeaders[a]? = none := by
        rw [List.getElem?_eq_none_iff, length_mappedHeaders image hregular.ident]
        omega
      rw [hbeyond, Option.none_or]
      by_cases hcover : image.LoadsCover (image.imageBase.toNat + a)
      · rw [if_pos ((loadsCover_congr hheaders _).2 hcover), Option.getD_some,
          List.getD_eq_getElem?_getD, List.getElem?_eq_getElem ha, Option.getD_some]
      · rw [if_neg fun h => hcover ((loadsCover_congr hheaders _).1 h),
          hfree a ha (Nat.le_of_not_lt harea) hcover, Option.getD_none]
  · rw [if_neg (hlen ▸ ha), List.getElem?_eq_none (Nat.le_of_not_lt ha)]

/-- The bytes of a load in a mapped string: what the string holds of its memory, and zeros
past the end of the string. -/
theorem mappedBytes_eq_window {mapped : List UInt8} (hlen : mapped.length ≤ 2 ^ 64) {start : ℕ}
    (hstart : start ≤ mapped.length) (n : ℕ) : mappedBytes mapped start n =
      window mapped start n ++ List.replicate (start + n - mapped.length) 0 := by
  rw [mappedBytes, Memory.fill, List.length_replicate, Memory.run_ofList hlen, length_window,
    List.drop_replicate]
  congr 2
  omega

/-- A parsed file has as many segments as a header field can count. -/
theorem length_segments_of_parse {data : List UInt8} (hdata : data.length ≤ isizeMax)
    (hparse : parse data = .ok image) : image.segments.length < 2 ^ 16 := by
  obtain ⟨-, rfl⟩ := (parse_eq_ok hdata).1 hparse
  simpa [imageOf, programHeadersOf] using (headerOf data).phnum.toNat_lt

/-- Mapping a parsed image, parsing the bytes and mapping again gives the same bytes. -/
theorem toMappedImage_stable {data : List UInt8} (hdata : data.length ≤ isizeMax)
    (hparse : parse data = .ok image)
    (hsizes : ∀ segment ∈ image.segments, segment.header.type = SegmentType.load →
      segment.header.filesz ≤ segment.header.memsz)
    {mapped : List UInt8} (hmapped : image.toMappedImage = .ok mapped) {image' : ElfImage}
    (hparse' : parseMapped mapped = .ok image') :
    image'.ident = image.ident ∧ image'.header.type = image.header.type ∧
    image'.header.machine = image.header.machine ∧
    image'.header.entry = image.header.entry ∧ image'.header.flags = image.header.flags ∧
    image'.imageBase = image.imageBase ∧ image'.imageSpan = image.imageSpan ∧
    image'.segments.map Segment.header = image.segments.map Segment.header ∧
    (∀ segment ∈ image'.segments, segment.header.type = SegmentType.load →
      let start := segment.header.vaddr.toNat - image.imageBase.toNat
      segment.data = window mapped start segment.header.memsz.toNat ++
        List.replicate (start + segment.header.memsz.toNat - mapped.length) 0 ∧
      (segment.header.vaddr.toNat + segment.header.memsz.toNat < 2 ^ 64 →
        start + segment.header.memsz.toNat ≤ mapped.length)) ∧
    image'.toMappedImage = .ok mapped := by
  obtain ⟨hregular, -⟩ := regular_of_parse hdata hparse
  have hcount := length_segments_of_parse hdata hparse
  obtain ⟨hmappable, rfl⟩ := (toMappedImage_eq_ok _).1 hmapped
  have hlen : image.mappedAtBase.length < 2 ^ 64 := by
    rw [length_mappedAtBase]
    exact UInt64.toNat_lt _
  obtain ⟨hgrammar, rfl⟩ := (parseMapped_eq_ok hlen).1 hparse'
  have hin := hgrammar.toHeadersInside
  have hheld := data_le_memsz_of_parse hdata hparse hsizes
  have hd := headsWith_mappedAtBase hregular.ident
  have hheader : (mappedImageOf image.mappedAtBase).header = image.mappedHeader :=
    hd.headerOf_eq hregular hin
  have hheaders := (headers_mappedImageOf _).trans (hd.programHeadersOf_eq hregular hin hcount)
  have hmappable' := (mappable_congr hheaders).2 hmappable
  have hbase := imageBase_congr hheaders
  have hspan := imageSpan_congr hheaders
  have hagain := hd.mappedAtBase_eq hregular hin hcount (length_mappedAtBase image)
    fun a ha harea hfree => by
      rw [length_mappedAtBase] at ha
      exact mappedAtBase_uncovered hheld hregular.ident ha harea hfree
  rw [hheader]
  refine ⟨hd.identOf_eq hregular hin, rfl, rfl, rfl, rfl, hbase, hspan, hheaders,
    fun segment hmem hload => ?_,
    (toMappedImage_eq_ok _).2 ⟨hmappable', hagain⟩⟩
  have hstart : segment.mappedStart image.imageBase ≤
      image.mappedAtBase.length := by
    rw [length_mappedAtBase, ← hbase, ← hspan, Segment.mappedStart]
    by_cases hle : (mappedImageOf image.mappedAtBase).imageBase ≤
        segment.header.vaddr
    · exact hmappable'.inside segment hmem hload hle
    · rw [UInt64.le_iff_toNat_le] at hle
      omega
  refine ⟨?_, fun hfits => ?_⟩
  · rw [data_mappedImageOf hmem hload, hbase]
    exact mappedBytes_eq_window hlen.le hstart _
  · rw [length_mappedAtBase] at hstart ⊢
    rw [Segment.mappedStart] at hstart
    by_cases hzero : segment.header.memsz = 0
    · rw [hzero, UInt64.toNat_zero, Nat.add_zero]
      exact hstart
    · have hend := span_encloses hmem hload hzero
      rw [hbase, hspan] at hend
      omega

end Again

end ElfImage

/-- An executable whose second loadable segment starts two bytes before the end of the
address space. -/
def highFile (memsz : UInt64) : List UInt8 :=
  { smallHeader with phnum := 2, shoff := 0, shnum := 0, shstrndx := 0 }.write ++
    { smallLoad with
      vaddr := 0xffffffffffffff38, align := 0xffffffffffffff38, filesz := 0,
      memsz := 1 }.write .little .elf64 ++
    { smallLoad with vaddr := 0xfffffffffffffffe, filesz := 0, memsz }.write .little .elf64

/-- A segment that ends with the address space's last mapped byte is read back whole. -/
theorem highFile_stable :
    ∃ image mapped image', ElfImage.parse (highFile 1) = .ok image ∧
      image.toMappedImage = .ok mapped ∧ ElfImage.parseMapped mapped = .ok image' ∧
      image'.segments.map Segment.header = image.segments.map Segment.header ∧
      image'.toMappedImage = .ok mapped := by
  have himage : ElfImage.parse (highFile 1) = .ok (imageOf (highFile 1)) :=
    parse_imageOf (by decide +kernel) (by decide +kernel)
  obtain ⟨mapped, hmapped⟩ := Outcome.exists_of_isOk
    (show (imageOf (highFile 1)).toMappedImage.isOk = true by decide +kernel)
  obtain rfl := ((ElfImage.toMappedImage_eq_ok _).1 hmapped).2
  obtain ⟨image', himage'⟩ := Outcome.exists_of_isOk
    (show (ElfImage.parseMapped (imageOf (highFile 1)).mappedAtBase).isOk = true by
      decide +kernel)
  obtain ⟨-, -, -, -, -, -, -, hheaders, -, hstable⟩ :=
    ElfImage.toMappedImage_stable (by decide +kernel) himage (by decide +kernel) hmapped himage'
  exact ⟨_, _, image', himage, hmapped, himage', hheaders, hstable⟩

/-- A segment that wraps around the address space is longer than its part of the mapped
bytes. -/
theorem highFile_cut :
    ∃ image mapped image', ElfImage.parse (highFile 3) = .ok image ∧
      (∀ segment ∈ image.segments, segment.header.filesz ≤ segment.header.memsz) ∧
      image.toMappedImage = .ok mapped ∧ ElfImage.parseMapped mapped = .ok image' ∧
      ¬∀ segment ∈ image'.segments, segment.header.type = SegmentType.load →
        segment.header.vaddr.toNat - image.imageBase.toNat + segment.header.memsz.toNat ≤
          mapped.length ∧
        segment.data = window mapped
          (segment.header.vaddr.toNat - image.imageBase.toNat) segment.header.memsz.toNat := by
  have himage : ElfImage.parse (highFile 3) = .ok (imageOf (highFile 3)) :=
    parse_imageOf (by decide +kernel) (by decide +kernel)
  obtain ⟨mapped, hmapped⟩ := Outcome.exists_of_isOk
    (show (imageOf (highFile 3)).toMappedImage.isOk = true by decide +kernel)
  obtain rfl := ((ElfImage.toMappedImage_eq_ok _).1 hmapped).2
  obtain ⟨image', himage'⟩ := Outcome.exists_of_isOk
    (show (ElfImage.parseMapped (imageOf (highFile 3)).mappedAtBase).isOk = true by
      decide +kernel)
  obtain ⟨-, rfl⟩ := (parseMapped_eq_ok (by decide +kernel)).1 himage'
  exact ⟨_, _, _, himage, by decide +kernel, hmapped, himage', by decide +kernel⟩

end Elfex
