import Elfex.Image.Layout
import Elfex.Image.Projection

/-!
# The file container

An `ElfFile` is an image with the bytes that follow its last structure. The end
of the last structure is recomputed from the image, independently of the parser:
every extent the loops of `lastStructureEnd` look at raises it, unless its end is
not representable.
-/

namespace Elfex

open Foundation

structure ElfFile where
  image : ElfImage
  trailing : List UInt8
  deriving DecidableEq, Repr

/-- Raises the running end to an extent's end; an end that is not representable is
ignored. -/
def raiseEnd (stop : UInt64) (range : UInt64 × UInt64) : UInt64 :=
  max stop ((checkedAdd range.1 range.2).getD stop)

/-- The file offset one past the last structural byte. -/
def lastStructureEnd (image : ElfImage) : UInt64 :=
  let elfClass := image.ident.elfClass
  let stop := max 0 (ElfHeader.size elfClass)
  let stop := raiseEnd stop
    (image.header.phoff, image.header.phnum.toUInt64 * ProgramHeader.size elfClass)
  let stop := image.segments.foldl (fun stop segment =>
    if 0 < segment.header.filesz then
      raiseEnd stop (segment.header.offset, segment.header.filesz)
    else stop) stop
  let stop := image.sections.foldl (fun stop sec =>
    if !sec.header.isNobits ∧ 0 < sec.header.size then
      raiseEnd stop (sec.header.offset, sec.header.size)
    else stop) stop
  raiseEnd stop (image.header.shoff,
    image.header.shnum.toUInt64 * SectionHeader.entrySize elfClass)

namespace ElfFile

/-- The bytes from `fileEnd` to the end of a source of known size; every failure gives
none. -/
def readTrailing (reader : Reader) (fileEnd : UInt64) : Exec (List UInt8) :=
  match reader.size.bind fun size => checkedSub size fileEnd with
  | none => .ok []
  | some remaining => do
    let trailing ← (reader.readBytesAt fileEnd remaining.toNat).attempt
    return trailing.getD []

def readFrom (reader : Reader) : Exec ElfFile := do
  let image ← ElfImage.readFrom reader 0 .file
  let trailing ← readTrailing reader (lastStructureEnd image)
  return { image, trailing }

def parse (data : List UInt8) : Exec ElfFile := readFrom (sliceReader data)

/-- Serializes the file: the image in file layout followed by the trailing bytes. A
vector longer than the language allows faults. -/
def tryBuild (file : ElfFile) : Exec (List UInt8) := do
  let bytes ← file.image.tryBuild
  if isizeMax < (bytes ++ file.trailing).length then Outcome.fault
  else return bytes ++ file.trailing

end ElfFile

/-! ## The end of the last structure -/

/-- The extents that `lastStructureEnd` counts, in its order. -/
def countedRanges (image : ElfImage) : List (UInt64 × UInt64) :=
  let elfClass := image.ident.elfClass
  (0, ElfHeader.size elfClass) ::
    (image.header.phoff, image.header.phnum.toUInt64 * ProgramHeader.size elfClass) ::
    ((image.segments.filter fun segment => decide (0 < segment.header.filesz)).map
      fun segment => (segment.header.offset, segment.header.filesz)) ++
    ((image.sections.filter fun sec =>
      decide (!sec.header.isNobits ∧ 0 < sec.header.size)).map
        fun sec => (sec.header.offset, sec.header.size)) ++
    [(image.header.shoff, image.header.shnum.toUInt64 * SectionHeader.entrySize elfClass)]

theorem raiseEnd_zero (size : UInt64) : raiseEnd 0 (0, size) = max 0 size := by
  have hadd : checkedAdd 0 size = some size := checkedAdd_eq_some.2 (by simp)
  rw [raiseEnd, hadd, Option.getD_some]

theorem lastStructureEnd_eq_foldl (image : ElfImage) :
    lastStructureEnd image = (countedRanges image).foldl raiseEnd 0 := by
  simp only [lastStructureEnd, countedRanges, List.foldl_append, List.foldl_cons,
    List.foldl_nil, List.foldl_map, List.foldl_filter, raiseEnd_zero, decide_eq_true_eq]

theorem toNat_raiseEnd_le_iff (stop : UInt64) (range : UInt64 × UInt64) (m : ℕ) :
    (raiseEnd stop range).toNat ≤ m ↔
      stop.toNat ≤ m ∧ (range.1.toNat + range.2.toNat < 2 ^ 64 →
        range.1.toNat + range.2.toNat ≤ m) := by
  rw [raiseEnd, toNat_max]
  cases hadd : checkedAdd range.1 range.2 with
  | none =>
      rw [checkedAdd_eq_none] at hadd
      rw [Option.getD_none]
      omega
  | some stop' =>
      rw [checkedAdd_eq_some] at hadd
      have hlt := stop'.toNat_lt
      rw [Option.getD_some]
      omega

theorem lastStructureEnd_le_iff (image : ElfImage) (m : ℕ) :
    (lastStructureEnd image).toNat ≤ m ↔
      ∀ range ∈ countedRanges image, range.1.toNat + range.2.toNat < 2 ^ 64 →
        range.1.toNat + range.2.toNat ≤ m := by
  have hfold : ∀ (ranges : List (UInt64 × UInt64)) (stop : UInt64),
      (ranges.foldl raiseEnd stop).toNat ≤ m ↔
        stop.toNat ≤ m ∧ ∀ range ∈ ranges, range.1.toNat + range.2.toNat < 2 ^ 64 →
          range.1.toNat + range.2.toNat ≤ m := by
    intro ranges
    induction ranges with
    | nil => simp
    | cons range ranges ih =>
        intro stop
        rw [List.foldl_cons, ih, toNat_raiseEnd_le_iff, List.forall_mem_cons, and_assoc]
  rw [lastStructureEnd_eq_foldl, hfold]
  simp

/-! ## Parsing -/

section Parse

variable {data : List UInt8}

/-- A source of a byte string gives the bytes from the end of the last structure on. -/
theorem ElfFile.readTrailing_serves {reader : Reader} (h : reader.ServesBytes data)
    (hdata : data.length ≤ isizeMax) (fileEnd : UInt64) :
    ElfFile.readTrailing reader fileEnd = .ok (data.drop fileEnd.toNat) := by
  rw [ElfFile.readTrailing]
  have hmax : isizeMax < 2 ^ 64 := by decide
  have hsize : (UInt64.ofNat data.length).toNat = data.length :=
    toNat_ofNat_of_lt (by omega)
  rw [h.size, Option.bind_some]
  cases hsub : checkedSub (UInt64.ofNat data.length) fileEnd with
  | none =>
      have hlt : data.length < fileEnd.toNat := by
        rw [checkedSub] at hsub
        split at hsub
        · cases hsub
        · rename_i hle
          rw [UInt64.le_iff_toNat_le, hsize] at hle
          omega
      rw [List.drop_eq_nil_of_le hlt.le]
  | some remaining =>
      rw [checkedSub_eq_some, hsize] at hsub
      have hdrop : window data fileEnd.toNat remaining.toNat = data.drop fileEnd.toNat := by
        rw [window, List.take_of_length_le]
        rw [List.length_drop]
        omega
      by_cases hzero : remaining.toNat = 0
      · rw [hzero, window_zero_right] at hdrop
        simp only [hzero, readBytesAt_zero, Outcome.attempt_ok, Outcome.ok_bind,
          Option.getD_some, ← hdrop]
        rfl
      · have hread := readBytesAt_decides h hdata fileEnd (Nat.pos_of_ne_zero hzero)
        rw [hdrop] at hread
        simp only [hread.ok (by omega), Outcome.attempt_ok, Outcome.ok_bind,
          Option.getD_some]
        rfl

theorem ElfFile.readTrailing_slice (hdata : data.length ≤ isizeMax) (fileEnd : UInt64) :
    ElfFile.readTrailing (sliceReader data) fileEnd = .ok (data.drop fileEnd.toNat) := by
  have hmax : isizeMax < 2 ^ 64 := by decide
  exact readTrailing_serves (sliceReader_serves (by omega)) hdata fileEnd

/-- Parsing a file is parsing its image; the trailing bytes are those from the end of the
last structure on. -/
theorem ElfFile.parse_eq_ok (hdata : data.length ≤ isizeMax) {file : ElfFile} :
    ElfFile.parse data = .ok file ↔ ElfImage.parse data = .ok file.image ∧
      file.trailing = data.drop (lastStructureEnd file.image).toNat := by
  unfold ElfFile.parse ElfFile.readFrom
  simp only [ElfFile.readTrailing_slice hdata, Outcome.ok_bind]
  rw [Outcome.bind_eq_ok]
  constructor
  · rintro ⟨image, himage, hret⟩
    cases hret
    exact ⟨himage, rfl⟩
  · rintro ⟨himage, htrailing⟩
    refine ⟨file.image, himage, ?_⟩
    rw [← htrailing]
    rfl

/-- The last end of the image a file describes, over the file's headers. -/
theorem lastStructureEnd_imageOf_le_iff (data : List UInt8) (m : ℕ) :
    (lastStructureEnd (imageOf data)).toNat ≤ m ↔
      (ElfHeader.size (identOf data).elfClass).toNat ≤ m ∧
      ((programTableRange data).2 < 2 ^ 64 → (programTableRange data).2 ≤ m) ∧
      (∀ header ∈ programHeadersOf data, 0 < header.filesz →
        header.offset.toNat + header.filesz.toNat < 2 ^ 64 →
        header.offset.toNat + header.filesz.toNat ≤ m) ∧
      (∀ header ∈ sectionHeadersOf data, header.isNobits = false → 0 < header.size →
        header.offset.toNat + header.size.toNat < 2 ^ 64 →
        header.offset.toNat + header.size.toNat ≤ m) ∧
      ((headerOf data).shoff.toNat + (headerOf data).shnum.toNat *
          (SectionHeader.entrySize (identOf data).elfClass).toNat < 2 ^ 64 →
        (headerOf data).shoff.toNat + (headerOf data).shnum.toNat *
          (SectionHeader.entrySize (identOf data).elfClass).toNat ≤ m) := by
  have hprod : ∀ (n : UInt16) (size : UInt64), size.toNat ≤ 64 →
      (n.toUInt64 * size).toNat = n.toNat * size.toNat := by
    intro n size hsize
    have hn := n.toNat_lt
    have hle : n.toNat * size.toNat ≤ n.toNat * 64 := Nat.mul_le_mul_left _ hsize
    rw [toNat_mul_of_lt, UInt16.toNat_toUInt64]
    rw [UInt16.toNat_toUInt64]
    omega
  have hphentsize : (ProgramHeader.size (identOf data).elfClass).toNat ≤ 64 := by
    cases (identOf data).elfClass <;> decide
  have hshentsize : (SectionHeader.entrySize (identOf data).elfClass).toNat ≤ 64 := by
    cases (identOf data).elfClass <;> decide
  have hehsize : (ElfHeader.size (identOf data).elfClass).toNat < 2 ^ 64 :=
    UInt64.toNat_lt _
  have hzero : (0 : UInt64).toNat = 0 := rfl
  rw [lastStructureEnd_le_iff]
  simp only [countedRanges, imageOf, List.forall_mem_append, List.forall_mem_cons,
    List.forall_mem_map, List.mem_filter, decide_eq_true_eq, hprod _ _ hphentsize,
    hprod _ _ hshentsize, segmentOf, sectionOf, and_imp, programTableRange, hzero,
    Nat.zero_add, Bool.not_eq_true', List.not_mem_nil, false_imp_iff, implies_true,
    and_true, and_assoc, hehsize, true_imp_iff]

/-- Every range a file's headers account for is counted, when its end is representable. -/
theorem fileRanges_le_lastStructureEnd {range : ℕ × ℕ} (hrange : range ∈ fileRanges data)
    (hfit : range.2 < 2 ^ 64) : range.2 ≤ (lastStructureEnd (imageOf data)).toNat := by
  obtain ⟨hheader, hprogram, hsegments, hsections, htable⟩ :=
    (lastStructureEnd_imageOf_le_iff data _).1 le_rfl
  simp only [fileRanges, List.mem_cons, List.mem_append, List.mem_filterMap] at hrange
  rcases hrange with rfl | rfl | (⟨header, hmem, hsome⟩ | ⟨header, hmem, hsome⟩) | hrange
  · exact hheader
  · exact hprogram hfit
  · rw [ProgramHeader.fileRange] at hsome
    split at hsome
    · cases hsome
    · rename_i hsize
      cases hsome
      exact hsegments header hmem (UInt64.pos_iff_ne_zero.2 hsize) hfit
  · rw [SectionHeader.fileRange] at hsome
    split at hsome
    · cases hsome
    · rename_i hsize
      cases hsome
      rw [not_or, Bool.not_eq_true] at hsize
      exact hsections header hmem hsize.1 (UInt64.pos_iff_ne_zero.2 hsize.2) hfit
  · rw [sectionTableRange] at hrange
    split at hrange
    · exact absurd hrange (by simp)
    · obtain rfl := List.mem_singleton.1 hrange
      exact htable hfit

/-- When the section header offset of a file without sections is zero, nothing else is
counted. -/
theorem lastStructureEnd_le {m : ℕ} (hranges : ∀ range ∈ fileRanges data, range.2 ≤ m)
    (hshoff : (headerOf data).shnum = 0 → (headerOf data).shoff = 0) :
    (lastStructureEnd (imageOf data)).toNat ≤ m := by
  rw [lastStructureEnd_imageOf_le_iff]
  simp only [fileRanges, List.forall_mem_cons, List.forall_mem_append,
    List.mem_filterMap] at hranges
  obtain ⟨hheader, hprogram, ⟨hsegments, hsections⟩, htable⟩ := hranges
  refine ⟨hheader, fun _ => hprogram, ?_, ?_, fun _ => ?_⟩
  · intro header hmem hsize _
    exact hsegments _ ⟨header, hmem, if_neg (UInt64.pos_iff_ne_zero.1 hsize)⟩
  · intro header hmem hnobits hsize _
    refine hsections _ ⟨header, hmem, if_neg (not_or.2 ⟨?_, UInt64.pos_iff_ne_zero.1 hsize⟩)⟩
    rw [hnobits]
    exact Bool.false_ne_true
  · rw [sectionTableRange] at htable
    split at htable
    · rename_i hnone
      rw [hnone, hshoff hnone]
      exact (Nat.zero_le _).trans_eq' (by simp)
    · exact htable _ (List.mem_singleton_self _)

end Parse

namespace ElfImage

variable {image : ElfImage} {b : List UInt8}

/-- The end of the last structure of a built file is its length. -/
theorem lastStructureEnd_rebuilt (hbuilt : image.Built b)
    (hident : image.header.ident = image.ident)
    (hnames : ∀ sec ∈ image.sections, 0 ∉ strBytes sec.name) :
    (lastStructureEnd image.rebuilt).toNat = b.length := by
  have hpresent : image.Present b := by simpa using hbuilt.present hident []
  have hmax : maxImage < 2 ^ 64 := by decide
  have hlen := hbuilt.limit
  rw [← (imageOf_present hpresent hnames).2]
  apply Nat.le_antisymm
  · apply lastStructureEnd_le
    · rw [fileRanges_present hpresent]
      intro range hrange
      rcases List.mem_map.1 hrange with ⟨e, he, rfl⟩
      exact (hbuilt.stacked.bounds he).2
    · intro hnone
      have hcount := hpresent.laidOut.headerOf_shnum
      rw [hnone] at hcount
      rw [hpresent.laidOut.headerOf_shoff, builtShoff,
        if_pos (List.length_eq_zero_iff.1 hcount.symm)]
  · obtain ⟨e, he, hstop⟩ := hbuilt.stacked.exists_stop (by simp [layout])
    have hrange : e.range ∈ fileRanges b := by
      rw [fileRanges_present hpresent]
      exact List.mem_map.2 ⟨e, he, rfl⟩
    have hle := fileRanges_le_lastStructureEnd hrange (by
      rw [Extent.range, hstop]
      exact lt_of_le_of_lt hlen hmax)
    rw [Extent.range, hstop] at hle
    exact hle

end ElfImage

namespace ElfFile

/-- Rebuilding is a projection that keeps the trailing bytes: the built file parses to
a file with the same trailing bytes that builds to the same bytes. -/
theorem rebuild_fixed_point {data b : List UInt8} (hdata : data.length ≤ isizeMax)
    {file : ElfFile} (hparse : parse data = .ok file) (hbuild : file.tryBuild = .ok b) :
    ∃ file', parse b = .ok file' ∧ file'.trailing = file.trailing ∧
      file'.tryBuild = .ok b := by
  rcases (parse_eq_ok hdata).1 hparse with ⟨himage, htrailing⟩
  have hregular := (regular_of_parse hdata himage).1
  rw [tryBuild] at hbuild
  rcases Outcome.bind_eq_ok.1 hbuild with ⟨bytes, hbytes, hbuild⟩
  split at hbuild
  · cases hbuild
  rename_i hlen
  cases hbuild
  have hbuilt := ElfImage.tryBuild_eq_ok hbytes
  have hpresent := hbuilt.present hregular.ident file.trailing
  have hend := ElfImage.lastStructureEnd_rebuilt hbuilt hregular.ident hregular.names
  have hreparse := ElfImage.parse_build hregular.ident hregular.names hbytes
    (Nat.le_of_not_lt hlen)
  refine ⟨{ image := file.image.rebuilt, trailing := file.trailing }, ?_, rfl, ?_⟩
  · refine (parse_eq_ok (Nat.le_of_not_lt hlen)).2 ⟨hreparse, ?_⟩
    rw [hend, List.drop_left]
  · rw [tryBuild, ElfImage.tryBuild_rebuilt hpresent hregular, hbytes, Outcome.ok_bind,
      if_neg hlen]
    rfl

end ElfFile

theorem smallFile_fixed_point :
    ∃ file b file', ElfFile.parse smallFile = .ok file ∧ file.tryBuild = .ok b ∧
      ElfFile.parse b = .ok file' ∧ file'.tryBuild = .ok b := by
  obtain ⟨b, hb⟩ := Outcome.exists_of_isOk
    (show (ElfFile.parse smallFile >>= ElfFile.tryBuild).isOk = true by decide +kernel)
  rcases Outcome.bind_eq_ok.1 hb with ⟨file, hparse, hbuild⟩
  obtain ⟨file', hparse', -, hbuild'⟩ :=
    ElfFile.rebuild_fixed_point smallFile_length hparse hbuild
  exact ⟨file, b, file', hparse, hbuild, hparse', hbuild'⟩

end Elfex
