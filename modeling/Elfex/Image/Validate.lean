import Mathlib.Data.List.Sort
import Elfex.Foundation.Neighbours
import Elfex.Image.Loaded

/-!
# Structural validation

The checks of an image that the parser leaves open. Each check reports its own issues, in
check order. Overlaps are looked for between neighbours of the loads sorted by address.
-/

namespace Elfex

open Foundation

/-- The severity of an issue. -/
inductive ValidationLevel where
  | warning
  | error
  deriving DecidableEq, Repr

/-- The check that reports an issue. -/
inductive ValidationCode where
  | invalidMagic
  | unsupportedClass
  | unsupportedDataEncoding
  | invalidType
  | entryPointOutOfImage
  | overlappingSegments
  | segmentFileRangeOutOfBounds
  | segmentVaddrMisaligned
  | invalidProgramHeaderCount
  | sectionFileRangeOutOfBounds
  | invalidStringTableIndex
  | noLoadSegments
  deriving DecidableEq, Repr

structure ValidationIssue where
  level : ValidationLevel
  code : ValidationCode
  message : String
  context : Option String
  deriving DecidableEq, Repr

namespace ValidationIssue

def warning (code : ValidationCode) (message : String) : ValidationIssue :=
  { level := .warning, code, message, context := none }

def error (code : ValidationCode) (message : String) : ValidationIssue :=
  { level := .error, code, message, context := none }

def withContext (issue : ValidationIssue) (context : String) : ValidationIssue :=
  { issue with context := some context }

end ValidationIssue

/-- Every finding, in check order. -/
structure ValidationResult where
  issues : List ValidationIssue
  deriving DecidableEq, Repr

def ValidationResult.isOk (result : ValidationResult) : Bool := result.issues.isEmpty

/-- The findings of error severity. -/
def ValidationResult.errors (result : ValidationResult) : List ValidationIssue :=
  result.issues.filter fun issue => issue.level == .error

/-- The findings of warning severity. -/
def ValidationResult.warnings (result : ValidationResult) : List ValidationIssue :=
  result.issues.filter fun issue => issue.level == .warning

def ValidationResult.hasErrors (result : ValidationResult) : Bool :=
  result.issues.any fun issue => issue.level == .error

/-- A value in hexadecimal, with its prefix. -/
def hexadecimal (value : UInt64) : String := "0x" ++ String.ofList (Nat.toDigits 16 value.toNat)

/-- The addresses of a load and its index among the loads. -/
structure LoadRange where
  start : UInt64
  stop : UInt64
  index : ℕ
  deriving DecidableEq, Repr

namespace LoadRange

/-- The order of ranges as tuples. -/
def Le (a b : LoadRange) : Prop :=
  a.start < b.start ∨ a.start = b.start ∧ (a.stop < b.stop ∨ a.stop = b.stop ∧ a.index ≤ b.index)

instance : DecidableRel Le := fun a b => inferInstanceAs (Decidable (a.start < b.start ∨ _))

def ofSegment (segment : Segment) (index : ℕ) : LoadRange where
  start := segment.header.vaddr
  stop := saturatingAdd segment.header.vaddr segment.header.memsz
  index := index

/-- The issue of two neighbours, when the first one ends inside the second one. -/
def overlapIssue (first second : LoadRange) : Option ValidationIssue :=
  if second.start < first.stop then
    some ((ValidationIssue.error .overlappingSegments
      "two loadable segments overlap in memory").withContext
        ("segments " ++ toString first.index ++ " and " ++ toString second.index))
  else none

end LoadRange

namespace ElfImage

def loads (image : ElfImage) : List Segment :=
  image.segments.filter fun segment => segment.header.isLoad

def loadIssues (image : ElfImage) : List ValidationIssue :=
  if image.loads = [] then
    [.warning .noLoadSegments "the object declares no loadable segment"]
  else []

/-- Tests whether the entry point lies outside the mapped image. -/
def entryOutside (image : ElfImage) : Bool :=
  match checkedAdd image.imageBase image.imageSpan with
  | some imageEnd => image.header.entry < image.imageBase || imageEnd ≤ image.header.entry
  | none => true

def entryIssues (image : ElfImage) : List ValidationIssue :=
  if image.header.entry ≠ 0 ∧ image.entryOutside then
    [(ValidationIssue.warning .entryPointOutOfImage
      "the entry point lies outside the mapped image").withContext
        (hexadecimal image.header.entry)]
  else []

/-- The ranges of the loads, sorted. They differ in their indices, so an unstable sort has
one result. -/
def loadRanges (image : ElfImage) : List LoadRange :=
  (image.loads.zipIdx.map fun entry => LoadRange.ofSegment entry.1 entry.2).insertionSort
    LoadRange.Le

def overlapIssues (image : ElfImage) : List ValidationIssue :=
  (image.loadRanges.zip image.loadRanges.tail).filterMap fun pair =>
    LoadRange.overlapIssue pair.1 pair.2

/-- The issues of one load. -/
def segmentIssues (segment : Segment) (index : ℕ) : List ValidationIssue :=
  let header := segment.header
  let context := "segment " ++ toString index
  (if header.memsz < header.filesz then
    [(ValidationIssue.error .segmentFileRangeOutOfBounds
      "a segment declares more file bytes than memory bytes").withContext context]
  else []) ++
  if 1 < header.align ∧ header.offset % header.align ≠ header.vaddr % header.align ∧
      0 < header.filesz then
    [(ValidationIssue.warning .segmentVaddrMisaligned
      "a segment file offset is not congruent with its virtual address").withContext context]
  else []

/-- Tests whether the name table index names a string table. -/
def stringTableValid (image : ElfImage) : Bool :=
  match image.sections[image.header.shstrndx.toNat]? with
  | some sec => sec.header.type == SectionType.strtab
  | none => false

def stringTableIssues (image : ElfImage) : List ValidationIssue :=
  if image.header.shnum ≠ 0 ∧ !image.stringTableValid then
    [.warning .invalidStringTableIndex
      "the section-name string table index names no string table"]
  else []

def validate (image : ElfImage) : ValidationResult where
  issues := image.loadIssues ++ image.entryIssues ++ image.overlapIssues ++
    image.loads.zipIdx.flatMap (fun entry => segmentIssues entry.1 entry.2) ++
    image.stringTableIssues

/-! ## Images without issues -/

/-- What the checks ask of an image. -/
structure Unremarkable (image : ElfImage) : Prop where
  loads : image.loads ≠ []
  entry : image.header.entry ≠ 0 → image.entryOutside = false
  ranges : ∀ pair ∈ image.loadRanges.zip image.loadRanges.tail, pair.1.stop ≤ pair.2.start
  sizes : ∀ segment ∈ image.loads, segment.header.filesz ≤ segment.header.memsz
  congruent : ∀ segment ∈ image.loads, 1 < segment.header.align → 0 < segment.header.filesz →
    segment.header.offset % segment.header.align = segment.header.vaddr % segment.header.align
  stringTable : image.header.shnum ≠ 0 → image.stringTableValid = true

theorem segmentIssues_eq_nil {segment : Segment} {index : ℕ}
    (hsize : segment.header.filesz ≤ segment.header.memsz)
    (hcongruent : 1 < segment.header.align → 0 < segment.header.filesz →
      segment.header.offset % segment.header.align =
        segment.header.vaddr % segment.header.align) : segmentIssues segment index = [] := by
  rw [segmentIssues, if_neg (UInt64.not_lt.2 hsize), if_neg, List.append_nil]
  rintro ⟨halign, hne, hpos⟩
  exact hne (hcongruent halign hpos)

/-- An image that meets every check has no issues. -/
theorem Unremarkable.validate_eq {image : ElfImage} (h : image.Unremarkable) :
    image.validate.issues = [] := by
  have hloads : image.loadIssues = [] := if_neg h.loads
  have hentry : image.entryIssues = [] :=
    if_neg fun hissue => absurd hissue.2 (by rw [h.entry hissue.1]; decide)
  have hoverlaps : image.overlapIssues = [] :=
    List.filterMap_eq_nil_iff.2 fun pair hpair => if_neg (UInt64.not_lt.2 (h.ranges pair hpair))
  have hsegments : image.loads.zipIdx.flatMap
      (fun entry => segmentIssues entry.1 entry.2) = [] := by
    refine List.flatMap_eq_nil_iff.2 fun entry hentry => ?_
    have hmem := List.fst_mem_of_mem_zipIdx hentry
    exact segmentIssues_eq_nil (h.sizes _ hmem) (h.congruent _ hmem)
  have htable : image.stringTableIssues = [] :=
    if_neg fun hissue => absurd hissue.2 (by rw [h.stringTable hissue.1]; decide)
  rw [validate, hloads, hentry, hoverlaps, hsegments, htable]
  rfl

end ElfImage

/-! ## Sorted ranges -/

namespace LoadRange

theorem le_iff (a b : LoadRange) : Le a b ↔ a.start.toNat < b.start.toNat ∨
    a.start.toNat = b.start.toNat ∧ (a.stop.toNat < b.stop.toNat ∨
      a.stop.toNat = b.stop.toNat ∧ a.index ≤ b.index) := by
  rw [Le, UInt64.lt_iff_toNat_lt, UInt64.lt_iff_toNat_lt, UInt64.toNat_inj, UInt64.toNat_inj]

instance : Std.Total Le where
  total a b := by
    rw [le_iff, le_iff]
    omega

instance : IsTrans LoadRange Le where
  trans a b c := by
    rw [le_iff, le_iff, le_iff]
    omega

/-- The ranges have addresses, and none in common. -/
def Apart (a b : LoadRange) : Prop :=
  a.start < a.stop ∧ b.start < b.stop ∧ (a.stop ≤ b.start ∨ b.stop ≤ a.start)

theorem Apart.symm {a b : LoadRange} (h : Apart a b) : Apart b a := ⟨h.2.1, h.1, h.2.2.symm⟩

/-- The first of two ordered ranges ends before the second one. -/
theorem Apart.stop_le {a b : LoadRange} (h : Apart a b) (hle : Le a b) : a.stop ≤ b.start := by
  obtain ⟨ha, hb, hstop | hstop⟩ := h
  · exact hstop
  · rw [le_iff] at hle
    rw [UInt64.lt_iff_toNat_lt] at ha hb
    rw [UInt64.le_iff_toNat_le] at hstop
    omega

end LoadRange

/-- Neighbours among the sorted ranges of disjoint loads do not overlap. -/
theorem ElfImage.ranges_of_apart {image : ElfImage}
    (h : image.loads.Pairwise fun s t =>
      ∀ i j, LoadRange.Apart (LoadRange.ofSegment s i) (LoadRange.ofSegment t j)) :
    ∀ pair ∈ image.loadRanges.zip image.loadRanges.tail, pair.1.stop ≤ pair.2.start := by
  have hgiven : (image.loads.zipIdx.map fun entry =>
      LoadRange.ofSegment entry.1 entry.2).Pairwise LoadRange.Apart := by
    rw [← List.zipIdx_map_fst 0 image.loads, List.pairwise_map] at h
    rw [List.pairwise_map]
    exact h.imp fun hapart => hapart _ _
  have hsorted : image.loadRanges.Pairwise LoadRange.Le := List.pairwise_insertionSort _ _
  have hapart : image.loadRanges.Pairwise LoadRange.Apart :=
    ((List.perm_insertionSort _ _).pairwise_iff LoadRange.Apart.symm).2 hgiven
  intro pair hpair
  have hboth := forall_zip_tail (hapart.and hsorted) pair hpair
  exact hboth.1.stop_le hboth.2

end Elfex
