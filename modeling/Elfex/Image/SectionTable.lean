import Elfex.Image.Regular

/-!
# Section indices

Header fields and symbols name a section by its index in the section header table. The
file layout keeps every section of the table or none. The mapped layout drops a section
whose size it rejects, and does not check that the file declares a table.
-/

namespace Elfex

open Foundation

/-- The section header table, with one entry for each declared section. -/
def declaredSectionHeaders (data : List UInt8) : List SectionHeader :=
  (List.range (headerOf data).shnum.toNat).map (sectionHeaderAt data)

/-- An image has every declared section at its index, or none; and none when the file
declares no table. -/
structure ElfImage.KeepsIndices (image : ElfImage) (data : List UInt8) : Prop where
  indices : image.sections = [] ∨
    image.sections.map Section.header = declaredSectionHeaders data
  undeclared : (headerOf data).shoff = 0 ∨ (headerOf data).shnum = 0 → image.sections = []

/-- The mapped layout keeps no section of a string, or all the sections of its table. -/
def KeepsSections (data : List UInt8) : Prop :=
  ¬SectionTableInside data ∨
  (∀ header ∈ declaredSectionHeaders data, ¬Allocatable data header.mappedLength) ∨
  ((headerOf data).shoff ≠ 0 ∧
    ∀ header ∈ declaredSectionHeaders data, Allocatable data header.mappedLength)

instance (data : List UInt8) : Decidable (KeepsSections data) :=
  inferInstanceAs (Decidable (_ ∨ _ ∨ _))

theorem keepsIndices_imageOf (data : List UInt8) : (imageOf data).KeepsIndices data := by
  by_cases hnone : (headerOf data).shoff = 0 ∨ (headerOf data).shnum = 0
  · have hempty : (imageOf data).sections = [] := by
      rw [imageOf, sectionHeadersOf, if_pos hnone]
      rfl
    exact ⟨Or.inl hempty, fun _ => hempty⟩
  · refine ⟨Or.inr ?_, fun h => absurd h hnone⟩
    rw [imageOf, sectionHeadersOf, if_neg hnone, List.map_map]
    exact List.map_id _

theorem headers_mappedSectionsOf (data : List UInt8) (imageBase : UInt64) :
    (mappedSectionsOf data imageBase).map Section.header =
      (mappedSectionHeadersOf data).filter fun header =>
        Allocatable data header.mappedLength := by
  rw [mappedSectionsOf, List.map_map]
  exact List.map_id _

/-- The mapped layout keeps the entries of the table whose size it allocates. -/
theorem keepsIndices_mappedImageOf_iff (data : List UInt8) :
    (mappedImageOf data).KeepsIndices data ↔ KeepsSections data := by
  have hheaders : (mappedImageOf data).sections.map Section.header =
      (mappedSectionHeadersOf data).filter fun header =>
        Allocatable data header.mappedLength := headers_mappedSectionsOf data _
  by_cases htable : SectionTableInside data
  · have hdeclared : mappedSectionHeadersOf data = declaredSectionHeaders data :=
      if_pos htable
    rw [hdeclared] at hheaders
    have hempty : (mappedImageOf data).sections = [] ↔
        ∀ header ∈ declaredSectionHeaders data,
          ¬Allocatable data header.mappedLength := by
      rw [← List.map_eq_nil_iff, hheaders, List.filter_eq_nil_iff]
      simp only [decide_eq_true_eq]
    have hall : (mappedImageOf data).sections.map Section.header =
        declaredSectionHeaders data ↔
          ∀ header ∈ declaredSectionHeaders data,
            Allocatable data header.mappedLength := by
      rw [hheaders, List.filter_eq_self]
      simp only [decide_eq_true_eq]
    rw [KeepsSections, or_iff_right (not_not.2 htable), ← hempty, ← hall]
    constructor
    · rintro ⟨hnone | hsame, hundeclared⟩
      · exact Or.inl hnone
      · by_cases hshoff : (headerOf data).shoff = 0
        · exact Or.inl (hundeclared (Or.inl hshoff))
        · exact Or.inr ⟨hshoff, hsame⟩
    · rintro (hnone | ⟨hshoff, hsame⟩)
      · exact ⟨Or.inl hnone, fun _ => hnone⟩
      · refine ⟨Or.inr hsame, fun h => ?_⟩
        -- a table of no entries keeps none
        have hzero := h.resolve_left hshoff
        rw [declaredSectionHeaders, hzero] at hsame
        exact List.map_eq_nil_iff.1 hsame
  · have hempty : (mappedImageOf data).sections = [] := by
      rw [← List.map_eq_nil_iff, hheaders, mappedSectionHeadersOf, if_neg htable]
      rfl
    exact iff_of_true ⟨Or.inl hempty, fun _ => hempty⟩ (Or.inl htable)

/-- The sections of an image parsed in file layout always keep their indices; those of
one parsed in mapped layout do when no section of a declared table is dropped, or none is
kept. -/
theorem keepsIndices_iff {data : List UInt8} (hdata : data.length ≤ isizeMax)
    {layout : Layout} {image : ElfImage}
    (hparse : ElfImage.readFrom (sliceReader data) 0 layout = .ok image) :
    image.KeepsIndices data ↔ layout = .file ∨ KeepsSections data := by
  have hmax : isizeMax < 2 ^ 64 := by decide
  cases layout with
  | file =>
      obtain ⟨-, rfl⟩ := (parse_eq_ok hdata).1 hparse
      exact iff_of_true (keepsIndices_imageOf data) (Or.inl rfl)
  | mapped =>
      obtain ⟨-, rfl⟩ := (parseMapped_eq_ok (by omega)).1 hparse
      rw [or_iff_right (by simp)]
      exact keepsIndices_mappedImageOf_iff data

/-- The sections of the executable keep their indices when it is read as mapped. -/
theorem smallFile_keepsIndices :
    ∃ image, ElfImage.parseMapped smallFile = .ok image ∧ image.KeepsIndices smallFile := by
  obtain ⟨image, himage⟩ := Outcome.exists_of_isOk
    (show (ElfImage.parseMapped smallFile).isOk = true by decide +kernel)
  exact ⟨image, himage, (keepsIndices_iff smallFile_length himage).2
    (Or.inr (by decide +kernel))⟩

/-- A mapped executable of two sections whose first one is larger than the image. -/
def droppingMapped : List UInt8 :=
  { smallHeader with shoff := 120 }.write ++
    { smallLoad with offset := 0, filesz := 120, memsz := 120 }.write .little .elf64 ++
    { smallText with size := 0x10000 }.write .little .elf64 ++
    smallShstrtab.write .little .elf64

/-- A mapped executable with no section header table that counts one section. -/
def undeclaredMapped : List UInt8 :=
  { smallHeader with shoff := 0, shnum := 1, shstrndx := 0 }.write ++
    { smallLoad with offset := 0, filesz := 120, memsz := 120 }.write .little .elf64

/-- The second section is found at the index of the dropped first one, and the bytes of
the file header are read as a section header. -/
theorem mapped_loses_indices :
    (∃ image, ElfImage.parseMapped droppingMapped = .ok image ∧
      image.sections.map Section.header = [smallShstrtab] ∧
      declaredSectionHeaders droppingMapped =
        [{ smallText with size := 0x10000 }, smallShstrtab] ∧
      ¬image.KeepsIndices droppingMapped) ∧
    ∃ image, ElfImage.parseMapped undeclaredMapped = .ok image ∧
      (headerOf undeclaredMapped).shoff = 0 ∧ image.sections.length = 1 ∧
      ¬image.KeepsIndices undeclaredMapped := by
  constructor
  · obtain ⟨image, himage⟩ := Outcome.exists_of_isOk
      (show (ElfImage.parseMapped droppingMapped).isOk = true by decide +kernel)
    have hdescribed := ((parseMapped_eq_ok (by decide +kernel)).1 himage).2
    have hsections : (mappedImageOf droppingMapped).sections.map Section.header =
        [smallShstrtab] := by decide +kernel
    have hdeclared : declaredSectionHeaders droppingMapped =
        [{ smallText with size := 0x10000 }, smallShstrtab] := by decide +kernel
    rw [hdescribed] at hsections
    refine ⟨image, himage, hsections, hdeclared, fun hkeeps => ?_⟩
    rcases hkeeps.indices with hnone | hsame
    · rw [hnone] at hsections
      cases hsections
    · rw [hsections, hdeclared] at hsame
      cases hsame
  · obtain ⟨image, himage⟩ := Outcome.exists_of_isOk
      (show (ElfImage.parseMapped undeclaredMapped).isOk = true by decide +kernel)
    have hdescribed := ((parseMapped_eq_ok (by decide +kernel)).1 himage).2
    have hsections : (mappedImageOf undeclaredMapped).sections.length = 1 := by
      decide +kernel
    have hshoff : (headerOf undeclaredMapped).shoff = 0 := by decide +kernel
    rw [hdescribed] at hsections
    refine ⟨image, himage, hshoff, hsections, fun hkeeps => ?_⟩
    rw [hkeeps.undeclared (Or.inl hshoff)] at hsections
    cases hsections

end Elfex
