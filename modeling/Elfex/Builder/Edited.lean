import Elfex.Builder.MappedLoads
import Elfex.Image.Narrowing

/-!
# Images after edits

Wherever an image comes from, edits that leave the encoding of its file header alone keep
it coherent, and a build of the narrow class carries exactly the fields that fit it.
-/

namespace Elfex

open Foundation

namespace ElfImage

/-- The image comes from the parser or from a builder. -/
def Obtained (image : ElfImage) : Prop :=
  (∃ data : List UInt8, data.length ≤ isizeMax ∧ ElfImage.parse data = .ok image) ∨
    ∃ builder : ElfBuilder, builder.tryBuild = .ok image

/-- A builder returns what the parser makes of the bytes it built. -/
theorem Obtained.editable {image : ElfImage} (h : image.Obtained) :
    Editable image.ident image := by
  rcases h with ⟨data, hdata, hparse⟩ | ⟨builder, hbuilder⟩
  · exact editable_of_parse hdata hparse
  · obtain ⟨bytes, hlen, hparse, -, -⟩ := ElfBuilder.segments_of_tryBuild hbuilder
    exact editable_of_parse hlen hparse

theorem Editable.sameEncoding {ident : ElfIdent} {image : ElfImage}
    (h : Editable ident image) : SameEncoding image.header.ident image.ident := by
  rw [h.ident_eq]
  exact h.encoding

end ElfImage

/-- In a run of edits that keep the class and the byte order of the file header's
identification, every state is coherent. -/
theorem coherent_of_edits {image : ElfImage} (hobtained : image.Obtained) (edits : List Edit)
    (hkeeps : ∀ edit ∈ edits, edit.KeepsEncoding image.ident) :
    (Edit.run image edits).Coherent := by
  have heditable := hobtained.editable.run hkeeps
  exact ElfImage.coherent_of_sameEncoding heditable.sameEncoding heditable.segments

theorem smallFile_obtained : (imageOf smallFile).Obtained := by
  refine Or.inl ⟨smallFile, smallFile_length, ?_⟩
  exact (parse_eq_ok smallFile_length).2 ⟨smallFile_accepted, rfl⟩

/-- A new entry, a patched byte and a dropped section table. -/
theorem smallFile_edited_coherent :
    (Edit.run (imageOf smallFile) [.headerMut { smallHeader with entry := 0x1001 },
      .writeAtIoff 0 [0xcc], .sectionsMut []]).Coherent := by
  refine coherent_of_edits smallFile_obtained _ ?_
  rw [List.forall_mem_cons, List.forall_mem_cons, List.forall_mem_singleton]
  have hident : identOf smallFile = smallHeader.ident := by decide +kernel
  have hsame : ElfImage.SameEncoding smallHeader.ident (imageOf smallFile).ident := by
    change ElfImage.SameEncoding smallHeader.ident (identOf smallFile)
    rw [hident]
    exact ⟨rfl, rfl⟩
  exact ⟨hsame, trivial, trivial⟩

/-- The header of the small executable with another class in its identification. -/
def reclassedHeader : ElfHeader :=
  { smallHeader with ident := { smallHeader.ident with elfClass := .elf32 } }

/-- The header of the small executable with another byte order in its identification. -/
def swappedHeader : ElfHeader :=
  { smallHeader with ident := { smallHeader.ident with data := .big } }

theorem swapped_table : ((Edit.run (imageOf smallFile) [.headerMut swappedHeader]).tryBuild >>=
    fun b => pure ((headerOf b).phoff.toNat, (identOf b).data, (identOf b).elfClass,
      (window b 64 56).take 4)) = .ok (64, .big, .elf64, [1, 0, 0, 0]) := by
  decide +kernel

theorem swapped_headers :
    (Edit.run (imageOf smallFile) [.headerMut swappedHeader]).builtProgramHeaders =
      [{ smallLoad with offset := 128 }] := by decide +kernel

/-- With another class in its file header the image cannot be serialized, and with another
byte order the program header table is not encoded as announced. -/
theorem smallFile_edits_incoherent :
    (imageOf smallFile).Obtained ∧
      ¬(Edit.run (imageOf smallFile) [.headerMut reclassedHeader]).Coherent ∧
      ¬(Edit.run (imageOf smallFile) [.headerMut swappedHeader]).Coherent := by
  refine ⟨smallFile_obtained, fun h => ?_, fun h => ?_⟩
  · have hfault : (Edit.run (imageOf smallFile) [.headerMut reclassedHeader]).tryBuild =
        Outcome.fault := by decide +kernel
    exact h.defined hfault
  · obtain ⟨b, hb, hret⟩ := Outcome.bind_eq_ok.1 swapped_table
    have hheld := (h.encoded b hb).programHeaders.2
    simp only [pure, Except.pure, Except.ok.injEq, Prod.mk.injEq] at hret
    obtain ⟨hphoff, hdata, hclass, hfirst⟩ := hret
    rw [hphoff, hdata, hclass, swapped_headers] at hheld
    -- the table starts with the low byte of the type, not with its high one
    have hlen : ([({ smallLoad with offset := 128 } : ProgramHeader)].flatMap fun phdr =>
        phdr.write .big .elf64).length = 56 := by decide +kernel
    have hhigh : ([({ smallLoad with offset := 128 } : ProgramHeader)].flatMap fun phdr =>
        phdr.write .big .elf64).take 4 = [0, 0, 0, 1] := by decide +kernel
    dsimp only at hheld
    rw [hlen] at hheld
    rw [hheld, hhigh] at hfirst
    cases hfirst

/-! ## The narrow class -/

/-- A build never loses a high half: what it returns carries the image, and an image with
a high half is rejected. -/
def ElfImage.NeverNarrows (image : ElfImage) : Prop :=
  (∀ b image', image.tryBuild = .ok b → ElfImage.parse b = .ok image' →
    image.CarriedBy image') ∧
  (¬image.Fits32 → image.tryBuild.IsErr)

/-- An edited image of the narrow class that a build accepts loses no high half exactly
when it has none and its tables, if the file is parsed at all, are read as they were
written. What is read back carries the image under the same condition. -/
theorem neverNarrows_iff {image : ElfImage} (hclass : image.ident.elfClass = .elf32)
    {edits : List Edit} {b : List UInt8} (hbuild : (Edit.run image edits).tryBuild = .ok b) :
    ((Edit.run image edits).NeverNarrows ↔ (Edit.run image edits).Fits32 ∧
        ∀ image', ElfImage.parse b = .ok image' → (Edit.run image edits).ReadAlike) ∧
      ∀ image', ElfImage.parse b = .ok image' → ((Edit.run image edits).CarriedBy image' ↔
        (Edit.run image edits).Fits32 ∧ (Edit.run image edits).ReadAlike) := by
  rw [← ElfImage.ident_run image edits] at hclass
  generalize Edit.run image edits = edited at hclass hbuild ⊢
  have hbuilt := ElfImage.tryBuild_eq_ok hbuild
  have hlaidOut : edited.LaidOut b := by
    simpa using hbuilt.laidOut (ElfImage.elfClass_of_tryBuild hbuild) []
  have hcarried : ∀ image', ElfImage.parse b = .ok image' →
      (edited.CarriedBy image' ↔ edited.Fits32 ∧ edited.ReadAlike) := fun image' hparse =>
    ElfImage.carriedBy_iff hlaidOut hclass (hbuilt.limit.trans (by decide)) hparse
  refine ⟨⟨fun hnever => ?_, fun ⟨hfits, halike⟩ => ⟨fun c image' hc hparse => ?_, ?_⟩⟩, hcarried⟩
  · refine ⟨?_, fun image' hparse => ?_⟩
    · by_contra hnot
      exact (hnever.2 hnot).ne_ok b hbuild
    · exact ((hcarried image' hparse).1 (hnever.1 b image' hbuild hparse)).2
  · obtain rfl : b = c := Except.ok.inj (hbuild.symm.trans hc)
    exact (hcarried image' hparse).2 ⟨hfits, halike image' hparse⟩
  · exact fun hnot => absurd hfits hnot

/-- The header of an executable of the narrow class without segments. -/
def narrowHeader : ElfHeader :=
  { smallHeader with
    ident := { smallHeader.ident with elfClass := .elf32 }
    phoff := 52, shoff := 0, ehsize := 52, phentsize := 32, phnum := 0, shnum := 0
    shstrndx := 0 }

def narrowFile : List UInt8 := narrowHeader.write

theorem narrowFile_obtained : (imageOf narrowFile).Obtained := by
  have hlen : narrowFile.length ≤ isizeMax := by decide +kernel
  obtain ⟨image, himage⟩ := Outcome.exists_of_isOk
    (show (ElfImage.parse narrowFile).isOk = true by decide +kernel)
  exact Or.inl ⟨narrowFile, hlen,
    (parse_eq_ok hlen).2 ⟨((parse_eq_ok hlen).1 himage).1, rfl⟩⟩

theorem narrowFile_class : (imageOf narrowFile).ident.elfClass = .elf32 := by decide +kernel

/-- The small executable in the narrow class: code, names and two sections. -/
def narrowTablesFile : List UInt8 :=
  { smallHeader with
    ident := { smallHeader.ident with elfClass := .elf32 }, phoff := 52, shoff := 103
    ehsize := 52, phentsize := 32, shentsize := 40 }.write ++
    { smallLoad with offset := 84, memsz := 16 }.write .little .elf32 ++ [0x90, 0xc3] ++
    (0 :: strBytes ".text" ++ 0 :: strBytes ".shstrtab" ++ [0]) ++
    { smallText with offset := 84 }.write .little .elf32 ++
    { smallShstrtab with offset := 86 }.write .little .elf32

/-- With a larger entry and a patched byte. -/
def narrowTablesImage : ElfImage :=
  Edit.run (imageOf narrowTablesFile)
    [.headerMut { (imageOf narrowTablesFile).header with entry := 0xffffffff },
      .writeAtIoff 1 [0xcc]]

/-- An entry of 32 bits is kept, and so are the fields of the segment and of the sections. -/
theorem narrowTablesFile_kept :
    ElfImage.parse narrowTablesFile = .ok (imageOf narrowTablesFile) ∧
      narrowTablesImage.wideFields = [0xffffffff, 0x1000, 0x1000, 16, 16, 6, 0x1000, 1, 0,
        0, 0, 1, 0] ∧ narrowTablesImage.NeverNarrows := by
  have hparse : ElfImage.parse narrowTablesFile = .ok (imageOf narrowTablesFile) :=
    parse_imageOf (by decide +kernel) (by decide +kernel)
  obtain ⟨b, hb⟩ := Outcome.exists_of_isOk
    (show narrowTablesImage.tryBuild.isOk = true by decide +kernel)
  have hfits : narrowTablesImage.Fits32 := by decide +kernel
  refine ⟨hparse, by decide +kernel, (neverNarrows_iff (by decide +kernel) hb).1.2 ⟨hfits, ?_⟩⟩
  exact fun _ _ => hfits.readAlike (by decide +kernel)

/-- A larger entry is truncated. -/
theorem narrowFile_truncated : (imageOf narrowFile).Obtained ∧
    (imageOf narrowFile).ident.elfClass = .elf32 ∧ ¬(Edit.run (imageOf narrowFile)
      [.headerMut { narrowHeader with entry := 0x100000000 }]).NeverNarrows := by
  refine ⟨narrowFile_obtained, narrowFile_class, fun hnever => ?_⟩
  obtain ⟨b, hb⟩ := Outcome.exists_of_isOk (show (Edit.run (imageOf narrowFile)
    [.headerMut { narrowHeader with entry := 0x100000000 }]).tryBuild.isOk = true by
      decide +kernel)
  exact (hnever.2 (by decide +kernel)).ne_ok b hb

end Elfex
