import Mathlib.Data.Int.Notation
import Elfex.Image.Regular
import Elfex.Image.Relocated

/-!
# What a rebased image holds

The words of the relative relocations of an image mapped at another base differ from
those of the image mapped at its preferred base by the base change, modulo their width,
and every other byte is the same. For an entry with an explicit addend this is the
relocated address only if the stored word is the addend already.
-/

namespace Elfex

open Foundation

/-- Adding a word difference is adding the difference of the words, modulo a width no
larger than the word. -/
theorem natCast_add_sub (n : ℕ) (a b : UInt64) {w : ℕ} (hw : w = 4 ∨ w = 8) :
    (((n + (a - b).toNat) % 256 ^ w : ℕ) : ℤ) =
      (n + ((a.toNat : ℤ) - b.toNat)) % 2 ^ (8 * w) := by
  have ha := a.toNat_lt
  have hb := b.toNat_lt
  rw [UInt64.toNat_sub]
  rcases hw with rfl | rfl
  · norm_num
    omega
  · norm_num
    omega

namespace ElfImage

variable {image : ElfImage}

/-- Mapping an image at another base shifts exactly the slots of its relative
relocations, when no two of them overlap. -/
theorem toMappedImageAt_shifts_slots {base : UInt64} {mapped rebased : List UInt8}
    (hmapped : image.toMappedImage = .ok mapped)
    (hrebased : image.toMappedImageAt base = .ok rebased)
    (hdisjoint : image.relativeSlots.Pairwise Slot.Disjoint) :
    rebased.length = mapped.length ∧
    (∀ slot ∈ image.relativeSlots,
      (slot.read image.ident.data.byteOrder rebased : ℤ) =
        (slot.read image.ident.data.byteOrder mapped +
          ((base.toNat : ℤ) - image.imageBase.toNat)) % 2 ^ (8 * slot.width)) ∧
    ∀ a, (∀ slot ∈ image.relativeSlots, ¬slot.Holds a) → rebased[a]? = mapped[a]? := by
  obtain ⟨-, rfl⟩ := (toMappedImage_eq_ok image).1 hmapped
  obtain ⟨-, -, rfl⟩ := toMappedImageAt_eq_ok_iff.1 hrebased
  have hinside := relativeSlots_inside (length_mappedAtBase image)
  refine ⟨Slot.length_shiftAll _ hinside, fun slot hslot => ?_, fun a ha => ?_⟩
  · rw [Slot.read_shiftAll_of_mem _ hinside hdisjoint hslot]
    exact natCast_add_sub _ _ _ (width_of_mem_relativeSlots hslot)
  · exact Slot.getElem?_shiftAll_of_not_holds _ hinside ha

/-- The slot of an entry that overlaps no other entry's slot. -/
def Isolated (image : ElfImage) (k : ℕ) (slot : Slot) : Prop :=
  ∀ j entry other, j ≠ k → image.relocationEntries[j]? = some entry →
    image.relativeSlot entry = some other → slot.Disjoint other

/-- The slot of an isolated entry is shifted once. -/
theorem read_isolated {base : UInt64} {rebased : List UInt8}
    (hrebased : image.toMappedImageAt base = .ok rebased) {k : ℕ} {entry : RelocationEntry}
    {slot : Slot} (hentry : image.relocationEntries[k]? = some entry)
    (hslot : image.relativeSlot entry = some slot) (hisolated : image.Isolated k slot) :
    slot.read image.ident.data.byteOrder rebased =
      (slot.read image.ident.data.byteOrder image.mappedAtBase +
        (base - image.imageBase).toNat) % 256 ^ slot.width := by
  obtain ⟨-, -, rfl⟩ := toMappedImageAt_eq_ok_iff.1 hrebased
  obtain ⟨hk, hget⟩ := List.getElem?_eq_some_iff.1 hentry
  have hsplit : image.relativeSlots =
      (image.relocationEntries.take k).filterMap image.relativeSlot ++ slot ::
        (image.relocationEntries.drop (k + 1)).filterMap image.relativeSlot := by
    rw [relativeSlots]
    conv_lhs => rw [← List.take_append_drop k image.relocationEntries,
      List.drop_eq_getElem_cons hk, hget]
    rw [List.filterMap_append, List.filterMap_cons_some hslot]
  have hinside := relativeSlots_inside (length_mappedAtBase image)
  rw [hsplit] at hinside ⊢
  apply Slot.read_shiftAll_of_isolated _ hinside
  · intro other hother
    obtain ⟨entry', hmem, hslot'⟩ := List.mem_filterMap.1 hother
    obtain ⟨j, hj, rfl⟩ := List.mem_take_iff_getElem.1 hmem
    exact hisolated j _ other (by omega) (List.getElem?_eq_getElem _) hslot'
  · intro other hother
    obtain ⟨entry', hmem, hslot'⟩ := List.mem_filterMap.1 hother
    obtain ⟨j, hj, rfl⟩ := List.mem_iff_getElem.1 hmem
    rw [List.getElem_drop] at hslot'
    exact hisolated (k + 1 + j) _ other (by omega) (List.getElem?_eq_getElem _) hslot'

/-- A relative relocation of an x86-64 image adjusts an eight-byte word. -/
theorem relocationWidth_x86_64 {rType : UInt32}
    (h : relocationKind Machine.x86_64 rType = .relative) :
    relocationWidth Machine.x86_64 rType = some 8 := by
  have h8 : rType.toNat = 8 := by
    simp only [relocationKind, show Machine.x86_64.toNat = 62 from rfl] at h
    split at h
    · assumption
    all_goals cases h
  rw [relocationWidth, h8]
  rfl

/-- The word of a relative relocation of an x86-64 image is the base change added to the
word stored there. It is the base change added to the addend of the entry exactly when
the stored word is the addend. -/
theorem relaSlot_rebased (hmachine : image.header.machine = Machine.x86_64)
    {base : UInt64} {rebased : List UInt8}
    (hrebased : image.toMappedImageAt base = .ok rebased) {k : ℕ} {entry : RelocationEntry}
    {slot : Slot} (hentry : image.relocationEntries[k]? = some entry)
    (hslot : image.relativeSlot entry = some slot) (hisolated : image.Isolated k slot) :
    slot.width = 8 ∧ ∃ mapped, image.toMappedImage = .ok mapped ∧
      (slot.read image.ident.data.byteOrder rebased : ℤ) =
        ((base.toNat : ℤ) - image.imageBase.toNat +
          slot.read image.ident.data.byteOrder mapped) % 2 ^ 64 ∧
      ∀ addend, entry.addend = some addend →
        ((slot.read image.ident.data.byteOrder rebased : ℤ) =
            ((base.toNat : ℤ) - image.imageBase.toNat + addend.toInt) % 2 ^ 64 ↔
          (slot.read image.ident.data.byteOrder mapped : ℤ) = addend.toInt % 2 ^ 64) := by
  have hwidth : slot.width = 8 := by
    obtain ⟨hkind, -, -, ⟨width, hwidth, hslot⟩, -⟩ := relativeSlot_eq_some.1 hslot
    rw [hmachine] at hkind hwidth
    rw [relocationWidth_x86_64 hkind] at hwidth
    rw [hslot, ← Option.some.inj hwidth]
    rfl
  obtain ⟨hmappable, -⟩ := toMappedImageAt_eq_ok_iff.1 hrebased
  have hread := natCast_add_sub (slot.read image.ident.data.byteOrder image.mappedAtBase) base
    image.imageBase (Or.inr hwidth)
  rw [← read_isolated hrebased hentry hslot hisolated, hwidth] at hread
  have hlt : slot.read image.ident.data.byteOrder image.mappedAtBase < 256 ^ slot.width := by
    apply Slot.read_lt
    rw [length_mappedAtBase]
    exact (relativeSlot_eq_some.1 hslot).2.2.2.2
  rw [hwidth] at hlt
  refine ⟨hwidth, _, (toMappedImage_eq_ok image).2 ⟨hmappable, rfl⟩, ?_, fun addend _ => ?_⟩
  · rw [hread]
    congr 1
    omega
  · rw [hread]
    omega

end ElfImage

/-- An x86-64 executable of two words, each with a relocation table of its own. -/
def tablesFile : List UInt8 :=
  { smallHeader with shoff := 184, shnum := 2, shstrndx := 0 }.write ++
    { smallLoad with vaddr := 0x1100, filesz := 16, memsz := 16 }.write .little .elf64 ++
    Endian.little.u64Bytes 8 ++ Endian.little.u64Bytes 16 ++
    Endian.little.u64Bytes 0x1100 ++ Endian.little.u64Bytes 8 ++ Endian.little.u64Bytes 8 ++
    Endian.little.u64Bytes 0x1108 ++ Endian.little.u64Bytes 8 ++ Endian.little.u64Bytes 16 ++
    { smallText with
      type := SectionType.rela, flags := 0, addr := 0, offset := 136,
      size := 24 }.write .little .elf64 ++
    { smallText with
      type := SectionType.rela, flags := 0, addr := 0, offset := 160,
      size := 24 }.write .little .elf64

theorem tablesFile_slots : (imageOf tablesFile).relativeSlots = [⟨0x100, 8⟩, ⟨0x108, 8⟩] := by
  decide +kernel

/-- Mapping the executable a page higher adds a page to its words. -/
theorem tablesFile_shifts :
    ∃ image mapped rebased, ElfImage.parse tablesFile = .ok image ∧
      image.toMappedImage = .ok mapped ∧ image.toMappedImageAt 0x2000 = .ok rebased ∧
      rebased.length = mapped.length ∧
      (Slot.read image.ident.data.byteOrder rebased ⟨0x100, 8⟩ : ℤ) =
        (Slot.read image.ident.data.byteOrder mapped ⟨0x100, 8⟩ + 0x1000) % 2 ^ 64 ∧
      (Slot.read image.ident.data.byteOrder rebased ⟨0x108, 8⟩ : ℤ) =
        (Slot.read image.ident.data.byteOrder mapped ⟨0x108, 8⟩ + 0x1000) % 2 ^ 64 := by
  have himage : ElfImage.parse tablesFile = .ok (imageOf tablesFile) :=
    parse_imageOf (by decide +kernel) (by decide +kernel)
  obtain ⟨mapped, hmapped⟩ := Outcome.exists_of_isOk
    (show (imageOf tablesFile).toMappedImage.isOk = true by decide +kernel)
  obtain ⟨rebased, hrebased⟩ := Outcome.exists_of_isOk
    (show ((imageOf tablesFile).toMappedImageAt 0x2000).isOk = true by decide +kernel)
  have hbase : (imageOf tablesFile).imageBase = 0x1000 := by decide +kernel
  obtain ⟨hlen, hshifted, -⟩ := ElfImage.toMappedImageAt_shifts_slots hmapped hrebased
    (by rw [tablesFile_slots]; decide)
  rw [tablesFile_slots, hbase, List.forall_mem_cons, List.forall_mem_singleton] at hshifted
  exact ⟨_, mapped, rebased, himage, hmapped, hrebased, hlen, hshifted.1, hshifted.2⟩

/-- An x86-64 executable of one word at `0x1100`, which a relative relocation with the
addend 8 points at. -/
def relaFile (stored : UInt64) : List UInt8 :=
  { smallHeader with shoff := 152, shnum := 1, shstrndx := 0 }.write ++
    { smallLoad with vaddr := 0x1100, filesz := 8, memsz := 8 }.write .little .elf64 ++
    Endian.little.u64Bytes stored ++ Endian.little.u64Bytes 0x1100 ++
    Endian.little.u64Bytes 8 ++ Endian.little.u64Bytes 8 ++
    { smallText with
      type := SectionType.rela, flags := 0, addr := 0, offset := 128,
      size := 24 }.write .little .elf64

/-- The only entry of the executable's relocation table, and its slot. -/
theorem relaFile_entries (stored : UInt64)
    (h : ((imageOf (relaFile stored)).relocationEntries,
      (imageOf (relaFile stored)).relativeSlots) =
        ([⟨0x1100, 0, 8, some 8⟩], [⟨0x100, 8⟩])) :
    (imageOf (relaFile stored)).relocationEntries[0]? = some ⟨0x1100, 0, 8, some 8⟩ ∧
      (imageOf (relaFile stored)).relativeSlot ⟨0x1100, 0, 8, some 8⟩ = some ⟨0x100, 8⟩ ∧
      (imageOf (relaFile stored)).Isolated 0 ⟨0x100, 8⟩ := by
  obtain ⟨hentries, hslots⟩ := Prod.mk.inj h
  rw [ElfImage.relativeSlots, hentries] at hslots
  refine ⟨by rw [hentries]; rfl, ?_, fun j entry other hj hentry _ => ?_⟩
  · cases hslot : (imageOf (relaFile stored)).relativeSlot ⟨0x1100, 0, 8, some 8⟩ with
    | none =>
        rw [List.filterMap_cons_none hslot] at hslots
        cases hslots
    | some slot =>
        rw [List.filterMap_cons_some hslot] at hslots
        rw [(List.cons.inj hslots).1]
  · rw [hentries, List.getElem?_eq_none (by simp; omega)] at hentry
    cases hentry

/-- A stored word that is the addend becomes the relocated address. -/
theorem relaFile_rebased :
    ∃ image rebased, ElfImage.parse (relaFile 8) = .ok image ∧
      image.toMappedImageAt 0x2000 = .ok rebased ∧ ∃ mapped,
      image.toMappedImage = .ok mapped ∧
      (Slot.read image.ident.data.byteOrder rebased ⟨0x100, 8⟩ : ℤ) =
        (0x2000 - 0x1000 + Slot.read image.ident.data.byteOrder mapped ⟨0x100, 8⟩) %
          2 ^ 64 := by
  have himage : ElfImage.parse (relaFile 8) = .ok (imageOf (relaFile 8)) :=
    parse_imageOf (by decide +kernel) (by decide +kernel)
  obtain ⟨rebased, hrebased⟩ := Outcome.exists_of_isOk
    (show ((imageOf (relaFile 8)).toMappedImageAt 0x2000).isOk = true by decide +kernel)
  have hbase : (imageOf (relaFile 8)).imageBase = 0x1000 := by decide +kernel
  have hmachine : (imageOf (relaFile 8)).header.machine = Machine.x86_64 := by decide +kernel
  obtain ⟨hentry, hslot, hisolated⟩ := relaFile_entries 8 (by decide +kernel)
  obtain ⟨-, mapped, hmapped, hread, -⟩ :=
    ElfImage.relaSlot_rebased hmachine hrebased hentry hslot hisolated
  rw [hbase] at hread
  exact ⟨_, rebased, himage, hrebased, mapped, hmapped, hread⟩

/-- A stored zero becomes the base change, without the addend. -/
theorem relaFile_ignores_addend :
    ∃ image rebased, ElfImage.parse (relaFile 0) = .ok image ∧
      image.ident.elfClass = .elf64 ∧ image.header.machine = Machine.x86_64 ∧
      image.imageBase = 0x1000 ∧
      image.relocationEntries[0]? = some ⟨0x1100, 0, 8, some 8⟩ ∧
      image.relativeSlot ⟨0x1100, 0, 8, some 8⟩ = some ⟨0x100, 8⟩ ∧
      image.Isolated 0 ⟨0x100, 8⟩ ∧ image.toMappedImageAt 0x2000 = .ok rebased ∧
      (Slot.read image.ident.data.byteOrder rebased ⟨0x100, 8⟩ : ℤ) ≠
        (0x2000 - 0x1000 + 8) % 2 ^ 64 := by
  have himage : ElfImage.parse (relaFile 0) = .ok (imageOf (relaFile 0)) :=
    parse_imageOf (by decide +kernel) (by decide +kernel)
  obtain ⟨hentry, hslot, hisolated⟩ := relaFile_entries 0 (by decide +kernel)
  have hrun : ((imageOf (relaFile 0)).toMappedImageAt 0x2000 >>= fun rebased =>
      pure (Slot.read (imageOf (relaFile 0)).ident.data.byteOrder rebased ⟨0x100, 8⟩)) =
        .ok 0x1000 := by decide +kernel
  rw [Outcome.bind_eq_ok] at hrun
  obtain ⟨rebased, hrebased, hret⟩ := hrun
  refine ⟨_, rebased, himage, by decide +kernel, by decide +kernel, by decide +kernel, hentry,
    hslot, hisolated, hrebased, ?_⟩
  rw [Except.ok.inj hret]
  decide

end Elfex
