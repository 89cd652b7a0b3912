import Elfex.Foundation.Carry
import Elfex.Image.Rebased

/-!
# Rebasing and the pointers of the class

The width of a relocated word is chosen by the machine, the size of a pointer by the class.
An x86-64 image of the 32-bit class has eight-byte words at four-byte pointers, so what
rebasing adds to a pointer can reach the bytes behind it.
-/

namespace Elfex

open Foundation

/-- The size of a pointer of the class. -/
def ElfClass.pointerSize : ElfClass → ℕ
  | .elf32 => 4
  | .elf64 => 8

/-- The significance of the `i`-th byte of a word of `w` bytes. -/
def Endian.rank : Endian → ℕ → ℕ → ℕ
  | .little, _, i => i
  | .big, w, i => w - 1 - i

/-- The least significance of the bytes behind the first half of an eight-byte word. -/
def Endian.behind : Endian → ℕ
  | .little => 4
  | .big => 0

theorem Endian.ranks (endian : Endian) : endian.byteOrder.Ranks endian.rank where
  rank_lt h := by
    cases endian with
    | little => exact h
    | big =>
        rw [rank]
        omega
  getElem?_order bytes i h := by
    cases endian with
    | little => rfl
    | big =>
        rw [rank]
        refine (List.getElem?_reverse (by omega)).trans ?_
        congr 1
        omega

namespace ElfImage

/-- The pointer a relative relocation at or after the base points at. -/
def relativePointer (image : ElfImage) (entry : RelocationEntry) : Option Slot :=
  if relocationKind image.header.machine entry.rType = .relative ∧
      image.imageBase ≤ entry.offset then
    some ⟨entry.offset.toNat - image.imageBase.toNat, image.ident.elfClass.pointerSize⟩
  else none

/-- The pointers of the relative relocations, whether or not they lie in the mapped bytes. -/
def relativePointers (image : ElfImage) : List Slot :=
  image.relocationEntries.filterMap image.relativePointer

/-- Rebasing alters bytes of pointers of the relative relocations only. -/
def RebasesPointersOnly (image : ElfImage) (mapped rebased : List UInt8) : Prop :=
  ∀ a, mapped[a]? ≠ rebased[a]? → ∃ pointer ∈ image.relativePointers, pointer.Holds a

/-- At every byte outside the pointers, what the relocations add to it, one after the other,
is nothing modulo 256. -/
def CarriesCancel (image : ElfImage) (delta : ℕ) (mapped : List UInt8) : Prop :=
  ∀ a < mapped.length, (∀ pointer ∈ image.relativePointers, ¬pointer.Holds a) →
    256 ∣ Slot.totalAt image.ident.data.byteOrder image.ident.data.rank delta mapped
      image.relativeSlots a

/-- Adding a number to the eight-byte word at a slot leaves what is behind its four-byte
pointer: the pointer and the number make a 32-bit number, or, with the more significant
half first, the number does not reach the less significant half. -/
def PointerFits (image : ElfImage) (delta : ℕ) (mapped : List UInt8) (slot : Slot) : Prop :=
  match image.ident.data with
  | .little =>
      (Slot.read image.ident.data.byteOrder mapped ⟨slot.start, 4⟩ + delta) % 2 ^ 64 < 2 ^ 32
  | .big => 2 ^ 32 ∣ delta

variable {image : ElfImage}

theorem relativePointer_of_relativeSlot {entry : RelocationEntry} {slot : Slot}
    (h : image.relativeSlot entry = some slot) :
    image.relativePointer entry = some ⟨slot.start, image.ident.elfClass.pointerSize⟩ := by
  obtain ⟨hkind, hle, hstart, -⟩ := relativeSlot_eq_some.1 h
  rw [relativePointer, if_pos ⟨hkind, hle⟩, hstart]

/-- The pointer of every slot is one of the pointers. -/
theorem pointer_mem_of_slot_mem {slot : Slot} (h : slot ∈ image.relativeSlots) :
    ⟨slot.start, image.ident.elfClass.pointerSize⟩ ∈ image.relativePointers := by
  obtain ⟨entry, hentry, hslot⟩ := List.mem_filterMap.1 h
  exact List.mem_filterMap.2 ⟨entry, hentry, relativePointer_of_relativeSlot hslot⟩

theorem width_of_mem_relativePointers {pointer : Slot} (h : pointer ∈ image.relativePointers) :
    pointer.width = image.ident.elfClass.pointerSize := by
  obtain ⟨entry, -, hpointer⟩ := List.mem_filterMap.1 h
  rw [relativePointer] at hpointer
  split at hpointer
  · rw [← Option.some.inj hpointer]
  · cases hpointer

/-- Rebasing alters pointers only exactly when nothing is added to the other bytes. -/
theorem rebasesPointersOnly_iff_carriesCancel {base : UInt64} {mapped rebased : List UInt8}
    (hmapped : image.toMappedImage = .ok mapped)
    (hrebased : image.toMappedImageAt base = .ok rebased) :
    image.RebasesPointersOnly mapped rebased ↔
      image.CarriesCancel (base - image.imageBase).toNat mapped := by
  obtain ⟨-, rfl⟩ := (toMappedImage_eq_ok image).1 hmapped
  obtain ⟨-, -, rfl⟩ := toMappedImageAt_eq_ok_iff.1 hrebased
  have hinside := relativeSlots_inside (length_mappedAtBase image)
  have hranks := image.ident.data.ranks
  constructor
  · intro honly a ha houtside
    rw [← Slot.getElem?_shiftAll_eq_iff hranks hinside ha]
    by_contra hne
    obtain ⟨pointer, hmem, hholds⟩ := honly a fun heq => hne heq.symm
    exact houtside pointer hmem hholds
  · intro hcancel a hne
    by_contra hnone
    push Not at hnone
    by_cases ha : a < image.mappedAtBase.length
    · exact hne ((Slot.getElem?_shiftAll_eq_iff hranks hinside ha).2 (hcancel a ha hnone)).symm
    · rw [List.getElem?_eq_none (by omega),
        List.getElem?_eq_none (by rw [Slot.length_shiftAll _ hinside]; omega)] at hne
      exact hne rfl

/-- Rebasing alters pointers only when no word is wider than a pointer. -/
theorem rebasesPointersOnly_of_widths {base : UInt64} {mapped rebased : List UInt8}
    (hmapped : image.toMappedImage = .ok mapped)
    (hrebased : image.toMappedImageAt base = .ok rebased)
    (hwidths : ∀ slot ∈ image.relativeSlots, slot.width ≤ image.ident.elfClass.pointerSize) :
    image.RebasesPointersOnly mapped rebased := by
  rw [rebasesPointersOnly_iff_carriesCancel hmapped hrebased]
  intro a _ houtside
  have hfree : ∀ slot ∈ image.relativeSlots, ¬slot.Holds a := by
    rintro slot hslot ⟨hstart, hlt⟩
    have hwidth := hwidths slot hslot
    refine houtside _ (pointer_mem_of_slot_mem hslot) ⟨hstart, ?_⟩
    rw [Slot.stop] at hlt ⊢
    dsimp only
    omega
  rw [Slot.totalAt_of_not_holds hfree]
  exact Nat.dvd_zero _

/-- A relocated word of a machine other than x86-64 has four bytes. -/
theorem relocationWidth_of_ne_x86_64 {machine : Machine} (hmachine : machine ≠ Machine.x86_64)
    {rType : UInt32} {width : UInt8} (h : relocationWidth machine rType = some width) :
    width = 4 := by
  rw [relocationWidth] at h
  split at h
  · rename_i h62
    exact absurd (UInt16.toNat_inj.1 h62) hmachine
  · split at h <;> simp_all
  · cases h

/-- Only an x86-64 image of the 32-bit class has words wider than its pointers. -/
theorem rebasesPointersOnly_of_regular {base : UInt64} {mapped rebased : List UInt8}
    (hmapped : image.toMappedImage = .ok mapped)
    (hrebased : image.toMappedImageAt base = .ok rebased)
    (h : image.header.machine ≠ Machine.x86_64 ∨ image.ident.elfClass = .elf64) :
    image.RebasesPointersOnly mapped rebased := by
  refine rebasesPointersOnly_of_widths hmapped hrebased fun slot hslot => ?_
  obtain ⟨entry, -, hentry⟩ := List.mem_filterMap.1 hslot
  have hsize : 4 ≤ image.ident.elfClass.pointerSize := by
    cases image.ident.elfClass <;> decide
  rcases h with hmachine | hclass
  · obtain ⟨-, -, -, ⟨width, hwidth, hslotwidth⟩, -⟩ := relativeSlot_eq_some.1 hentry
    rw [hslotwidth, relocationWidth_of_ne_x86_64 hmachine hwidth]
    exact hsize
  · have hwidth := relativeSlot_width hentry
    rw [hclass, ElfClass.pointerSize]
    omega

/-! ## Words that are apart -/

/-- The words of the relative relocations do not overlap, nor does the pointer of one reach
into the word of another. -/
structure WordsApart (image : ElfImage) : Prop where
  words : image.relativeSlots.Pairwise Slot.Disjoint
  pointers : ∀ pointer ∈ image.relativePointers, ∀ slot ∈ image.relativeSlots,
    pointer.start = slot.start ∨ pointer.Disjoint slot

/-- The first half of a little-endian word is its residue. -/
theorem read_little_half (mapped : List UInt8) {slot : Slot} (hwidth : slot.width = 8) :
    Slot.read Endian.little.byteOrder mapped ⟨slot.start, 4⟩ =
      slot.read Endian.little.byteOrder mapped % 256 ^ 4 := by
  have htake : window mapped slot.start 4 = (window mapped slot.start slot.width).take 4 := by
    rw [window, window, List.take_take, hwidth]
    rfl
  exact (congrArg ofLittle htake).trans (ofLittle_take _ 4)

theorem amountAt_start_add (endian : Endian) (delta : ℕ) (mapped : List UInt8) {slot : Slot}
    {k : ℕ} (hk : k < slot.width) :
    slot.amountAt endian.byteOrder endian.rank delta mapped (slot.start + k) =
      (slot.read endian.byteOrder mapped % 256 ^ endian.rank slot.width k + delta) /
        256 ^ endian.rank slot.width k := by
  rw [Slot.amountAt_of_holds ⟨Nat.le_add_right _ _, Nat.add_lt_add_left hk _⟩, Slot.rankOf,
    Nat.add_sub_cancel_left]

/-- The bytes behind a four-byte pointer have the significances from the least one on. -/
theorem forall_behind_iff (endian : Endian) (delta : ℕ) (mapped : List UInt8) {slot : Slot}
    (hwidth : slot.width = 8) :
    (∀ a, slot.start + 4 ≤ a → a < slot.start + 8 →
      256 ∣ slot.amountAt endian.byteOrder endian.rank delta mapped a) ↔
      ∀ i < 4, 256 ∣ (slot.read endian.byteOrder mapped % 256 ^ (endian.behind + i) + delta) /
        256 ^ (endian.behind + i) := by
  have hamount : ∀ k < 8, slot.amountAt endian.byteOrder endian.rank delta mapped
      (slot.start + k) = (slot.read endian.byteOrder mapped % 256 ^ endian.rank 8 k + delta) /
        256 ^ endian.rank 8 k := by
    intro k hk
    rw [amountAt_start_add endian delta mapped (hk.trans_eq hwidth.symm), hwidth]
  cases endian with
  | little =>
      constructor
      · intro h i hi
        have ha := h (slot.start + (4 + i)) (by omega) (by omega)
        rwa [hamount _ (by omega)] at ha
      · intro h a hlow hhigh
        obtain ⟨i, rfl⟩ := Nat.exists_eq_add_of_le hlow
        rw [Nat.add_assoc, hamount _ (by omega)]
        exact h i (by omega)
  | big =>
      have hrank : ∀ i < 4, Endian.big.rank 8 (7 - i) = Endian.big.behind + i := by
        intro i hi
        rw [Endian.rank, Endian.behind]
        omega
      constructor
      · intro h i hi
        have ha := h (slot.start + (7 - i)) (by omega) (by omega)
        rwa [hamount _ (by omega), hrank i hi] at ha
      · intro h a hlow hhigh
        obtain ⟨i, hi, rfl⟩ : ∃ i < 4, slot.start + (7 - i) = a :=
          ⟨slot.start + 7 - a, by omega, by omega⟩
        rw [hamount _ (by omega), hrank i hi]
        exact h i hi

/-- Nothing reaches the bytes behind a four-byte pointer exactly when the pointer fits. -/
theorem forall_dvd_amountAt_iff (delta : ℕ) (mapped : List UInt8) {slot : Slot}
    (hwidth : slot.width = 8) :
    (∀ a, slot.start + 4 ≤ a → a < slot.start + 8 →
      256 ∣ slot.amountAt image.ident.data.byteOrder image.ident.data.rank delta mapped a) ↔
      image.PointerFits delta mapped slot := by
  rw [forall_behind_iff _ delta mapped hwidth, forall_dvd_carry_iff, PointerFits]
  cases image.ident.data with
  | little =>
      dsimp only
      rw [read_little_half mapped hwidth, Endian.behind]
      generalize slot.read Endian.little.byteOrder mapped % 256 ^ 4 + delta = n
      norm_num
      omega
  | big =>
      rw [Endian.behind, pow_zero, Nat.mod_one, Nat.zero_add, Nat.div_one]
      rfl

section Narrow

variable (hclass : image.ident.elfClass = .elf32)

include hclass

/-- When the words are apart, the bytes behind a four-byte pointer belong to no pointer. -/
theorem WordsApart.not_holds_behind (hapart : image.WordsApart) {slot : Slot}
    (hslot : slot ∈ image.relativeSlots) {a : ℕ} (hholds : slot.Holds a)
    (hbehind : slot.start + 4 ≤ a) : ∀ pointer ∈ image.relativePointers, ¬pointer.Holds a := by
  intro pointer hpointer
  rcases hapart.pointers pointer hpointer slot hslot with hstart | hdisjoint
  · have hsize := width_of_mem_relativePointers hpointer
    rw [hclass, ElfClass.pointerSize] at hsize
    rintro ⟨-, hlt⟩
    rw [Slot.stop, hstart, hsize] at hlt
    omega
  · exact hdisjoint.not_holds hholds

/-- A byte of a word that belongs to no pointer is behind the word's own pointer. -/
theorem behind_of_outside {slot : Slot} (hslot : slot ∈ image.relativeSlots) {a : ℕ}
    (hholds : slot.Holds a) (houtside : ∀ pointer ∈ image.relativePointers, ¬pointer.Holds a) :
    slot.start + 4 ≤ a := by
  have hpointer := houtside _ (pointer_mem_of_slot_mem hslot)
  rw [hclass, ElfClass.pointerSize] at hpointer
  exact Nat.le_of_not_lt fun hlt => hpointer ⟨hholds.1, hlt⟩

/-- When the words are apart, nothing is added outside the pointers exactly when every
pointer has the width of its word or fits. -/
theorem carriesCancel_iff_of_wordsApart (hapart : image.WordsApart) (delta : ℕ)
    {mapped : List UInt8} (hlength : mapped.length = image.imageSpan.toNat) :
    image.CarriesCancel delta mapped ↔
      ∀ slot ∈ image.relativeSlots, slot.width = 4 ∨ image.PointerFits delta mapped slot := by
  have hinside := relativeSlots_inside hlength
  constructor
  · intro hcancel slot hslot
    rcases width_of_mem_relativeSlots hslot with hwidth | hwidth
    · exact Or.inl hwidth
    · refine Or.inr ((forall_dvd_amountAt_iff delta mapped hwidth).1 fun a hlow hhigh => ?_)
      have hholds : slot.Holds a := ⟨by omega, by rw [Slot.stop, hwidth]; exact hhigh⟩
      have htotal := hcancel a (hholds.2.trans_le (hinside slot hslot))
        (hapart.not_holds_behind hclass hslot hholds hlow)
      rwa [Slot.totalAt_of_mem hinside hapart.words hslot hholds] at htotal
  · intro hfits a _ houtside
    by_cases hheld : ∃ slot ∈ image.relativeSlots, slot.Holds a
    · obtain ⟨slot, hslot, hholds⟩ := hheld
      have hbehind := behind_of_outside hclass hslot hholds houtside
      have hlt : a < slot.start + slot.width := hholds.2
      have hwidth : slot.width = 8 :=
        (width_of_mem_relativeSlots hslot).resolve_left (by omega)
      have hfit := (hfits slot hslot).resolve_left (by omega)
      rw [Slot.totalAt_of_mem hinside hapart.words hslot hholds]
      exact (forall_dvd_amountAt_iff delta mapped hwidth).2 hfit a hbehind (by omega)
    · push Not at hheld
      rw [Slot.totalAt_of_not_holds hheld]
      exact Nat.dvd_zero _

end Narrow

/-- Rebasing an image of the 32-bit class alters bytes of its pointers only exactly when what
the relocations add to the other bytes cancels. When the words are apart, this is that the
words have the width of a pointer or every pointer fits. -/
theorem rebasesPointersOnly_iff {base : UInt64} {mapped rebased : List UInt8}
    (hclass : image.ident.elfClass = .elf32) (hmapped : image.toMappedImage = .ok mapped)
    (hrebased : image.toMappedImageAt base = .ok rebased) :
    (image.RebasesPointersOnly mapped rebased ↔
      image.CarriesCancel (base - image.imageBase).toNat mapped) ∧
    (image.WordsApart → (image.RebasesPointersOnly mapped rebased ↔
      ∀ slot ∈ image.relativeSlots,
        slot.width = 4 ∨ image.PointerFits (base - image.imageBase).toNat mapped slot)) := by
  have hiff := rebasesPointersOnly_iff_carriesCancel hmapped hrebased
  obtain ⟨-, hrun⟩ := (toMappedImage_eq_ok image).1 hmapped
  have hlength : mapped.length = image.imageSpan.toNat := hrun ▸ length_mappedAtBase image
  exact ⟨hiff, fun hapart => hiff.trans (carriesCancel_iff_of_wordsApart hclass hapart _ hlength)⟩

end ElfImage

/-- An x86-64 executable of the 32-bit class: a four-byte pointer at `0x1100`, which a
relative relocation points at, and four more bytes. -/
def x32File : List UInt8 :=
  { smallHeader with
    ident := { smallHeader.ident with elfClass := .elf32 }, phoff := 52, shoff := 104,
    ehsize := 52, phentsize := 32, shentsize := 40, shnum := 1, shstrndx := 0 }.write ++
    { smallLoad with
      offset := 84, vaddr := 0x1100, paddr := 0x1100, filesz := 8, memsz := 8 }.write
      .little .elf32 ++
    Endian.little.u32Bytes 0 ++ Endian.little.u32Bytes 0x11223344 ++
    Endian.little.u32Bytes 0x1100 ++ Endian.little.u32Bytes 8 ++ Endian.little.u32Bytes 0x1100 ++
    { smallText with
      type := SectionType.rela, flags := 0, addr := 0, offset := 92, size := 12,
      entsize := 12 }.write .little .elf32

/-- A page higher the pointer fits. -/
theorem x32File_fits :
    ∃ image mapped rebased, ElfImage.parse x32File = .ok image ∧
      image.toMappedImage = .ok mapped ∧ image.toMappedImageAt 0x2000 = .ok rebased ∧
      image.RebasesPointersOnly mapped rebased := by
  have himage : ElfImage.parse x32File = .ok (imageOf x32File) :=
    parse_imageOf (by decide +kernel) (by decide +kernel)
  have hrun : ((imageOf x32File).toMappedImage >>= fun mapped => pure
      (Slot.read (imageOf x32File).ident.data.byteOrder mapped ⟨0x100, 4⟩)) = .ok 0 := by
    decide +kernel
  rw [Outcome.bind_eq_ok] at hrun
  obtain ⟨mapped, hmapped, hread⟩ := hrun
  obtain ⟨rebased, hrebased⟩ := Outcome.exists_of_isOk
    (show ((imageOf x32File).toMappedImageAt 0x2000).isOk = true by decide +kernel)
  have hslots : (imageOf x32File).relativeSlots = [⟨0x100, 8⟩] := by decide +kernel
  have hpointers : (imageOf x32File).relativePointers = [⟨0x100, 4⟩] := by decide +kernel
  have hbase : (imageOf x32File).imageBase = 0x1000 := by decide +kernel
  have hdata : (imageOf x32File).ident.data = .little := by decide +kernel
  have hapart : (imageOf x32File).WordsApart := by
    refine ⟨by rw [hslots]; exact List.pairwise_singleton _ _, ?_⟩
    rw [hslots, hpointers, List.forall_mem_singleton, List.forall_mem_singleton]
    exact Or.inl rfl
  have hiff := (ElfImage.rebasesPointersOnly_iff (by decide +kernel) hmapped hrebased).2 hapart
  refine ⟨_, mapped, rebased, himage, hmapped, hrebased, hiff.2 ?_⟩
  rw [hslots, List.forall_mem_singleton, hbase, ElfImage.PointerFits, Except.ok.inj hread, hdata]
  exact Or.inr (by decide)

/-- At zero the pointer becomes negative and the byte behind it is altered. -/
theorem x32File_altered :
    ∃ image mapped rebased, ElfImage.parse x32File = .ok image ∧
      image.ident.elfClass = .elf32 ∧ image.header.machine = Machine.x86_64 ∧
      image.relativePointers = [⟨0x100, 4⟩] ∧ image.toMappedImage = .ok mapped ∧
      image.toMappedImageAt 0 = .ok rebased ∧ mapped[0x104]? = some 0x44 ∧
      rebased[0x104]? = some 0x43 ∧ ¬image.RebasesPointersOnly mapped rebased := by
  have himage : ElfImage.parse x32File = .ok (imageOf x32File) :=
    parse_imageOf (by decide +kernel) (by decide +kernel)
  have hrun : ((imageOf x32File).toMappedImage >>= fun mapped =>
      pure mapped[0x104]?) = .ok (some 0x44) := by decide +kernel
  have hrun' : ((imageOf x32File).toMappedImageAt 0 >>= fun rebased =>
      pure rebased[0x104]?) = .ok (some 0x43) := by decide +kernel
  rw [Outcome.bind_eq_ok] at hrun hrun'
  obtain ⟨mapped, hmapped, hbyte⟩ := hrun
  obtain ⟨rebased, hrebased, hbyte'⟩ := hrun'
  have hbyte := Except.ok.inj hbyte
  have hbyte' := Except.ok.inj hbyte'
  have hpointers : (imageOf x32File).relativePointers = [⟨0x100, 4⟩] := by decide +kernel
  refine ⟨_, mapped, rebased, himage, by decide +kernel, by decide +kernel, hpointers, hmapped,
    hrebased, hbyte, hbyte', fun honly => ?_⟩
  obtain ⟨pointer, hpointer, hholds⟩ := honly 0x104 (by rw [hbyte, hbyte']; decide)
  rw [hpointers, List.mem_singleton] at hpointer
  rw [hpointer] at hholds
  exact absurd hholds (by decide)

end Elfex
