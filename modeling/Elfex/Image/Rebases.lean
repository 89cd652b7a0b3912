import Elfex.Foundation.Moved
import Elfex.Image.Rebased

/-!
# From one base to another

An image that is placed at a base can be moved to another one by shifting its slots by the
difference, whatever base it was linked for: placing is an action of the base changes on the
mapped bytes. Relocation tables in any order place an image alike.
-/

namespace Elfex

open Foundation

namespace ElfImage

variable {image : ElfImage}

/-- Two base changes, one after the other, add up in every width of a slot. -/
theorem base_changes_add (linked base base' : UInt64) {w : ℕ} (hw : w = 4 ∨ w = 8) :
    ((base - linked).toNat + (base' - base).toNat) % 256 ^ w =
      (base' - linked).toNat % 256 ^ w := by
  have hdvd : 256 ^ w ∣ 2 ^ 64 := by rcases hw with rfl | rfl <;> decide
  have hsum : (base - linked) + (base' - base) = base' - linked := by grind
  rw [← hsum, UInt64.toNat_add, Nat.mod_mod_of_dvd _ hdvd]

/-- The bases differ by a multiple of a width when they have one residue. -/
theorem dvd_base_change_iff (base base' : UInt64) {w : ℕ} (hw : w = 4 ∨ w = 8) :
    256 ^ w ∣ (base' - base).toNat ↔ base.toNat % 256 ^ w = base'.toNat % 256 ^ w := by
  have hlt := base.toNat_lt
  have hlt' := base'.toNat_lt
  rw [UInt64.toNat_sub]
  rcases hw with rfl | rfl
  · norm_num
    omega
  · norm_num
    omega

/-- The mapping at one base, shifted by the difference, is the mapping at the other. -/
theorem shiftAll_base_change (hapart : image.relativeSlots.Pairwise Slot.Apart)
    (base base' : UInt64) :
    Slot.shiftAll image.ident.data.byteOrder (base' - base).toNat
        (Slot.shiftAll image.ident.data.byteOrder (base - image.imageBase).toNat
          image.mappedAtBase image.relativeSlots) image.relativeSlots =
      Slot.shiftAll image.ident.data.byteOrder (base' - image.imageBase).toNat
        image.mappedAtBase image.relativeSlots := by
  rw [Slot.shiftAll_shiftAll (relativeSlots_inside (length_mappedAtBase image)) hapart]
  exact Slot.shiftAll_congr fun slot hslot =>
    base_changes_add _ _ _ (width_of_mem_relativeSlots hslot)

/-- Moving an image from the base it is placed at to another one gives the bytes that
placing it at the other base does. -/
theorem rebases_compose {base base' : UInt64} {placed moved : List UInt8}
    (hplaced : image.toMappedImageAt base = .ok placed)
    (hmoved : image.toMappedImageAt base' = .ok moved)
    (hapart : image.relativeSlots.Pairwise Slot.Apart) :
    Slot.shiftAll image.ident.data.byteOrder (base' - base).toNat placed image.relativeSlots =
      moved := by
  obtain ⟨-, -, rfl⟩ := toMappedImageAt_eq_ok_iff.1 hplaced
  obtain ⟨-, -, rfl⟩ := toMappedImageAt_eq_ok_iff.1 hmoved
  exact shiftAll_base_change hapart base base'

/-- An executable placed at `0x2000` is moved to `0x5000`. -/
theorem tablesFile_moved :
    ∃ placed moved, (imageOf tablesFile).toMappedImageAt 0x2000 = .ok placed ∧
      (imageOf tablesFile).toMappedImageAt 0x5000 = .ok moved ∧
      Slot.shiftAll Endian.little.byteOrder 0x3000 placed [⟨0x100, 8⟩, ⟨0x108, 8⟩] = moved := by
  obtain ⟨placed, hplaced⟩ := Outcome.exists_of_isOk
    (show ((imageOf tablesFile).toMappedImageAt 0x2000).isOk = true by decide +kernel)
  obtain ⟨moved, hmoved⟩ := Outcome.exists_of_isOk
    (show ((imageOf tablesFile).toMappedImageAt 0x5000).isOk = true by decide +kernel)
  have hendian : (imageOf tablesFile).ident.data = .little := by decide +kernel
  have hshift := rebases_compose hplaced hmoved (by rw [tablesFile_slots]; decide)
  rw [tablesFile_slots, hendian] at hshift
  exact ⟨placed, moved, hplaced, hmoved, hshift⟩

/-- Two placements show the same bytes exactly when the bases have one residue in the width
of every slot. -/
theorem placements_eq_iff {base base' : UInt64} {placed moved : List UInt8}
    (hplaced : image.toMappedImageAt base = .ok placed)
    (hmoved : image.toMappedImageAt base' = .ok moved)
    (hdisjoint : image.relativeSlots.Pairwise Slot.Disjoint) :
    moved = placed ↔ ∀ slot ∈ image.relativeSlots,
      base.toNat % 256 ^ slot.width = base'.toNat % 256 ^ slot.width := by
  have hinside := relativeSlots_inside (length_mappedAtBase image)
  obtain ⟨-, -, rfl⟩ := toMappedImageAt_eq_ok_iff.1 hplaced
  obtain ⟨-, -, rfl⟩ := toMappedImageAt_eq_ok_iff.1 hmoved
  rw [← shiftAll_base_change (hdisjoint.imp Or.inr) base base', Slot.shiftAll_eq_self_iff _ ?_
    hdisjoint]
  · exact forall₂_congr fun slot hslot =>
      dvd_base_change_iff base base' (width_of_mem_relativeSlots hslot)
  · rw [Slot.length_shiftAll _ hinside]
    exact hinside

/-- The words of an x86-64 executable show the base it is placed at. -/
theorem tablesFile_placements_differ :
    ∃ placed moved, (imageOf tablesFile).toMappedImageAt 0x2000 = .ok placed ∧
      (imageOf tablesFile).toMappedImageAt 0x5000 = .ok moved ∧ moved ≠ placed := by
  obtain ⟨placed, hplaced⟩ := Outcome.exists_of_isOk
    (show ((imageOf tablesFile).toMappedImageAt 0x2000).isOk = true by decide +kernel)
  obtain ⟨moved, hmoved⟩ := Outcome.exists_of_isOk
    (show ((imageOf tablesFile).toMappedImageAt 0x5000).isOk = true by decide +kernel)
  have hiff := placements_eq_iff hplaced hmoved (by rw [tablesFile_slots]; decide)
  rw [tablesFile_slots] at hiff
  exact ⟨placed, moved, hplaced, hmoved, fun heq => absurd (hiff.1 heq) (by decide)⟩

/-! ## The order of the tables -/

/-- A loop over a list in another order succeeds alike, with its results in that order. -/
theorem mapM_perm {α β : Type} {f : α → Exec β} {l l' : List α} (hperm : l.Perm l')
    {bs : List β} (h : l.mapM f = .ok bs) : ∃ bs', l'.mapM f = .ok bs' ∧ bs.Perm bs' := by
  induction hperm generalizing bs with
  | nil => exact ⟨bs, h, List.Perm.refl bs⟩
  | cons a _ ih =>
      rw [List.mapM_cons] at h
      obtain ⟨b, hb, h⟩ := Outcome.bind_eq_ok.1 h
      obtain ⟨rest, hrest, h⟩ := Outcome.bind_eq_ok.1 h
      cases h
      obtain ⟨rest', hrest', hperm⟩ := ih hrest
      exact ⟨b :: rest', by rw [List.mapM_cons, hb, Outcome.ok_bind, hrest']; rfl, hperm.cons b⟩
  | swap a a' l =>
      rw [List.mapM_cons] at h
      obtain ⟨b, hb, h⟩ := Outcome.bind_eq_ok.1 h
      obtain ⟨rest, hrest, h⟩ := Outcome.bind_eq_ok.1 h
      cases h
      rw [List.mapM_cons] at hrest
      obtain ⟨b', hb', hrest⟩ := Outcome.bind_eq_ok.1 hrest
      obtain ⟨rest', hrest', h⟩ := Outcome.bind_eq_ok.1 hrest
      cases h
      refine ⟨b' :: b :: rest', ?_, List.Perm.swap _ _ _⟩
      rw [List.mapM_cons, hb', Outcome.ok_bind, List.mapM_cons, hb, Outcome.ok_bind, hrest']
      rfl
  | trans _ _ ih ih' =>
      obtain ⟨bs', hbs', hperm⟩ := ih h
      obtain ⟨bs'', hbs'', hperm'⟩ := ih' hbs'
      exact ⟨bs'', hbs'', hperm.trans hperm'⟩

theorem relocations_perm {sections : List Section} (hperm : image.sections.Perm sections)
    {tables : List RelocationSection} (h : image.relocations = .ok tables) :
    ∃ tables', { image with sections }.relocations = .ok tables' ∧ tables.Perm tables' :=
  mapM_perm (hperm.filterMap _) h

theorem relocatable_perm {sections : List Section} (hperm : image.sections.Perm sections)
    (h : image.Relocatable) : { image with sections }.Relocatable := by
  obtain ⟨tables, htables⟩ := Outcome.exists_of_isOk h.decodes
  obtain ⟨tables', htables', hsame⟩ := relocations_perm hperm htables
  refine ⟨by rw [htables']; rfl, fun other hother table hmem entry hentry => ?_⟩
  obtain rfl := Except.ok.inj (htables'.symm.trans hother)
  exact h.representable tables htables table (hsame.mem_iff.2 hmem) entry hentry

theorem relativeSlots_perm {sections : List Section} (hperm : image.sections.Perm sections)
    (h : image.relocations.isOk = true) :
    image.relativeSlots.Perm { image with sections }.relativeSlots := by
  obtain ⟨tables, htables⟩ := Outcome.exists_of_isOk h
  obtain ⟨tables', htables', hsame⟩ := relocations_perm hperm htables
  rw [relativeSlots, relativeSlots, relocationEntries, relocationEntries, htables, htables']
  exact (hsame.flatMap_right RelocationSection.entries).filterMap _

/-- An image maps to the same bytes, at every base, whatever order its sections, and so its
relocation tables, are in. -/
theorem toMappedImageAt_perm {sections : List Section} (hperm : image.sections.Perm sections)
    (hapart : image.relativeSlots.Pairwise Slot.Apart) {base : UInt64} {mapped : List UInt8}
    (hmapped : image.toMappedImageAt base = .ok mapped) :
    { image with sections }.toMappedImageAt base = .ok mapped := by
  obtain ⟨hmappable, hrelocatable, rfl⟩ := toMappedImageAt_eq_ok_iff.1 hmapped
  have hinside := relativeSlots_inside (length_mappedAtBase image)
  have hinside' : ∀ slot ∈ { image with sections }.relativeSlots,
      slot.stop ≤ image.mappedAtBase.length :=
    relativeSlots_inside (length_mappedAtBase { image with sections })
  refine toMappedImageAt_eq_ok_iff.2 ⟨⟨hmappable.span, hmappable.inside⟩,
    fun hbase => relocatable_perm hperm (hrelocatable hbase), ?_⟩
  by_cases hbase : base = image.imageBase
  · -- no word moves, whichever tables there are
    have hzero : ∀ slot : Slot, 256 ^ slot.width ∣ (base - image.imageBase).toNat := by
      intro slot
      rw [hbase, UInt64.sub_self, UInt64.toNat_zero]
      exact Nat.dvd_zero _
    rw [Slot.shiftAll_eq_self_of_dvd _ hinside fun slot _ => hzero slot]
    exact Slot.shiftAll_eq_self_of_dvd _ hinside' fun slot _ => hzero slot
  · exact (Slot.shiftAll_perm (relativeSlots_perm hperm (hrelocatable hbase).decodes) hinside
      hapart _).symm

/-- Two relocation tables, one before the other or behind it. -/
theorem tablesFile_perm :
    ∃ mapped, (imageOf tablesFile).toMappedImageAt 0x2000 = .ok mapped ∧
      { imageOf tablesFile with
        sections := (imageOf tablesFile).sections.reverse }.toMappedImageAt 0x2000 =
          .ok mapped := by
  obtain ⟨mapped, hmapped⟩ := Outcome.exists_of_isOk
    (show ((imageOf tablesFile).toMappedImageAt 0x2000).isOk = true by decide +kernel)
  exact ⟨mapped, hmapped, toMappedImageAt_perm (List.reverse_perm _).symm
    (by rw [tablesFile_slots]; decide) hmapped⟩

end ElfImage

end Elfex
