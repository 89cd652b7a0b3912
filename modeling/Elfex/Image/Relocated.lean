import Elfex.Image.Layers

/-!
# Mapping an image at another base

Away from its preferred base an image is mapped to the same bytes with the base change
added to the words its relative relocations point at. The addend of an entry is not read.
-/

namespace Elfex

open Foundation

namespace ElfImage

/-- The entries of the relocation tables, in table order; tables that do not decode have
none. -/
def relocationEntries (image : ElfImage) : List RelocationEntry :=
  match image.relocations with
  | .ok tables => tables.flatMap RelocationSection.entries
  | .error _ => []

/-- The slot of a relative relocation, when it lies in the mapped bytes. -/
def relativeSlot (image : ElfImage) (entry : RelocationEntry) : Option Slot :=
  (entrySlot image.header.machine image.imageBase entry).filter fun slot =>
    slot.stop ≤ image.imageSpan.toNat

/-- The slots of the relative relocations that lie in the mapped bytes. -/
def relativeSlots (image : ElfImage) : List Slot :=
  image.relocationEntries.filterMap image.relativeSlot

variable {image : ElfImage}

theorem relativeSlot_eq_some {entry : RelocationEntry} {slot : Slot} :
    image.relativeSlot entry = some slot ↔
      relocationKind image.header.machine entry.rType = .relative ∧
      image.imageBase ≤ entry.offset ∧
      slot.start = entry.offset.toNat - image.imageBase.toNat ∧
      (∃ width, relocationWidth image.header.machine entry.rType = some width ∧
        slot.width = width.toNat) ∧
      slot.stop ≤ image.imageSpan.toNat := by
  obtain ⟨start, width⟩ := slot
  rw [relativeSlot, entrySlot, Option.filter_eq_some_iff]
  by_cases h : relocationKind image.header.machine entry.rType = .relative ∧
      image.imageBase ≤ entry.offset
  · rw [if_pos h]
    simp only [Option.map_eq_some_iff, Slot.mk.injEq, decide_eq_true_eq, h, true_and]
    constructor
    · rintro ⟨⟨width, hwidth, rfl, rfl⟩, hstop⟩
      exact ⟨rfl, ⟨width, hwidth, rfl⟩, hstop⟩
    · rintro ⟨rfl, ⟨width, hwidth, rfl⟩, hstop⟩
      exact ⟨⟨width, hwidth, rfl, rfl⟩, hstop⟩
  · rw [if_neg h]
    simp only [reduceCtorEq, false_and, false_iff]
    exact fun hslot => h ⟨hslot.1, hslot.2.1⟩

theorem relativeSlot_width {entry : RelocationEntry} {slot : Slot}
    (h : image.relativeSlot entry = some slot) : slot.width = 4 ∨ slot.width = 8 := by
  obtain ⟨-, -, -, ⟨width, hwidth, hslot⟩, -⟩ := relativeSlot_eq_some.1 h
  rw [hslot]
  rcases relocationWidth_eq hwidth with rfl | rfl
  · exact Or.inl rfl
  · exact Or.inr rfl

/-- The slots lie inside the bytes of a mapping. -/
theorem relativeSlots_inside {mapped : List UInt8}
    (hlen : mapped.length = image.imageSpan.toNat) :
    ∀ slot ∈ image.relativeSlots, slot.stop ≤ mapped.length := fun slot hslot => by
  obtain ⟨entry, -, hslot⟩ := List.mem_filterMap.1 hslot
  exact hlen ▸ (relativeSlot_eq_some.1 hslot).2.2.2.2

theorem width_of_mem_relativeSlots {slot : Slot} (h : slot ∈ image.relativeSlots) :
    slot.width = 4 ∨ slot.width = 8 := by
  obtain ⟨entry, -, hslot⟩ := List.mem_filterMap.1 h
  exact relativeSlot_width hslot

/-! ## The relocation loop -/

/-- The loop over the entries of a table shifts their slots. -/
theorem applyEntries_eq (delta : UInt64) {mapped : List UInt8}
    (hmapped : mapped.length = image.imageSpan.toNat) {entries : List RelocationEntry}
    (hrepresentable : ∀ entry ∈ entries,
      EntryRepresentable image.header.machine image.imageBase entry) :
    entries.foldlM (image.applyEntry delta) mapped =
      .ok (Slot.shiftAll image.ident.data.byteOrder delta.toNat mapped
        (entries.filterMap image.relativeSlot)) := by
  induction entries generalizing mapped with
  | nil => rfl
  | cons entry entries ih =>
      have hentry := (entryRepresentable_iff _ _ _).1 (hrepresentable entry List.mem_cons_self)
      have hrest := fun e he => hrepresentable e (List.mem_cons_of_mem entry he)
      have hstep : image.applyEntry delta mapped entry =
          .ok (Slot.shiftAll image.ident.data.byteOrder delta.toNat mapped
            (image.relativeSlot entry).toList) := by
        rw [applyEntry_eq, relativeSlot]
        cases hslot : entrySlot image.header.machine image.imageBase entry with
        | none => rfl
        | some slot =>
            dsimp only
            rw [if_pos (hentry slot hslot), hmapped]
            by_cases hstop : slot.stop ≤ image.imageSpan.toNat
            · rw [if_pos hstop, Option.filter_some, if_pos (decide_eq_true hstop)]
              rfl
            · rw [if_neg hstop, Option.filter_some, if_neg (by simpa using hstop)]
              rfl
      have hlen : (Slot.shiftAll image.ident.data.byteOrder delta.toNat mapped
          (image.relativeSlot entry).toList).length = image.imageSpan.toNat := by
        rw [Slot.length_shiftAll _ fun slot hslot => ?_, hmapped]
        rw [hmapped]
        exact (relativeSlot_eq_some.1 (Option.mem_toList.1 hslot)).2.2.2.2
      have hslots : (entry :: entries).filterMap image.relativeSlot =
          (image.relativeSlot entry).toList ++ entries.filterMap image.relativeSlot := by
        cases hslot : image.relativeSlot entry <;> simp [hslot]
      rw [List.foldlM_cons, hstep, Outcome.ok_bind, ih hlen hrest, hslots, Slot.shiftAll_append]

/-- The loop over the tables is the loop over all their entries. -/
theorem applyTables_eq (delta : UInt64) (tables : List RelocationSection)
    (mapped : List UInt8) :
    tables.foldlM (fun mapped table => table.entries.foldlM (image.applyEntry delta) mapped)
        mapped =
      (tables.flatMap RelocationSection.entries).foldlM (image.applyEntry delta) mapped := by
  induction tables generalizing mapped with
  | nil => rfl
  | cons table tables ih =>
      rw [List.foldlM_cons, List.flatMap_cons, List.foldlM_append]
      exact congrArg _ (funext fun mapped => ih mapped)

/-- The relocation tables decode, and the words they point at have representable ends. -/
structure Relocatable (image : ElfImage) : Prop where
  decodes : image.relocations.isOk = true
  representable : image.RelocationsRepresentable

/-- Adjusting the relative relocations shifts their slots by the base change. -/
theorem applyRelativeRelocations_eq_ok (base : UInt64) {mapped rebased : List UInt8}
    (hmapped : mapped.length = image.imageSpan.toNat) :
    image.applyRelativeRelocations mapped base = .ok rebased ↔ image.Relocatable ∧
      Slot.shiftAll image.ident.data.byteOrder (base - image.imageBase).toNat mapped
        image.relativeSlots = rebased := by
  rw [applyRelativeRelocations]
  cases htables : image.relocations with
  | error e =>
      refine iff_of_false ?_ fun h => ?_
      · simp [bind, Except.bind]
      · have hdecodes := h.1.decodes
        rw [htables] at hdecodes
        cases hdecodes
  | ok tables =>
      have hentries : image.relocationEntries = tables.flatMap RelocationSection.entries := by
        rw [relocationEntries, htables]
      have hrep : image.Relocatable ↔ ∀ entry ∈ image.relocationEntries,
          EntryRepresentable image.header.machine image.imageBase entry := by
        rw [hentries]
        simp only [List.mem_flatMap, forall_exists_index, and_imp]
        constructor
        · exact fun h entry table ht he => h.representable tables htables table ht entry he
        · refine fun h => ⟨by rw [htables]; rfl, fun tables' htables' table ht entry he => ?_⟩
          rw [htables] at htables'
          cases htables'
          exact h entry table ht he
      rw [Outcome.ok_bind, applyTables_eq, ← hentries]
      by_cases hall : image.Relocatable
      · rw [applyEntries_eq _ hmapped (hrep.1 hall), Except.ok.injEq, and_iff_right hall,
          ← relativeSlots]
      · have hguarded := Outcome.Guarded.foldlM image.relocationEntries
          (fun entry _ out hout => image.applyEntry_guarded (base - image.imageBase) entry hout)
          hmapped
        rw [hguarded.fault fun h => hall (hrep.2 h)]
        exact iff_of_false (by simp [Outcome.fault]) fun h => hall h.1

/-- Every mapping of an image is its mapping at the preferred base with the slots of its
relative relocations shifted by the base change; at the preferred base the relocation
tables need not decode. -/
theorem toMappedImageAt_eq_ok_iff {base : UInt64} {rebased : List UInt8} :
    image.toMappedImageAt base = .ok rebased ↔ image.Mappable ∧
      (base ≠ image.imageBase → image.Relocatable) ∧
      Slot.shiftAll image.ident.data.byteOrder (base - image.imageBase).toNat
        image.mappedAtBase image.relativeSlots = rebased := by
  rw [toMappedImageAt_eq_ok]
  refine and_congr_right fun _ => ?_
  by_cases hbase : base = image.imageBase
  · have hzero : Slot.shiftAll image.ident.data.byteOrder (base - image.imageBase).toNat
        image.mappedAtBase image.relativeSlots = image.mappedAtBase := by
      apply Slot.shiftAll_eq_self_of_dvd _ (relativeSlots_inside (length_mappedAtBase image))
      intro slot _
      rw [hbase, UInt64.sub_self, UInt64.toNat_zero]
      exact Nat.dvd_zero _
    rw [if_neg (not_not.2 hbase), hzero, Except.ok.injEq,
      and_iff_right fun hne => absurd hbase hne]
  · rw [if_pos hbase, applyRelativeRelocations_eq_ok base (length_mappedAtBase image),
      forall_prop_of_true hbase]

end ElfImage

end Elfex
