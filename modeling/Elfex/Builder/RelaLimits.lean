import Elfex.Builder.Faithful

/-!
# Relocations the narrow class cannot encode

The table entries of the 32-bit class are narrower than the entries a builder is given.
What is read back of a table are entries that fit, so a list comes back exactly when all
of its entries do. The builder does not look at the widths.
-/

namespace Elfex

open Foundation

namespace RelocationEntry

/-- The entry with its addend written out. -/
def explicit (entry : RelocationEntry) : RelocationEntry :=
  { entry with addend := some (entry.addend.getD 0) }

/-- The values of the entry fit the fields of the narrow class. -/
structure Fits32 (entry : RelocationEntry) : Prop where
  offset : entry.offset.toNat < 2 ^ 32
  symbol : entry.symbol.toNat < 2 ^ 24
  rType : entry.rType.toNat < 2 ^ 8
  addend : InInt32 (entry.addend.getD 0)

theorem fitsRela_explicit (entry : RelocationEntry) :
    entry.explicit.FitsRela .elf32 ↔ entry.Fits32 := by
  constructor
  · rintro ⟨hoffset, hsymbol, htype, addend, haddend, hfits⟩
    obtain rfl := Option.some.inj haddend
    exact ⟨hoffset, hsymbol, htype, hfits⟩
  · intro h
    exact ⟨h.offset, h.symbol, h.rType, _, rfl, h.addend⟩

instance (entry : RelocationEntry) : Decidable entry.Fits32 :=
  decidable_of_iff (entry.offset.toNat < 2 ^ 32 ∧ entry.symbol.toNat < 2 ^ 24 ∧
    entry.rType.toNat < 2 ^ 8 ∧ InInt32 (entry.addend.getD 0))
    ⟨fun ⟨hoffset, hsymbol, htype, haddend⟩ => ⟨hoffset, hsymbol, htype, haddend⟩,
      fun h => ⟨h.offset, h.symbol, h.rType, h.addend⟩⟩

end RelocationEntry

/-- An absent addend is written as zero. -/
theorem serializeRela_explicit (entries : List RelocationEntry) (endian : Endian)
    (elfClass : ElfClass) :
    serializeRela (entries.map RelocationEntry.explicit) endian elfClass =
      serializeRela entries endian elfClass := by
  rw [serializeRela, serializeRela, List.flatMap_map]
  congr 1

/-- A serialized table of the narrow class is parsed to the entries with their addends
written out exactly when they all fit. -/
theorem parse_serializeRela_iff (entries : List RelocationEntry) (endian : Endian) :
    RelocationSection.parse (serializeRela entries endian .elf32) true endian .elf32 =
        .ok { entries := entries.map RelocationEntry.explicit, isRela := true } ↔
      ∀ entry ∈ entries, entry.Fits32 := by
  have hfits : (∀ entry ∈ entries.map RelocationEntry.explicit, entry.FitsRela .elf32) ↔
      ∀ entry ∈ entries, entry.Fits32 := by
    rw [List.forall_mem_map]
    exact forall₂_congr fun entry _ => entry.fitsRela_explicit
  rw [← serializeRela_explicit, ← hfits]
  refine ⟨fun hparse => ?_, parse_serializeRela endian .elf32⟩
  obtain ⟨read, hread, hall, -⟩ := exists_parse_rela endian .elf32
    (length_serializeRela_mod (entries.map RelocationEntry.explicit) endian .elf32)
  rw [hread] at hparse
  rwa [← (RelocationSection.mk.inj (Except.ok.inj hparse)).1]

namespace ElfBuilder

/-- The relocations of the image are the configured ones, in one table if there are any. -/
def RelocatedAs (builder : ElfBuilder) (image : ElfImage) : Prop :=
  image.relocations = .ok (if builder.relocations = [] then []
    else [{ entries := builder.relocations.map RelocationEntry.explicit, isRela := true }])

theorem relocatedAs_iff {builder : ElfBuilder} (hclass : builder.elfClass = .elf32)
    {d : List UInt8} (h : builder.image.Present d) : builder.RelocatedAs (imageOf d) ↔
      ∀ entry ∈ builder.relocations, entry.Fits32 := by
  rw [← parse_serializeRela_iff builder.relocations builder.endian, RelocatedAs,
    relocations_parsed h, hclass]
  by_cases hnone : builder.relocations = []
  · rw [if_pos hnone, if_pos hnone, hnone]
    exact iff_of_true rfl (parse_serializeRela builder.endian .elf32 (by simp))
  · rw [if_neg hnone, if_neg hnone, Outcome.bind_eq_ok]
    constructor
    · rintro ⟨table, hparse, hret⟩
      rw [hparse, List.singleton_inj.1 (Except.ok.inj hret)]
    · intro hparse
      exact ⟨_, hparse, rfl⟩

/-- Every relocation is returned as it was given, and one that does not fit makes the
build fail. -/
def RejectsUnencodable (builder : ElfBuilder) : Prop :=
  (∀ image, builder.tryBuild = .ok image → builder.RelocatedAs image) ∧
    ((∃ entry ∈ builder.relocations, ¬entry.Fits32) → builder.tryBuild.IsErr)

/-- A builder of the narrow class that builds rejects what it cannot encode exactly when
it was given nothing of the kind, and exactly then its relocations come back. One that does
not build stores nothing. -/
theorem rejectsUnencodable_iff {builder : ElfBuilder} (hclass : builder.elfClass = .elf32) :
    (∀ image, builder.tryBuild = .ok image →
      (builder.RejectsUnencodable ↔ ∀ entry ∈ builder.relocations, entry.Fits32) ∧
        (builder.RelocatedAs image ↔ ∀ entry ∈ builder.relocations, entry.Fits32)) ∧
      (builder.tryBuild.IsErr → builder.RejectsUnencodable) := by
  refine ⟨fun image h => ?_, fun hfails => ?_⟩
  · have hrelocated : builder.RelocatedAs image ↔
        ∀ entry ∈ builder.relocations, entry.Fits32 := by
      obtain ⟨d, hpresent, rfl⟩ := exists_present h
      exact relocatedAs_iff hclass hpresent
    refine ⟨⟨fun hrejects => hrelocated.1 (hrejects.1 image h), fun hfits => ?_⟩, hrelocated⟩
    refine ⟨fun other hother => ?_, fun ⟨entry, hmem, hnot⟩ => absurd (hfits entry hmem) hnot⟩
    obtain rfl : image = other := Except.ok.inj (h.symm.trans hother)
    exact hrelocated.2 hfits
  · exact ⟨fun image h => absurd h (hfails.ne_ok image), fun _ => hfails⟩

end ElfBuilder

/-- A builder of the narrow class with one relocation, against the symbol of an index. -/
def symbolBuilder (symbol : UInt32) : ElfBuilder :=
  { ElfBuilder.new with
    elfClass := .elf32
    relocations := [{ offset := 0x1000, symbol, rType := 1, addend := none }] }

/-- A symbol index of 24 bits comes back. -/
theorem symbolBuilder_related : (symbolBuilder 0xffffff).RejectsUnencodable := by
  obtain ⟨image, himage⟩ := (symbolBuilder 0xffffff).exists_tryBuild (by decide +kernel)
  exact ((ElfBuilder.rejectsUnencodable_iff rfl).1 image himage).1.2 (by decide +kernel)

/-- A larger one is stored as another symbol. -/
theorem symbolBuilder_truncated : (symbolBuilder 0x1000005).elfClass = .elf32 ∧
    ((symbolBuilder 0x1000005).tryBuild >>= ElfImage.relocations) =
      .ok [{ entries := [{ offset := 0x1000, symbol := 5, rType := 1, addend := some 0 }]
             isRela := true }] ∧
    ¬(symbolBuilder 0x1000005).RejectsUnencodable := by
  refine ⟨rfl, by decide +kernel, fun hrejects => ?_⟩
  obtain ⟨image, himage⟩ := (symbolBuilder 0x1000005).exists_tryBuild (by decide +kernel)
  exact (hrejects.2 (by decide +kernel)).ne_ok image himage

end Elfex
