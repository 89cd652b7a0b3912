import Elfex.Builder.Serialize
import Elfex.Foundation.Codec

/-!
# The dynamic table codec

An entry is two words of the class. The table of the needed libraries names each one by
its offset in a string table, and the reader stops at the terminator, so the names are
read back in order.
-/

namespace Elfex

open Foundation

/-! ## Entries -/

/-- The size of one entry. -/
def DynamicEntry.entrySize : ElfClass → ℕ
  | .elf64 => 16
  | .elf32 => 8

/-- The two words of the entry fit the class. -/
def DynamicEntry.FitsDynamic (entry : DynamicEntry) (elfClass : ElfClass) : Prop :=
  elfClass.keep entry.tag = entry.tag ∧ elfClass.keep entry.value = entry.value

theorem length_writeDynamic (endian : Endian) (elfClass : ElfClass) (entry : DynamicEntry) :
    (entry.write endian elfClass).length = DynamicEntry.entrySize elfClass := by
  cases elfClass <;> simp [DynamicEntry.write, DynamicEntry.entrySize]

theorem parse_dynamic64 (endian : Endian) {entry : List UInt8} (h : entry.length = 16) :
    DynamicEntry.parse endian .elf64 entry =
      .ok { tag := endian.u64 (window entry 0 8), value := endian.u64 (window entry 8 8) } := by
  have htag : array8 entry 0 = .ok (window entry 0 8) := arrayAt_eq (by omega)
  have hvalue : array8 entry 8 = .ok (window entry 8 8) := arrayAt_eq (by omega)
  simp only [DynamicEntry.parse, htag, hvalue, Outcome.ok_bind]
  rfl

theorem parse_dynamic32 (endian : Endian) {entry : List UInt8} (h : entry.length = 8) :
    DynamicEntry.parse endian .elf32 entry =
      .ok { tag := (endian.u32 (window entry 0 4)).toUInt64
            value := (endian.u32 (window entry 4 4)).toUInt64 } := by
  have htag : array4 entry 0 = .ok (window entry 0 4) := arrayAt_eq (by omega)
  have hvalue : array4 entry 4 = .ok (window entry 4 4) := arrayAt_eq (by omega)
  simp only [DynamicEntry.parse, htag, hvalue, Outcome.ok_bind]
  rfl

theorem parse_writeDynamic (endian : Endian) (elfClass : ElfClass) (entry : DynamicEntry)
    (h : entry.FitsDynamic elfClass) :
    DynamicEntry.parse endian elfClass (entry.write endian elfClass) = .ok entry := by
  have hlen := length_writeDynamic endian elfClass entry
  have hnil : ([] : List UInt8).length = 0 := rfl
  obtain ⟨htag, hvalue⟩ := h
  cases elfClass with
  | elf64 =>
      obtain ⟨hfirst, hsecond, -⟩ := window_fields
        (endian.length_u64Bytes entry.tag) (endian.length_u64Bytes entry.value) hnil
      rw [List.append_nil] at hfirst hsecond
      rw [parse_dynamic64 endian hlen, DynamicEntry.write, hfirst, hsecond,
        Endian.u64_u64Bytes, Endian.u64_u64Bytes]
  | elf32 =>
      obtain ⟨hfirst, hsecond, -⟩ := window_fields
        (endian.length_u32Bytes (low32 entry.tag)) (endian.length_u32Bytes (low32 entry.value))
        hnil
      rw [List.append_nil] at hfirst hsecond
      rw [ElfClass.keep_elf32] at htag hvalue
      rw [parse_dynamic32 endian hlen, DynamicEntry.write, hfirst, hsecond,
        Endian.u32_u32Bytes, Endian.u32_u32Bytes, htag, hvalue]

theorem writeDynamic_parse (endian : Endian) (elfClass : ElfClass) {bytes : List UInt8}
    (h : bytes.length = DynamicEntry.entrySize elfClass) : ∃ entry : DynamicEntry,
      DynamicEntry.parse endian elfClass bytes = .ok entry ∧ entry.FitsDynamic elfClass ∧
        entry.write endian elfClass = bytes := by
  cases elfClass with
  | elf64 =>
      have hlen : bytes.length = 16 := h
      refine ⟨_, parse_dynamic64 endian h, ⟨rfl, rfl⟩, ?_⟩
      have hbytes := fields_window (n := 8) (m := 8) (k := 0) (l := bytes) h
      rw [window_zero_right, List.append_nil] at hbytes
      rw [DynamicEntry.write, Endian.u64Bytes_u64 endian (length_window_of_le (by omega)),
        Endian.u64Bytes_u64 endian (length_window_of_le (by omega)), hbytes]
  | elf32 =>
      have hlen : bytes.length = 8 := h
      refine ⟨_, parse_dynamic32 endian h, ⟨?_, ?_⟩, ?_⟩
      · exact ElfClass.keep_of_lt .elf32 (UInt32.toNat_lt _)
      · exact ElfClass.keep_of_lt .elf32 (UInt32.toNat_lt _)
      · have hbytes := fields_window (n := 4) (m := 4) (k := 0) (l := bytes) h
        rw [window_zero_right, List.append_nil] at hbytes
        rw [DynamicEntry.write, low32, UInt32.toUInt32_toUInt64, low32,
          UInt32.toUInt32_toUInt64, Endian.u32Bytes_u32 endian (length_window_of_le (by omega)),
          Endian.u32Bytes_u32 endian (length_window_of_le (by omega)), hbytes]

/-- The entries of a dynamic table. -/
def dynamicCodec (endian : Endian) (elfClass : ElfClass) :
    RecordCodec ErrorKind DynamicEntry where
  width := DynamicEntry.entrySize elfClass
  width_pos := by cases elfClass <;> decide
  encode entry := entry.write endian elfClass
  decode := DynamicEntry.parse endian elfClass
  Fits entry := entry.FitsDynamic elfClass
  length_encode := length_writeDynamic endian elfClass
  decode_encode := parse_writeDynamic endian elfClass
  encode_decode _ hlen := writeDynamic_parse endian elfClass hlen

/-! ## Tables -/

/-- The loop reads the written entries up to the first terminator. -/
theorem parseEntries_write (endian : Endian) (elfClass : ElfClass) {entries : List DynamicEntry}
    (h : ∀ entry ∈ entries, entry.FitsDynamic elfClass) :
    DynamicTable.parseEntries endian elfClass
        (entries.map fun entry => entry.write endian elfClass) =
      .ok (entries.takeWhile fun entry => entry.tag != DynTag.null) := by
  induction entries with
  | nil => rfl
  | cons entry entries ih =>
      rw [List.forall_mem_cons] at h
      rw [List.map_cons, DynamicTable.parseEntries, parse_writeDynamic endian elfClass entry h.1,
        Outcome.ok_bind]
      by_cases hnull : entry.tag = DynTag.null
      · rw [if_pos hnull, List.takeWhile_cons_of_neg (by simp [hnull])]
        rfl
      · rw [if_neg hnull, ih h.2, List.takeWhile_cons_of_pos (by simp [hnull])]
        rfl

theorem parse_dynamicTable_eq (data : List UInt8) (endian : Endian) (elfClass : ElfClass)
    (h : data.length % DynamicEntry.entrySize elfClass = 0) :
    DynamicTable.parse data endian elfClass =
      DynamicTable.parseEntries endian elfClass
        (chunksExact (DynamicEntry.entrySize elfClass) data) >>=
          fun entries => .ok { entries } := by
  cases elfClass <;> exact if_neg (not_not.2 h)

/-- A written table is read back up to its terminator. -/
theorem parse_writeTable (endian : Endian) (elfClass : ElfClass) {entries : List DynamicEntry}
    (h : ∀ entry ∈ entries, entry.FitsDynamic elfClass) :
    DynamicTable.parse (entries.flatMap fun entry => entry.write endian elfClass) endian
        elfClass =
      .ok { entries := entries.takeWhile fun entry => entry.tag != DynTag.null } := by
  have hchunks : chunksExact (DynamicEntry.entrySize elfClass)
      (entries.flatMap fun entry => entry.write endian elfClass) =
        entries.map fun entry => entry.write endian elfClass :=
    (dynamicCodec endian elfClass).chunks_encode entries
  have hlen : (entries.flatMap fun entry => entry.write endian elfClass).length =
      entries.length * DynamicEntry.entrySize elfClass :=
    length_flatMap_of_width _ entries fun entry _ => length_writeDynamic endian elfClass entry
  rw [parse_dynamicTable_eq _ endian elfClass (by rw [hlen, Nat.mul_mod_left]), hchunks,
    parseEntries_write endian elfClass h, Outcome.ok_bind]

theorem whole_of_parse_dynamic {data : List UInt8} {endian : Endian} {elfClass : ElfClass}
    {table : DynamicTable} (h : DynamicTable.parse data endian elfClass = .ok table) :
    DynamicEntry.entrySize elfClass ∣ data.length := by
  by_contra hwhole
  have hmod : data.length % DynamicEntry.entrySize elfClass ≠ 0 := fun hzero =>
    hwhole (Nat.dvd_of_mod_eq_zero hzero)
  have herr : DynamicTable.parse data endian elfClass =
      Outcome.fail (.invalidSection "dynamic table is not a whole number of entries") := by
    cases elfClass <;> exact if_pos hmod
  rw [herr] at h
  cases h

/-- A dynamic table is parsed exactly when it is a sequence of whole entries, and to those in
front of the first terminator; what the entries behind it are does not matter. -/
theorem parse_dynamic_iff (data : List UInt8) (endian : Endian) (elfClass : ElfClass)
    (table : DynamicTable) :
    DynamicTable.parse data endian elfClass = .ok table ↔
      ∃ rest : List DynamicEntry,
        (∀ entry ∈ table.entries ++ rest, entry.FitsDynamic elfClass) ∧
        (∀ entry ∈ table.entries, entry.tag ≠ DynTag.null) ∧
        (∀ entry, rest.head? = some entry → entry.tag = DynTag.null) ∧
        (table.entries ++ rest).flatMap (fun entry => entry.write endian elfClass) = data := by
  constructor
  · intro h
    obtain ⟨entries, hfits, rfl⟩ :=
      (dynamicCodec endian elfClass).exists_table (whole_of_parse_dynamic h)
    have hparse := parse_writeTable endian elfClass hfits
    rw [show (entries.flatMap fun entry => entry.write endian elfClass) =
      entries.flatMap (dynamicCodec endian elfClass).encode from rfl, h] at hparse
    obtain rfl := Except.ok.inj hparse
    refine ⟨entries.dropWhile fun entry => entry.tag != DynTag.null, ?_, fun entry hmem => ?_,
      fun entry hhead => ?_, ?_⟩
    · rw [List.takeWhile_append_dropWhile]
      exact hfits
    · simpa using List.mem_takeWhile_imp hmem
    · have hstop := List.head?_dropWhile_not (fun entry : DynamicEntry => entry.tag != DynTag.null)
        entries
      rw [hhead] at hstop
      simpa using hstop
    · rw [List.takeWhile_append_dropWhile]
      rfl
  · rintro ⟨rest, hfits, hkept, hrest, rfl⟩
    rw [parse_writeTable endian elfClass hfits, List.takeWhile_append_of_pos
      fun entry hmem => by simpa using hkept entry hmem]
    have hnone : rest.takeWhile (fun entry => entry.tag != DynTag.null) = [] := by
      cases rest with
      | nil => rfl
      | cons entry rest => exact List.takeWhile_cons_of_neg (by simp [hrest entry rfl])
    rw [hnone, List.append_nil]

/-! ## The needed libraries -/

theorem dynstrOffsets_snd (blob : List UInt8) (needed : List String) :
    (dynstrOffsets blob needed).2 = blob ++ needed.flatMap fun name => strBytes name ++ [0] := by
  induction needed generalizing blob with
  | nil => simp [dynstrOffsets]
  | cons name rest ih => simp [dynstrOffsets, ih, List.append_assoc]

/-- Each offset lies in the finished table. -/
theorem lt_of_mem_dynstrOffsets (blob : List UInt8) {needed : List String} {offset : ℕ}
    (h : offset ∈ (dynstrOffsets blob needed).1) :
    offset < (dynstrOffsets blob needed).2.length := by
  induction needed generalizing blob with
  | nil => exact absurd h List.not_mem_nil
  | cons name rest ih =>
      rcases List.mem_cons.1 h with rfl | h
      · rw [dynstrOffsets_snd]
        simp
      · exact ih (blob ++ strBytes name ++ [0]) h

/-- The offsets resolve to the names, in order. -/
theorem filterMap_dynstrOffsets (blob : List UInt8) {needed : List String}
    (h : ∀ name ∈ needed, 0 ∉ strBytes name) :
    (dynstrOffsets blob needed).1.filterMap (StringTable.get (dynstrOffsets blob needed).2) =
      needed := by
  induction needed generalizing blob with
  | nil => rfl
  | cons name rest ih =>
      rw [List.forall_mem_cons] at h
      have hget : StringTable.get (dynstrOffsets blob (name :: rest)).2 blob.length =
          some name := by
        rw [dynstrOffsets_snd, List.flatMap_cons, List.append_assoc, StringTable.get,
          if_neg (by simp), List.drop_left, List.singleton_append,
          StringTable.untilNul_append_nul, StringTable.untilNul_of_notMem h.1,
          fromUtf8_strBytes]
      rw [show (dynstrOffsets blob (name :: rest)).1 =
        blob.length :: (dynstrOffsets (blob ++ strBytes name ++ [0]) rest).1 from rfl,
        List.filterMap_cons, hget]
      exact congrArg (name :: ·) (ih (blob ++ strBytes name ++ [0]) h.2)

/-- Every offset resolves to a string: its name up to the first NUL. -/
theorem exists_get_dynstrOffsets (blob : List UInt8) {needed : List String} {offset : ℕ}
    (h : offset ∈ (dynstrOffsets blob needed).1) :
    ∃ first, StringTable.get (dynstrOffsets blob needed).2 offset = some first := by
  induction needed generalizing blob with
  | nil => exact absurd h List.not_mem_nil
  | cons name rest ih =>
      rcases List.mem_cons.1 h with rfl | h
      · obtain ⟨first, hfirst⟩ := StringTable.exists_untilNul name
        refine ⟨first, ?_⟩
        rw [dynstrOffsets_snd, List.flatMap_cons, List.append_assoc, StringTable.get,
          if_neg (by simp), List.drop_left, List.singleton_append,
          StringTable.untilNul_append_nul, ← hfirst, fromUtf8_strBytes]
      · exact ih (blob ++ strBytes name ++ [0]) h

/-- A partial map agrees with one that is defined throughout exactly when the lists of
values do. -/
theorem filterMap_eq_filterMap_iff {α β : Type*} {f g : α → Option β} {l : List α}
    (h : ∀ a ∈ l, ∃ b, g a = some b) :
    l.filterMap f = l.filterMap g ↔ ∀ a ∈ l, f a = g a := by
  refine ⟨fun heq => ?_, List.filterMap_congr⟩
  induction l with
  | nil => exact fun _ hmem => absurd hmem List.not_mem_nil
  | cons a l ih =>
      rw [List.forall_mem_cons] at h ⊢
      obtain ⟨⟨b, hb⟩, hrest⟩ := h
      have hall : ∀ l : List α, (∀ a ∈ l, ∃ b, g a = some b) →
          (l.filterMap g).length = l.length := by
        intro l hl
        rw [List.length_filterMap_eq_countP, List.countP_eq_length]
        intro a ha
        obtain ⟨b, hb⟩ := hl a ha
        rw [hb]
        rfl
      rw [List.filterMap_cons, List.filterMap_cons, hb] at heq
      cases hfa : f a with
      | none =>
          rw [hfa] at heq
          dsimp only at heq
          have hshort := List.length_filterMap_le f l
          have hlong := congrArg List.length heq
          rw [List.length_cons, hall l hrest] at hlong
          omega
      | some c =>
          rw [hfa] at heq
          dsimp only at heq
          obtain ⟨rfl, htail⟩ := List.cons.inj heq
          exact ⟨hb.symm, ih hrest htail⟩

/-- Another table of the same length resolves the offsets to the same names exactly when it
holds the same bytes from each of them to the first NUL. -/
theorem filterMap_get_dynstr_iff {needed : List String} {strtab : List UInt8}
    (hlen : strtab.length = (dynstr needed).length) :
    (dynstrOffsets [0] needed).1.filterMap (StringTable.get strtab) =
        (dynstrOffsets [0] needed).1.filterMap (StringTable.get (dynstr needed)) ↔
      ∀ offset ∈ (dynstrOffsets [0] needed).1,
        ∀ i ≤ (StringTable.untilNul ((dynstr needed).drop offset)).length,
          strtab[offset + i]? = (dynstr needed)[offset + i]? := by
  have hdefined : ∀ offset ∈ (dynstrOffsets [0] needed).1,
      ∃ first, StringTable.get (dynstr needed) offset = some first :=
    fun offset hoffset => exists_get_dynstrOffsets [0] hoffset
  rw [filterMap_eq_filterMap_iff hdefined]
  refine forall₂_congr fun offset hoffset => ?_
  obtain ⟨first, hget⟩ := hdefined offset hoffset
  have hlt : offset < (dynstr needed).length := lt_of_mem_dynstrOffsets [0] hoffset
  have htail := StringTable.untilNul_eq_iff
    (show (strtab.drop offset).length = ((dynstr needed).drop offset).length by simp [hlen])
  simp only [List.getElem?_drop] at htail
  rw [← htail, hget, StringTable.get, if_neg (by omega)]
  rw [StringTable.get, if_neg (by omega)] at hget
  rw [← strBytes_of_fromUtf8 hget]
  constructor
  · exact fun heq => (strBytes_of_fromUtf8 heq).symm
  · intro heq
    rw [heq, fromUtf8_strBytes]

section Needed

variable {needed : List String} (hlen : (dynstr needed).length < 2 ^ 32)

include hlen

theorem fits_dynamicEntries (elfClass : ElfClass) :
    ∀ entry ∈ dynamicEntries needed, entry.FitsDynamic elfClass := by
  have hfits : ∀ (tag : DynTag) (n : ℕ), tag.toNat < 2 ^ 32 → n < 2 ^ 32 →
      DynamicEntry.FitsDynamic { tag, value := u64OrZero n } elfClass := by
    intro tag n htag hn
    refine ⟨ElfClass.keep_of_lt _ htag, ElfClass.keep_of_lt _ ?_⟩
    dsimp only
    rw [toNat_u64OrZero (by omega)]
    exact hn
  intro entry hentry
  rw [dynamicEntries, List.mem_append, List.mem_map] at hentry
  rcases hentry with ⟨offset, hoffset, rfl⟩ | hentry
  · have hlt : offset < (dynstr needed).length := lt_of_mem_dynstrOffsets [0] hoffset
    exact hfits _ _ (by decide) (by omega)
  · simp only [List.mem_cons, List.not_mem_nil, or_false] at hentry
    rcases hentry with rfl | rfl | rfl
    · exact hfits _ 0 (by decide) (by decide)
    · exact hfits _ _ (by decide) hlen
    · exact hfits _ 0 (by decide) (by decide)

/-- The table of the needed libraries is read back as their offsets, in order. -/
theorem parse_serializeDynamic (endian : Endian) (elfClass : ElfClass) :
    ∃ table, DynamicTable.parse (serializeDynamic needed endian elfClass) endian elfClass =
        .ok table ∧ ∀ strtab, table.needed strtab =
          (dynstrOffsets [0] needed).1.filterMap (StringTable.get strtab) := by
  refine ⟨_, parse_writeTable endian elfClass (fits_dynamicEntries hlen elfClass),
    fun strtab => ?_⟩
  have hentries : (dynamicEntries needed).takeWhile (fun entry => entry.tag != DynTag.null) =
      (dynstrOffsets [0] needed).1.map (fun offset =>
        ({ tag := DynTag.needed, value := u64OrZero offset } : DynamicEntry)) ++
      [{ tag := DynTag.strtab, value := 0 },
        { tag := DynTag.strsz, value := u64OrZero (dynstr needed).length }] := by
    rw [dynamicEntries, List.takeWhile_append_of_pos]
    · rfl
    · intro entry hentry
      obtain ⟨offset, -, rfl⟩ := List.mem_map.1 hentry
      rfl
  have hfilter : ((dynamicEntries needed).takeWhile fun entry =>
        entry.tag != DynTag.null).filter (fun entry => entry.tag == DynTag.needed) =
      (dynstrOffsets [0] needed).1.map fun offset =>
        ({ tag := DynTag.needed, value := u64OrZero offset } : DynamicEntry) := by
    rw [hentries, List.filter_append, List.filter_eq_self.2, List.filter_eq_nil_iff.2,
      List.append_nil]
    · simp [DynTag.strtab, DynTag.strsz, DynTag.needed]
    · intro entry hentry
      obtain ⟨offset, -, rfl⟩ := List.mem_map.1 hentry
      rfl
  rw [DynamicTable.needed]
  dsimp only
  rw [hfilter, List.filterMap_map]
  refine List.filterMap_congr fun offset hoffset => ?_
  have hlt : offset < (dynstr needed).length := lt_of_mem_dynstrOffsets [0] hoffset
  rw [Function.comp_apply, DynamicTable.stringAt, toNat_u64OrZero (by omega)]

/-- The table of the needed libraries is read back as their names, in order. -/
theorem needed_serializeDynamic (endian : Endian) (elfClass : ElfClass)
    (hnames : ∀ name ∈ needed, 0 ∉ strBytes name) :
    ∃ table, DynamicTable.parse (serializeDynamic needed endian elfClass) endian elfClass =
        .ok table ∧ table.needed (dynstr needed) = needed := by
  obtain ⟨table, hparse, hneeded⟩ := parse_serializeDynamic hlen endian elfClass
  exact ⟨table, hparse, (hneeded _).trans (filterMap_dynstrOffsets [0] hnames)⟩

end Needed

end Elfex
