import Elfex.Image.Build

/-!
# What the placement loop lays down

The placement loop is a function of the items' payloads and of the positions the
cursor gives them. `placements` is that function; a successful run records the
items accordingly and paints their payloads as a stack of extents. The two
position rules are the least offsets in a residue class.
-/

namespace Elfex

open Foundation

/-! ## Positions -/

theorem toNat_congruent (cursor vaddr alignment : UInt64) (h : 1 < alignment.toNat) :
    (congruent cursor vaddr alignment).toNat =
      min (nextCongruent cursor.toNat vaddr.toNat alignment.toNat) (2 ^ 64 - 1) := by
  have hone : ¬alignment ≤ 1 := by
    rw [UInt64.le_iff_toNat_le]
    simpa using h
  have hcursor := cursor.toNat_lt
  have ht := Nat.mod_lt vaddr.toNat (by omega : 0 < alignment.toNat)
  have hc := Nat.mod_lt cursor.toNat (by omega : 0 < alignment.toNat)
  simp only [congruent, if_neg hone]
  rw [nextCongruent]
  split <;> rename_i heq
  · rw [← UInt64.toNat_inj, UInt64.toNat_mod, UInt64.toNat_mod] at heq
    rw [if_pos heq.le]
    omega
  rw [← UInt64.toNat_inj, UInt64.toNat_mod, UInt64.toNat_mod] at heq
  split <;> rename_i hlt <;>
    rw [UInt64.lt_iff_toNat_lt, UInt64.toNat_mod, UInt64.toNat_mod] at hlt
  · rw [toNat_saturatingAdd, if_pos hlt.le, UInt64.toNat_sub_of_le _ _ (by
      rw [UInt64.le_iff_toNat_le, UInt64.toNat_mod, UInt64.toNat_mod]; exact hlt.le),
      UInt64.toNat_mod, UInt64.toNat_mod]
  · have hdiff : (cursor % alignment - vaddr % alignment).toNat =
        cursor.toNat % alignment.toNat - vaddr.toNat % alignment.toNat := by
      rw [UInt64.toNat_sub_of_le, UInt64.toNat_mod, UInt64.toNat_mod]
      rw [UInt64.le_iff_toNat_le, UInt64.toNat_mod, UInt64.toNat_mod]
      omega
    rw [toNat_saturatingAdd, if_neg (by omega), UInt64.toNat_sub_of_le, hdiff]
    rw [UInt64.le_iff_toNat_le, hdiff]
    omega

theorem toNat_alignUp (value alignment : UInt64) (h : 1 < alignment.toNat) :
    (alignUp value alignment).toNat =
      min (nextCongruent value.toNat 0 alignment.toNat) (2 ^ 64 - 1) := by
  have hone : ¬alignment ≤ 1 := by
    rw [UInt64.le_iff_toNat_le]
    simpa using h
  have hvalue := value.toNat_lt
  have hr := Nat.mod_lt value.toNat (by omega : 0 < alignment.toNat)
  simp only [alignUp, if_neg hone]
  rw [nextCongruent, Nat.zero_mod]
  split <;> rename_i heq
  · rw [← UInt64.toNat_inj, UInt64.toNat_mod] at heq
    have hzero : value.toNat % alignment.toNat = 0 := heq
    rw [if_pos hzero.le, hzero]
    omega
  · have hpos : value.toNat % alignment.toNat ≠ 0 := by
      intro hz
      apply heq
      rw [← UInt64.toNat_inj, UInt64.toNat_mod]
      exact hz
    rw [toNat_saturatingAdd, if_neg (by omega), UInt64.toNat_sub_of_le, UInt64.toNat_mod,
      Nat.sub_zero]
    rw [UInt64.le_iff_toNat_le, UInt64.toNat_mod]
    exact hr.le

theorem le_congruent (cursor vaddr alignment : UInt64) :
    cursor.toNat ≤ (congruent cursor vaddr alignment).toNat := by
  by_cases h : 1 < alignment.toNat
  · have hcursor := cursor.toNat_lt
    have hle := le_nextCongruent cursor.toNat vaddr.toNat alignment.toNat
    rw [toNat_congruent _ _ _ h]
    omega
  · rw [congruent, if_pos]
    rw [UInt64.le_iff_toNat_le]
    simpa using Nat.le_of_not_lt h

theorem le_alignUp (value alignment : UInt64) :
    value.toNat ≤ (alignUp value alignment).toNat := by
  by_cases h : 1 < alignment.toNat
  · have hvalue := value.toNat_lt
    have hle := le_nextCongruent value.toNat 0 alignment.toNat
    rw [toNat_alignUp _ _ h]
    omega
  · rw [alignUp, if_pos]
    rw [UInt64.le_iff_toNat_le]
    simpa using Nat.le_of_not_lt h

theorem Segment.le_position (segment : Segment) (cursor : UInt64) :
    cursor.toNat ≤ (segment.position cursor).toNat :=
  le_congruent _ _ _

theorem Section.le_position (sec : Section) (cursor : UInt64) :
    cursor.toNat ≤ (sec.position cursor).toNat :=
  le_alignUp _ _

/-! ## Writes -/

theorem writeAt_eq_ok {out bytes out' : List UInt8} {offset : UInt64} :
    writeAt out offset bytes = .ok out' ↔
      offset.toNat + bytes.length ≤ maxImage ∧
        out' = overwrite 0 out offset.toNat bytes := by
  have hmax : maxImage < 2 ^ 64 := by decide
  simp only [writeAt]
  split
  · simp [Outcome.fail]
    omega
  · split
    · simp [Outcome.fail]
      omega
    · rw [Except.ok.injEq]
      constructor
      · rintro rfl
        exact ⟨by omega, rfl⟩
      · rintro ⟨-, rfl⟩
        rfl

theorem copyFromSlice_eq_ok {out source out' : List UInt8} {start stop : ℕ} :
    copyFromSlice out start stop source = .ok out' ↔
      (start ≤ stop ∧ stop ≤ out.length ∧ source.length = stop - start) ∧
        out' = splice out start source := by
  rw [copyFromSlice]
  split <;> rename_i h
  · simp [h, eq_comm]
  · simp [h, Outcome.fault]

theorem countU16_eq_ok {n : ℕ} {message : String} {count : UInt16} :
    countU16 n message = .ok count ↔ count.toNat = n := by
  have hlt := count.toNat_lt
  unfold countU16
  split <;> rename_i h
  · rw [Except.ok.injEq, ← UInt16.toNat_inj, UInt16.toNat_ofNat', Nat.mod_eq_of_lt h,
      eq_comm]
  · simp [Outcome.fail]
    omega

/-! ## The loop -/

section Placements

variable {α β : Type} (payload : α → List UInt8) (position : α → UInt64 → UInt64)
  (skipped : α → β) (placed : α → UInt64 → β)

/-- Where the loop puts each item; `none` for an item without payload. -/
def placements : List α → UInt64 → List (Option UInt64)
  | [], _ => []
  | item :: rest, cursor =>
    if payload item = [] then none :: placements rest cursor
    else
      some (position item cursor) ::
        placements rest (position item cursor + UInt64.ofNat (payload item).length)

def cursorAfter : List α → UInt64 → UInt64
  | [], cursor => cursor
  | item :: rest, cursor =>
    if payload item = [] then cursorAfter rest cursor
    else cursorAfter rest (position item cursor + UInt64.ofNat (payload item).length)

/-- The record of an item put at `place`. -/
def recordAt (item : α) : Option UInt64 → β
  | none => skipped item
  | some offset => placed item offset

/-- The extent of an item put at `place`. -/
def extentAt (item : α) (place : Option UInt64) : Option (Extent UInt8) :=
  place.map fun offset => ⟨offset.toNat, payload item⟩

def recordsOf (items : List α) (cursor : UInt64) : List β :=
  (items.zip (placements payload position items cursor)).map fun entry =>
    recordAt skipped placed entry.1 entry.2

def extentsOf (items : List α) (cursor : UInt64) : List (Extent UInt8) :=
  (items.zip (placements payload position items cursor)).filterMap fun entry =>
    extentAt payload entry.1 entry.2

@[simp] theorem length_placements (items : List α) (cursor : UInt64) :
    (placements payload position items cursor).length = items.length := by
  induction items generalizing cursor with
  | nil => rfl
  | cons item rest ih =>
      rw [placements]
      split <;> simp [ih]

@[simp] theorem length_recordsOf (items : List α) (cursor : UInt64) :
    (recordsOf payload position skipped placed items cursor).length = items.length := by
  simp [recordsOf]

variable {payload position skipped placed}

theorem mem_recordsOf {items : List α} {cursor : UInt64} {record : β} :
    record ∈ recordsOf payload position skipped placed items cursor ↔
      ∃ item place, (item, place) ∈ items.zip (placements payload position items cursor) ∧
        recordAt skipped placed item place = record := by
  rw [recordsOf, List.mem_map]
  constructor
  · rintro ⟨⟨item, place⟩, hmem, hrecord⟩
    exact ⟨item, place, hmem, hrecord⟩
  · rintro ⟨item, place, hmem, hrecord⟩
    exact ⟨⟨item, place⟩, hmem, hrecord⟩

/-- Each item is placed where the cursor stands after the items before it. -/
theorem placements_getElem? {items : List α} {i : ℕ} {item : α} (h : items[i]? = some item)
    (cursor : UInt64) :
    (placements payload position items cursor)[i]? =
      some (if payload item = [] then none
        else some (position item (cursorAfter payload position (items.take i) cursor))) := by
  induction items generalizing i cursor with
  | nil => exact absurd h (by simp)
  | cons first rest ih =>
      cases i with
      | zero =>
          obtain rfl : first = item := by simpa using h
          rw [placements]
          split <;> rfl
      | succ i =>
          rw [List.getElem?_cons_succ] at h
          rw [placements, List.take_succ_cons, cursorAfter]
          split
          · rw [List.getElem?_cons_succ]
            exact ih h _
          · rw [List.getElem?_cons_succ]
            exact ih h _

theorem placements_take (items : List α) (cursor : UInt64) (i : ℕ) :
    placements payload position (items.take i) cursor =
      (placements payload position items cursor).take i := by
  induction items generalizing i cursor with
  | nil => simp [placements]
  | cons first rest ih =>
      cases i with
      | zero => rfl
      | succ i =>
          rw [List.take_succ_cons, placements, placements]
          split <;> rw [List.take_succ_cons, ih]

theorem recordsOf_getElem? {items : List α} {cursor : UInt64} {i : ℕ} {item : α}
    (h : items[i]? = some item) :
    ∃ place, (item, place) ∈ items.zip (placements payload position items cursor) ∧
      place = (if payload item = [] then none
        else some (position item (cursorAfter payload position (items.take i) cursor))) ∧
      (recordsOf payload position skipped placed items cursor)[i]? =
        some (recordAt skipped placed item place) := by
  have hzip : (items.zip (placements payload position items cursor))[i]? = some (item, _) :=
    List.getElem?_zip_eq_some.2 ⟨h, placements_getElem? h cursor⟩
  refine ⟨_, List.mem_of_getElem? hzip, rfl, ?_⟩
  rw [recordsOf, List.getElem?_map, hzip, Option.map_some]

/-- Exactly the items without payload have no place. -/
theorem eq_none_iff_of_mem_zip {items : List α} {cursor : UInt64} {item : α}
    {place : Option UInt64}
    (h : (item, place) ∈ items.zip (placements payload position items cursor)) :
    place = none ↔ payload item = [] := by
  rcases List.mem_iff_getElem?.1 h with ⟨i, hi⟩
  rcases List.getElem?_zip_eq_some.1 hi with ⟨hitem, hplace⟩
  dsimp only at hitem hplace
  rw [placements_getElem? hitem, Option.some_inj] at hplace
  subst hplace
  split <;> simp [*]

/-- A placed item is one of the extents. -/
theorem mem_extentsOf_of_mem_zip {items : List α} {cursor offset : UInt64} {item : α}
    (h : (item, some offset) ∈ items.zip (placements payload position items cursor)) :
    ⟨offset.toNat, payload item⟩ ∈ extentsOf payload position items cursor :=
  List.mem_filterMap.2 ⟨_, h, rfl⟩

/-- The first items are paired with the first places. -/
theorem zip_placements_take (items : List α) (cursor : UInt64) (i : ℕ) :
    (items.take i).zip (placements payload position (items.take i) cursor) =
      (items.zip (placements payload position items cursor)).take i := by
  rw [placements_take]
  exact List.take_zipWith.symm

theorem mem_extentsOf_of_take {items : List α} {cursor : UInt64} {i : ℕ}
    {e : Extent UInt8} (h : e ∈ extentsOf payload position (items.take i) cursor) :
    e ∈ extentsOf payload position items cursor := by
  rw [extentsOf, zip_placements_take] at h
  exact ((List.take_sublist i _).filterMap _).mem h

theorem extentsOf_cons_of_eq_nil {item : α} (h : payload item = []) (rest : List α)
    (cursor : UInt64) :
    extentsOf payload position (item :: rest) cursor =
      extentsOf payload position rest cursor := by
  simp [extentsOf, placements, h, extentAt]

theorem extentsOf_cons_of_ne_nil {item : α} (h : payload item ≠ []) (rest : List α)
    (cursor : UInt64) :
    extentsOf payload position (item :: rest) cursor =
      ⟨(position item cursor).toNat, payload item⟩ ::
        extentsOf payload position rest
          (position item cursor + UInt64.ofNat (payload item).length) := by
  simp [extentsOf, placements, h, extentAt]

/-- Extents that end inside the size limit are stacked between the two cursors. -/
theorem stacked_extentsOf (hposition : ∀ item cursor,
      cursor.toNat ≤ (position item cursor).toNat)
    {items : List α} {cursor : UInt64}
    (hfit : ∀ e ∈ extentsOf payload position items cursor, e.stop ≤ maxImage) :
    Extent.Stacked cursor.toNat (extentsOf payload position items cursor)
      (cursorAfter payload position items cursor).toNat := by
  induction items generalizing cursor with
  | nil => rfl
  | cons item rest ih =>
      rw [cursorAfter]
      by_cases hpayload : payload item = []
      · rw [extentsOf_cons_of_eq_nil hpayload] at hfit ⊢
        rw [if_pos hpayload]
        exact ih hfit
      · rw [extentsOf_cons_of_ne_nil hpayload, List.forall_mem_cons] at hfit
        rw [extentsOf_cons_of_ne_nil hpayload, if_neg hpayload]
        have hmax : maxImage < 2 ^ 64 := by decide
        have hstop : (position item cursor).toNat + (payload item).length ≤ maxImage :=
          hfit.1
        have hlen : (UInt64.ofNat (payload item).length).toNat = (payload item).length :=
          toNat_ofNat_of_lt (by omega)
        have hrest := ih hfit.2
        rw [toNat_add_of_lt (by omega), hlen] at hrest
        exact ⟨hposition item cursor, hrest⟩

/-- A successful run of the loop records the placements, moves the cursor over them and
paints their extents, all of which end inside the size limit. -/
theorem placeEach_eq_ok {items : List α} {out out' : List UInt8} {cursor cursor' : UInt64}
    {records : List β}
    (h : placeEach payload position skipped placed items out cursor =
      .ok (records, out', cursor')) :
    records = recordsOf payload position skipped placed items cursor ∧
      cursor' = cursorAfter payload position items cursor ∧
      out' = Extent.paint 0 out (extentsOf payload position items cursor) ∧
      ∀ e ∈ extentsOf payload position items cursor, e.stop ≤ maxImage := by
  induction items generalizing out cursor records with
  | nil =>
      rw [placeEach, Except.ok.injEq, Prod.mk.injEq, Prod.mk.injEq] at h
      obtain ⟨rfl, rfl, rfl⟩ := h
      exact ⟨rfl, rfl, rfl, by simp [extentsOf]⟩
  | cons item rest ih =>
      rw [placeEach] at h
      by_cases hpayload : payload item = []
      · rw [if_pos hpayload, Outcome.bind_eq_ok] at h
        obtain ⟨⟨records, out₁, cursor₁⟩, hrest, hret⟩ := h
        cases hret
        obtain ⟨hrecords, hcursor, hout, hfit⟩ := ih hrest
        rw [extentsOf_cons_of_eq_nil hpayload, cursorAfter, if_pos hpayload]
        refine ⟨?_, hcursor, hout, hfit⟩
        rw [hrecords]
        simp [recordsOf, placements, hpayload, recordAt]
      · rw [if_neg hpayload, Outcome.bind_eq_ok] at h
        obtain ⟨out₁, hwrite, h⟩ := h
        rw [Outcome.bind_eq_ok] at h
        obtain ⟨cursor₁, hadd, h⟩ := h
        rw [Outcome.bind_eq_ok] at h
        obtain ⟨⟨records, out₂, cursor₂⟩, hrest, hret⟩ := h
        cases hret
        rcases writeAt_eq_ok.1 hwrite with ⟨hstop, rfl⟩
        obtain rfl : position item cursor + UInt64.ofNat (payload item).length = cursor₁ := by
          have hmax : maxImage < 2 ^ 64 := by decide
          rw [Outcome.add_of_lt (by rw [toNat_ofNat_of_lt (by omega)]; omega)] at hadd
          exact Except.ok.inj hadd
        obtain ⟨hrecords, hcursor, hout, hfit⟩ := ih hrest
        rw [extentsOf_cons_of_ne_nil hpayload, cursorAfter, if_neg hpayload]
        refine ⟨?_, hcursor, hout, List.forall_mem_cons.2 ⟨hstop, hfit⟩⟩
        rw [hrecords]
        simp [recordsOf, placements, hpayload, recordAt]

/-- The loop depends on its items through their payloads, positions and records
only. -/
theorem placeEach_congr {items items' : List α}
    (h : List.Forall₂ (fun item item' => payload item' = payload item ∧
      (∀ cursor, position item' cursor = position item cursor) ∧
      (payload item = [] → skipped item' = skipped item) ∧
      (payload item ≠ [] → ∀ offset, placed item' offset = placed item offset))
      items items') (out : List UInt8) (cursor : UInt64) :
    placeEach payload position skipped placed items' out cursor =
      placeEach payload position skipped placed items out cursor := by
  induction h generalizing out cursor with
  | nil => rfl
  | cons hitem _ ih =>
      obtain ⟨hpayload, hposition, hskipped, hplaced⟩ := hitem
      rw [placeEach, placeEach, hpayload, hposition]
      split
      · rename_i hempty
        simp only [ih, hskipped hempty]
      · rename_i hne
        simp only [ih, hplaced hne]

end Placements

/-- Placing a section changes the offset and the size of its header only. -/
theorem Section.header_recordAt (sec : Section) (place : Option UInt64) :
    ∃ offset size, (recordAt Section.skipped Section.placed sec place).header =
      { sec.header with offset, size } := by
  cases place with
  | none =>
      rw [recordAt, Section.skipped]
      split
      · exact ⟨sec.header.offset, sec.header.size, rfl⟩
      · exact ⟨sec.header.offset, 0, rfl⟩
  | some offset => exact ⟨offset, UInt64.ofNat sec.data.length, rfl⟩

end Elfex
