import Elfex.Foundation.Extent

/-!
# Extents as partial maps

An extent holds an element at each of its positions. `patch` replaces a range
inside it, and two extents agree when they hold the same element wherever both
hold one, so that copies of one memory agree pairwise. Patching one copy keeps it
in agreement with another exactly when the written elements agree with that one
and the rest did before.
-/

namespace Foundation

namespace Extent

variable {α : Type*} {e f w : Extent α}

/-- The element an extent holds at a position. -/
def get? (e : Extent α) (a : ℕ) : Option α :=
  if e.start ≤ a then e.bytes[a - e.start]? else none

/-- Every position of `w` is one of `e`. -/
def Within (w e : Extent α) : Prop := e.start ≤ w.start ∧ w.stop ≤ e.stop

instance (w e : Extent α) : Decidable (w.Within e) := inferInstanceAs (Decidable (_ ∧ _))

/-- Replaces the elements at the positions of `w`. -/
def patch (e w : Extent α) : Extent α :=
  { e with bytes := splice e.bytes (w.start - e.start) w.bytes }

/-- The two extents hold the same element wherever both hold one. -/
def Agree (e f : Extent α) : Prop :=
  ∀ a x y, e.get? a = some x → f.get? a = some y → x = y

/-- The two extents hold the same element wherever both hold one and `w` does not. -/
def AgreeOff (w e f : Extent α) : Prop :=
  ∀ a x y, w.get? a = none → e.get? a = some x → f.get? a = some y → x = y

theorem get?_eq_none_iff (e : Extent α) (a : ℕ) :
    e.get? a = none ↔ a < e.start ∨ e.stop ≤ a := by
  unfold get? stop
  split
  · rw [List.getElem?_eq_none_iff]
    omega
  · simp
    omega

theorem bounds_of_get? {a : ℕ} {x : α} (h : e.get? a = some x) :
    e.start ≤ a ∧ a < e.stop := by
  have hnone := mt (e.get?_eq_none_iff a).2 (by simp [h])
  omega

theorem get?_start_add (e : Extent α) (i : ℕ) : e.get? (e.start + i) = e.bytes[i]? := by
  rw [get?, if_pos (Nat.le_add_right _ _), Nat.add_sub_cancel_left]

/-- A nonempty extent holds an element at its last position. -/
theorem exists_get?_last (h : e.bytes ≠ []) : ∃ x, e.get? (e.stop - 1) = some x := by
  have hpos : 0 < e.bytes.length := List.length_pos_iff.2 h
  refine ⟨e.bytes[e.bytes.length - 1], ?_⟩
  rw [stop, Nat.add_sub_assoc hpos, get?_start_add]
  exact List.getElem?_eq_getElem _

theorem ext_get? {f : Extent α} (hstart : e.start = f.start)
    (h : ∀ a, e.get? a = f.get? a) : e = f := by
  obtain ⟨start, bytes⟩ := e
  obtain ⟨start', bytes'⟩ := f
  obtain rfl : start = start' := hstart
  congr 1
  apply List.ext_getElem?
  intro i
  have hi := h (start + i)
  rwa [get?_start_add ⟨start, bytes⟩, get?_start_add ⟨start, bytes'⟩] at hi

/-- Cutting an extent forgets the positions after the cut. -/
theorem get?_take (e : Extent α) (n a : ℕ) :
    (⟨e.start, e.bytes.take n⟩ : Extent α).get? a =
      if a < e.start + n then e.get? a else none := by
  unfold get?
  dsimp only
  by_cases hlow : e.start ≤ a
  · rw [if_pos hlow, if_pos hlow, List.getElem?_take]
    by_cases hcut : a - e.start < n
    · rw [if_pos hcut, if_pos (by omega)]
    · rw [if_neg hcut, if_neg (by omega)]
  · rw [if_neg hlow, if_neg hlow, ite_self]

theorem length_patch (h : w.Within e) : (e.patch w).bytes.length = e.bytes.length := by
  have hstop : w.start + w.bytes.length ≤ e.start + e.bytes.length := h.2
  rw [patch, length_splice]
  have hstart := h.1
  omega

/-- A patched extent holds the new elements where there are any and the old ones
elsewhere. -/
theorem get?_patch (h : w.Within e) (a : ℕ) :
    (e.patch w).get? a = (w.get? a).or (e.get? a) := by
  obtain ⟨hstart, hstop⟩ := h
  unfold stop at hstop
  unfold get? patch
  dsimp only
  by_cases hlow : e.start ≤ a
  · rw [if_pos hlow, if_pos hlow, getElem?_splice (by omega)]
    by_cases hin : w.start ≤ a ∧ a < w.start + w.bytes.length
    · rw [if_pos (by omega), if_pos hin.1, show a - e.start - (w.start - e.start) = a - w.start
        by omega, List.getElem?_eq_getElem (by omega), Option.some_or]
    · rw [if_neg (by omega)]
      split
      · have hnone : w.bytes[a - w.start]? = none := List.getElem?_eq_none (by omega)
        rw [hnone, Option.none_or]
      · rw [Option.none_or]
  · rw [if_neg hlow, if_neg (by omega), if_neg hlow, Option.none_or]

/-- A patch changes the elements at the positions of `w` only. -/
theorem bounds_of_patch_ne (h : w.Within e) {i : ℕ}
    (hne : (e.patch w).bytes[i]? ≠ e.bytes[i]?) : w.start ≤ e.start + i ∧ e.start + i < w.stop := by
  have hnone : w.get? (e.start + i) ≠ none := by
    intro hnone
    refine hne ?_
    have hpatch := get?_patch h (e.start + i)
    rw [hnone, Option.none_or, get?_start_add] at hpatch
    rw [← hpatch]
    exact ((e.patch w).get?_start_add i).symm
  have hout := mt (w.get?_eq_none_iff (e.start + i)).2 hnone
  omega

theorem Agree.symm (h : e.Agree f) : f.Agree e := fun a x y hx hy => (h a y x hy hx).symm

theorem Agree.refl (e : Extent α) : e.Agree e := fun _ _ _ hx hy =>
  Option.some.inj (hx.symm.trans hy)

theorem AgreeOff.symm (h : AgreeOff w e f) : AgreeOff w f e :=
  fun a x y hw hx hy => (h a y x hw hy hx).symm

theorem Agree.off (h : e.Agree f) (w : Extent α) : AgreeOff w e f :=
  fun a x y _ hx hy => h a x y hx hy

/-- Two extents that agree with `w` where it holds elements and with each other elsewhere
agree. -/
theorem agree_of_off (he : w.Agree e) (hf : w.Agree f) (hoff : AgreeOff w e f) :
    e.Agree f := by
  intro a x y hx hy
  cases hw : w.get? a with
  | none => exact hoff a x y hw hx hy
  | some z => rw [← he a z x hw hx, ← hf a z y hw hy]

theorem patch_agree_iff (h : w.Within e) :
    (e.patch w).Agree f ↔ w.Agree f ∧ AgreeOff w e f := by
  constructor
  · intro hagree
    constructor
    · intro a x y hx hy
      exact hagree a x y (by rw [get?_patch h, hx, Option.some_or]) hy
    · intro a x y hw hx hy
      exact hagree a x y (by rw [get?_patch h, hw, Option.none_or, hx]) hy
  · rintro ⟨hon, hoff⟩ a x y hx hy
    rw [get?_patch h] at hx
    cases hw : w.get? a with
    | none =>
        rw [hw, Option.none_or] at hx
        exact hoff a x y hw hx hy
    | some z =>
        rw [hw, Option.some_or] at hx
        exact hon a x y (hw.trans hx) hy

/-- What was patched in is held. -/
theorem agree_patch (h : w.Within e) : w.Agree (e.patch w) :=
  ((patch_agree_iff h).1 (Agree.refl _)).1

/-! ## The elements of one extent in another -/

/-- The extent with the elements of `w` wherever both hold one. -/
def overlaid (e w : Extent α) : Extent α :=
  { e with bytes := e.bytes.mapIdx fun i x => (w.get? (e.start + i)).getD x }

theorem get?_overlaid (e w : Extent α) (a : ℕ) :
    (e.overlaid w).get? a = (e.get? a).map fun x => (w.get? a).getD x := by
  unfold get? overlaid
  dsimp only
  by_cases hlow : e.start ≤ a
  · rw [if_pos hlow, if_pos hlow, List.getElem?_mapIdx, Nat.add_sub_cancel' hlow]
    rfl
  · rw [if_neg hlow, if_neg hlow, Option.map_none]

/-- Nothing changes exactly when the two agree already. -/
theorem overlaid_eq_self_iff : e.overlaid w = e ↔ w.Agree e := by
  constructor
  · intro heq a x y hx hy
    have hget := e.get?_overlaid w a
    rw [heq, hy, hx] at hget
    exact (Option.some.inj hget).symm
  · intro hagree
    refine ext_get? rfl fun a => ?_
    rw [get?_overlaid]
    cases hy : e.get? a with
    | none => rfl
    | some y =>
        cases hx : w.get? a with
        | none => rfl
        | some x => rw [Option.map_some, Option.getD_some, hagree a x y hx hy]

theorem overlaid_eq_patch (h : w.Within e) : e.overlaid w = e.patch w := by
  refine ext_get? rfl fun a => ?_
  rw [get?_overlaid, get?_patch h]
  cases hx : w.get? a with
  | none =>
      rw [Option.none_or]
      exact Option.map_id_apply
  | some x =>
      have hin := bounds_of_get? hx
      have hsome : e.get? a ≠ none := by
        rw [ne_eq, get?_eq_none_iff]
        have hstart := h.1
        have hstop := h.2
        omega
      obtain ⟨y, hy⟩ := Option.ne_none_iff_exists'.1 hsome
      rw [hy]
      rfl

/-- Whether two extents agree is a finite check. -/
theorem agree_iff_forall_lt : e.Agree f ↔ ∀ i, (h : i < e.bytes.length) →
    ∀ y ∈ f.get? (e.start + i), e.bytes[i] = y := by
  constructor
  · intro hagree i hi y hy
    refine hagree (e.start + i) _ y ?_ hy
    rw [get?_start_add, List.getElem?_eq_getElem hi]
  · intro hall a x y hx hy
    obtain ⟨hlow, hhigh⟩ := bounds_of_get? hx
    obtain ⟨i, rfl⟩ := Nat.exists_eq_add_of_le hlow
    have hi : i < e.bytes.length := Nat.lt_of_add_lt_add_left hhigh
    rw [get?_start_add, List.getElem?_eq_getElem hi] at hx
    exact (Option.some.inj hx).symm.trans (hall i hi y hy)

instance [DecidableEq α] (e f : Extent α) : Decidable (e.Agree f) :=
  decidable_of_iff _ agree_iff_forall_lt.symm

/-! ## Copies of one memory -/

/-- Patching the copy at position `i` of a list of copies keeps them in agreement with the
marked ones exactly when every other copy agrees with the patch, and the marked ones agree
with each other elsewhere. -/
theorem forall_agree_set_iff {es : List (Extent α)} (marked : ℕ → Prop) {i : ℕ}
    (hi : es[i]? = some e) (hmarked : marked i) (h : w.Within e)
    (hbefore : ∀ (p : ℕ) (e' : Extent α) (q : ℕ) (f' : Extent α), es[p]? = some e' →
      es[q]? = some f' → ¬marked p → marked q → e'.Agree f') :
    (∀ (p : ℕ) (e' : Extent α) (q : ℕ) (f' : Extent α),
        (es.set i (e.patch w))[p]? = some e' → (es.set i (e.patch w))[q]? = some f' →
        marked q → e'.Agree f') ↔
      (∀ (p : ℕ) (e' : Extent α), p ≠ i → es[p]? = some e' → w.Agree e') ∧
        ∀ (p : ℕ) (e' : Extent α) (q : ℕ) (f' : Extent α), es[p]? = some e' →
          es[q]? = some f' → marked p → marked q → AgreeOff w e' f' := by
  have hlen : i < es.length := (List.getElem?_eq_some_iff.1 hi).1
  have hself : (es.set i (e.patch w))[i]? = some (e.patch w) :=
    List.getElem?_set_self hlen
  have hother : ∀ p, p ≠ i → (es.set i (e.patch w))[p]? = es[p]? := fun p hp =>
    List.getElem?_set_ne hp.symm
  constructor
  · intro hagree
    have hpatched : ∀ p e', p ≠ i → es[p]? = some e' → (e.patch w).Agree e' := by
      intro p e' hp he'
      exact (hagree p e' i _ ((hother p hp).trans he') hself hmarked).symm
    refine ⟨fun p e' hp he' => ((patch_agree_iff h).1 (hpatched p e' hp he')).1, ?_⟩
    intro p e' q f' he' hf' hp hq
    by_cases hpi : p = i
    · subst hpi
      obtain rfl : e = e' := Option.some.inj (hi.symm.trans he')
      by_cases hqi : q = p
      · subst hqi
        obtain rfl : e = f' := Option.some.inj (hi.symm.trans hf')
        exact (Agree.refl e).off w
      · exact ((patch_agree_iff h).1 (hpatched q f' hqi hf')).2
    · by_cases hqi : q = i
      · subst hqi
        obtain rfl : e = f' := Option.some.inj (hi.symm.trans hf')
        exact (((patch_agree_iff h).1 (hpatched p e' hpi he')).2).symm
      · exact (hagree p e' q f' ((hother p hpi).trans he') ((hother q hqi).trans hf') hq).off w
  · rintro ⟨hon, hoff⟩ p e' q f' he' hf' hq
    by_cases hpi : p = i
    · subst hpi
      obtain rfl : e.patch w = e' := Option.some.inj (hself.symm.trans he')
      by_cases hqi : q = p
      · subst hqi
        obtain rfl : e.patch w = f' := Option.some.inj (hself.symm.trans hf')
        exact Agree.refl _
      · rw [hother q hqi] at hf'
        exact (patch_agree_iff h).2 ⟨hon q f' hqi hf', hoff p e q f' hi hf' hmarked hq⟩
    · rw [hother p hpi] at he'
      by_cases hqi : q = i
      · subst hqi
        obtain rfl : e.patch w = f' := Option.some.inj (hself.symm.trans hf')
        refine ((patch_agree_iff h).2 ⟨hon p e' hpi he', ?_⟩).symm
        by_cases hp : marked p
        · exact hoff q e p e' hi he' hmarked hp
        · exact ((hbefore p e' q e he' hi hp hmarked).symm).off w
      · rw [hother q hqi] at hf'
        by_cases hp : marked p
        · exact agree_of_off (hon p e' hpi he') (hon q f' hqi hf')
            (hoff p e' q f' he' hf' hp hq)
        · exact hbefore p e' q f' he' hf' hp hq

end Extent

end Foundation
