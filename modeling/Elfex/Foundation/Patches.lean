import Elfex.Foundation.Layer

/-!
# Runs of patches

Patches inside one extent, applied one after another. At every position the last patch that
holds an element there shows, so a run of patches is a function of its layers: patches that
share no position can come in any order, and one that later ones cover can be left out.
-/

namespace Foundation

namespace Extent

variable {α : Type*} {e : Extent α} {ws ws' : List (Extent α)}

/-- Applies the patches in order. -/
def patchAll (e : Extent α) (ws : List (Extent α)) : Extent α := ws.foldl patch e

@[simp] theorem patchAll_nil (e : Extent α) : e.patchAll [] = e := rfl

@[simp] theorem patchAll_cons (e w : Extent α) (ws : List (Extent α)) :
    e.patchAll (w :: ws) = (e.patch w).patchAll ws := rfl

theorem patchAll_append (e : Extent α) (ws ws' : List (Extent α)) :
    e.patchAll (ws ++ ws') = (e.patchAll ws).patchAll ws' := List.foldl_append

@[simp] theorem patchAll_start (e : Extent α) (ws : List (Extent α)) :
    (e.patchAll ws).start = e.start := by
  induction ws generalizing e with
  | nil => rfl
  | cons w ws ih => exact ih (e.patch w)

theorem within_congr {f w : Extent α} (hstart : f.start = e.start)
    (hlength : f.bytes.length = e.bytes.length) : w.Within f ↔ w.Within e := by
  rw [Within, Within, stop, stop, stop, hstart, hlength]

theorem within_patch {w v : Extent α} (hw : w.Within e) :
    v.Within (e.patch w) ↔ v.Within e := within_congr rfl (length_patch hw)

theorem forall_within_patch {w : Extent α} (h : ∀ v ∈ w :: ws, v.Within e) :
    ∀ v ∈ ws, v.Within (e.patch w) := fun v hv =>
  (within_patch (h w List.mem_cons_self)).2 (h v (List.mem_cons_of_mem w hv))

theorem length_patchAll (h : ∀ w ∈ ws, w.Within e) :
    (e.patchAll ws).bytes.length = e.bytes.length := by
  induction ws generalizing e with
  | nil => rfl
  | cons w ws ih =>
      rw [patchAll_cons, ih (forall_within_patch h), length_patch (h w List.mem_cons_self)]

/-- After a run of patches the last one that holds an element shows, and the extent itself
where there is none. -/
theorem get?_patchAll (h : ∀ w ∈ ws, w.Within e) (a : ℕ) :
    (e.patchAll ws).get? a = (topmost ws a).or (e.get? a) := by
  induction ws generalizing e with
  | nil => rfl
  | cons w ws ih =>
      rw [patchAll_cons, ih (forall_within_patch h), get?_patch (h w List.mem_cons_self),
        topmost_cons, Option.or_assoc]

/-- Runs with the same layers patch alike. -/
theorem patchAll_congr (h : ∀ w ∈ ws, w.Within e) (h' : ∀ w ∈ ws', w.Within e)
    (hlayers : ∀ a, topmost ws a = topmost ws' a) : e.patchAll ws = e.patchAll ws' := by
  refine ext_get? (by rw [patchAll_start, patchAll_start]) fun a => ?_
  rw [get?_patchAll h, get?_patchAll h', hlayers]

theorem Disjoint.get?_eq_none {w v : Extent α} (h : w.Disjoint v) {a : ℕ} {x : α}
    (hx : w.get? a = some x) : v.get? a = none := by
  obtain ⟨hlow, hhigh⟩ := bounds_of_get? hx
  rw [get?_eq_none_iff]
  rcases h with h | h <;> omega

/-- Layers that share no position show the same in any order. -/
theorem topmost_perm (hperm : ws.Perm ws') (hdisjoint : ws.Pairwise Disjoint) (a : ℕ) :
    topmost ws a = topmost ws' a := by
  induction hperm with
  | nil => rfl
  | cons w _ ih => rw [topmost_cons, topmost_cons, ih (List.pairwise_cons.1 hdisjoint).2]
  | swap w v l =>
      have hapart : w.Disjoint v :=
        ((List.pairwise_cons.1 hdisjoint).1 w List.mem_cons_self).symm
      rw [topmost_cons, topmost_cons, topmost_cons, topmost_cons, Option.or_assoc,
        Option.or_assoc]
      cases hx : w.get? a with
      | none => rw [Option.none_or, Option.or_none]
      | some x => rw [hapart.get?_eq_none hx, Option.none_or, Option.or_none]
  | trans hperm _ ih ih' =>
      exact (ih hdisjoint).trans (ih' ((hperm.pairwise_iff Disjoint.symm).1 hdisjoint))

/-- A layer whose positions later layers hold does not show. -/
theorem topmost_of_covered {w : Extent α} (hcovered : ∀ a x, w.get? a = some x →
    topmost ws a ≠ none) (a : ℕ) : topmost (w :: ws) a = topmost ws a := by
  rw [topmost_cons]
  cases hx : w.get? a with
  | none => rw [Option.or_none]
  | some x =>
      obtain ⟨y, hy⟩ := Option.ne_none_iff_exists'.1 (hcovered a x hx)
      rw [hy, Option.some_or]

/-- A layer over the whole range of an earlier one hides it. -/
theorem topmost_cons_of_sameRange {w v : Extent α} (hmem : v ∈ ws) (hstart : v.start = w.start)
    (hlength : v.bytes.length = w.bytes.length) (a : ℕ) : topmost (w :: ws) a = topmost ws a := by
  refine topmost_of_covered (fun b x hx hnone => ?_) a
  have hout := (v.get?_eq_none_iff b).1 (topmost_eq_none_iff.1 hnone v hmem)
  have hin := bounds_of_get? hx
  rw [stop] at hout hin
  omega

end Extent

end Foundation
