import Elfex.Foundation.Extent
import Elfex.Foundation.Patches

/-!
# What a painted buffer shows

A buffer painted with extents shows at every position the last extent that holds an element
there, then what was there before, then the filler. So extents that share no position give
one buffer in whatever order they are painted.
-/

namespace Foundation

variable {α : Type*}

theorem getElem?_overwrite (z : α) (bs : List α) (o : ℕ) (xs : List α) (a : ℕ) :
    (overwrite z bs o xs)[a]? = if a < max bs.length (o + xs.length) then
      some (((Extent.get? ⟨o, xs⟩ a).or bs[a]?).getD z) else none := by
  rw [overwrite, getElem?_splice (by simp; omega), Extent.get?]
  dsimp only
  by_cases hin : o ≤ a ∧ a < o + xs.length
  · rw [if_pos hin, if_pos (by omega), if_pos hin.1, List.getElem?_eq_getElem (by omega),
      Option.some_or, Option.getD_some]
  · have hnone : (if o ≤ a then xs[a - o]? else none) = none := by
      split
      · exact List.getElem?_eq_none (by omega)
      · rfl
    rw [if_neg hin, hnone, Option.none_or]
    by_cases ha : a < bs.length
    · rw [if_pos (by omega), List.getElem?_append_left ha, List.getElem?_eq_getElem ha,
        Option.getD_some]
    · rw [List.getElem?_append_right (by omega), List.getElem?_replicate,
        List.getElem?_eq_none (by omega), Option.getD_none]
      exact if_congr (by omega) rfl rfl

namespace Extent

/-- A painted buffer shows the last extent, then the buffer, then the filler. -/
theorem getElem?_paint (z : α) (out : List α) (es : List (Extent α)) (a : ℕ) :
    (paint z out es)[a]? = if a < (paint z out es).length then
      some (((topmost es a).or out[a]?).getD z) else none := by
  induction es generalizing out with
  | nil =>
      rw [paint_nil, topmost_nil, Option.none_or]
      split
      · rename_i ha
        rw [List.getElem?_eq_getElem ha, Option.getD_some]
      · exact List.getElem?_eq_none (by omega)
  | cons e es ih =>
      rw [paint_cons, ih, getElem?_overwrite, topmost_cons, Option.or_assoc]
      by_cases ha : a < (paint z (overwrite z out e.start e.bytes) es).length
      · rw [if_pos ha, if_pos ha]
        cases topmost es a with
        | some x => rfl
        | none =>
            rw [Option.none_or, Option.none_or]
            split
            · rfl
            · rename_i hout
              have hget : e.get? a = none :=
                (e.get?_eq_none_iff a).2 (by rw [stop]; omega)
              rw [hget, Option.none_or, List.getElem?_eq_none (by omega)]
      · rw [if_neg ha, if_neg ha]

/-- Extents painted on fillers in any order give the layers of their stack. -/
theorem Stacked.paint_eq_render {hi n : ℕ} {es fs : List (Extent α)} (h : Stacked 0 fs hi)
    (hp : es.Perm fs) (hne : fs ≠ []) (z : α) (hn : n ≤ hi) :
    paint z (List.replicate n z) es = render z hi fs := by
  have hlength := (h.held_paint hp hne z
    (show (List.replicate n z).length ≤ hi by rwa [List.length_replicate])).2
  apply List.ext_getElem?
  intro a
  rw [getElem?_paint, hlength, getElem?_render, List.getElem?_replicate,
    topmost_perm hp (pairwise_disjoint_of_perm hp.symm h.pairwise_disjoint)]
  split
  · cases topmost fs a with
    | some x => rfl
    | none => split <;> rfl
  · rfl

end Extent

end Foundation
