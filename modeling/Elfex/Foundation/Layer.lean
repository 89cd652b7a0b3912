import Elfex.Foundation.Overlay

/-!
# Layers of extents

Extents laid one over the other on a buffer of fixed length: at every position the last
extent that holds an element there shows, and what reaches past the end is cut off.
`render` is the buffer they give, and laying one more extent splices it into the buffer.
-/

namespace Foundation

namespace Extent

variable {α : Type*}

/-- The element of the last extent that holds one at a position. -/
def topmost : List (Extent α) → ℕ → Option α
  | [], _ => none
  | e :: es, a => (topmost es a).or (e.get? a)

@[simp] theorem topmost_nil (a : ℕ) : topmost ([] : List (Extent α)) a = none := rfl

@[simp] theorem topmost_cons (e : Extent α) (es : List (Extent α)) (a : ℕ) :
    topmost (e :: es) a = (topmost es a).or (e.get? a) := rfl

/-- Later layers cover earlier ones. -/
theorem topmost_append (es fs : List (Extent α)) (a : ℕ) :
    topmost (es ++ fs) a = (topmost fs a).or (topmost es a) := by
  induction es with
  | nil => rw [List.nil_append, topmost_nil, Option.or_none]
  | cons e es ih => rw [List.cons_append, topmost_cons, ih, topmost_cons, Option.or_assoc]

theorem topmost_eq_none_iff {es : List (Extent α)} {a : ℕ} :
    topmost es a = none ↔ ∀ e ∈ es, e.get? a = none := by
  induction es with
  | nil => simp
  | cons e es ih => rw [topmost_cons, Option.or_eq_none_iff, ih, List.forall_mem_cons, and_comm]

theorem exists_of_topmost {es : List (Extent α)} {a : ℕ} {x : α} (h : topmost es a = some x) :
    ∃ e ∈ es, e.get? a = some x := by
  induction es with
  | nil => cases h
  | cons e es ih =>
      rw [topmost_cons, Option.or_eq_some_iff] at h
      rcases h with htail | ⟨-, hhead⟩
      · obtain ⟨f, hf, hx⟩ := ih htail
        exact ⟨f, List.mem_cons_of_mem e hf, hx⟩
      · exact ⟨e, List.mem_cons_self, hhead⟩

/-- Where all the extents that hold an element hold the same one, it shows. -/
theorem topmost_eq_of_agree {es : List (Extent α)} {a : ℕ} {x : α} {e : Extent α}
    (he : e ∈ es) (hx : e.get? a = some x)
    (hagree : ∀ f ∈ es, ∀ y, f.get? a = some y → y = x) : topmost es a = some x := by
  cases htop : topmost es a with
  | none =>
      rw [topmost_eq_none_iff.1 htop e he] at hx
      cases hx
  | some y =>
      obtain ⟨f, hf, hy⟩ := exists_of_topmost htop
      rw [hagree f hf y hy]

/-- The buffer of `n` elements that shows the extents, with `z` where there is none. -/
def render (z : α) (n : ℕ) (es : List (Extent α)) : List α :=
  (List.range n).map fun a => (topmost es a).getD z

@[simp] theorem length_render (z : α) (n : ℕ) (es : List (Extent α)) :
    (render z n es).length = n := by
  rw [render, List.length_map, List.length_range]

theorem getElem?_render (z : α) (n : ℕ) (es : List (Extent α)) (a : ℕ) :
    (render z n es)[a]? = if a < n then some ((topmost es a).getD z) else none := by
  rw [render, List.getElem?_map]
  split
  · rename_i h
    rw [List.getElem?_range h]
    rfl
  · rename_i h
    rw [List.getElem?_eq_none (by rwa [List.length_range, ← Nat.not_lt])]
    rfl

theorem render_nil (z : α) (n : ℕ) :
    render z n ([] : List (Extent α)) = List.replicate n z := by
  apply List.ext_getElem?
  intro a
  rw [getElem?_render, List.getElem?_replicate]
  rfl

/-- Laying one more extent splices what fits of it into the buffer. -/
theorem splice_render (z : α) {n : ℕ} (es : List (Extent α)) {e : Extent α}
    (he : e.start ≤ n) : splice (render z n es) e.start (e.bytes.take (n - e.start)) =
      render z n (es ++ [e]) := by
  have hfit : e.start + (e.bytes.take (n - e.start)).length ≤ (render z n es).length := by
    rw [length_render, List.length_take]
    omega
  apply List.ext_getElem?
  intro a
  rw [getElem?_splice hfit, List.length_take, getElem?_render, getElem?_render, topmost_append,
    topmost_cons, topmost_nil, Option.none_or, get?]
  by_cases hin : e.start ≤ a ∧ a < e.start + min (n - e.start) e.bytes.length
  · rw [if_pos hin, if_pos (by omega), if_pos hin.1, List.getElem?_take_of_lt (by omega),
      List.getElem?_eq_getElem (by omega), Option.some_or, Option.getD_some]
  · rw [if_neg hin]
    by_cases ha : a < n
    · rw [if_pos ha, if_pos ha]
      split
      · rw [List.getElem?_eq_none (by omega), Option.none_or]
      · rw [Option.none_or]
    · rw [if_neg ha, if_neg ha]

end Extent

end Foundation
