import Mathlib.Data.List.Induction
import Mathlib.Order.Bounds.Basic

/-!
# Running extrema

A loop passes over some elements of a list and keeps the greatest, or the least, value of
the others. What it ends with depends on the set of the kept values only, not on the order
of the list.
-/

namespace Foundation

variable {α β σ : Type*} {keep : α → Prop} {value : α → β}

/-- The values of the kept elements of a list. -/
def keptValues (keep : α → Prop) (value : α → β) (l : List α) : Set β :=
  {b | ∃ a ∈ l, keep a ∧ value a = b}

theorem value_mem_keptValues {l : List α} {a : α} (hmem : a ∈ l) (h : keep a) :
    value a ∈ keptValues keep value l := ⟨a, hmem, h, rfl⟩

@[simp] theorem keptValues_nil : keptValues keep value [] = ∅ := by
  ext b
  simp [keptValues]

theorem keptValues_append_singleton (l : List α) {a : α} (h : keep a) :
    keptValues keep value (l ++ [a]) = insert (value a) (keptValues keep value l) := by
  ext b
  simp only [keptValues, List.mem_append, List.mem_singleton, Set.mem_ofPred_eq,
    Set.mem_insert_iff]
  constructor
  · rintro ⟨a', hmem | rfl, hkeep, hvalue⟩
    · exact Or.inr ⟨a', hmem, hkeep, hvalue⟩
    · exact Or.inl hvalue.symm
  · rintro (rfl | ⟨a', hmem, hkeep, hvalue⟩)
    · exact ⟨a, Or.inr rfl, h, rfl⟩
    · exact ⟨a', Or.inl hmem, hkeep, hvalue⟩

theorem keptValues_append_singleton_of_not (l : List α) {a : α} (h : ¬keep a) :
    keptValues keep value (l ++ [a]) = keptValues keep value l := by
  ext b
  simp only [keptValues, List.mem_append, List.mem_singleton, Set.mem_ofPred_eq]
  constructor
  · rintro ⟨a', hmem | rfl, hkeep, hvalue⟩
    · exact ⟨a', hmem, hkeep, hvalue⟩
    · exact absurd hkeep h
  · rintro ⟨a', hmem, hkeep, hvalue⟩
    exact ⟨a', Or.inl hmem, hkeep, hvalue⟩

/-- Lists with the same kept elements have the same kept values. -/
theorem keptValues_congr {l l' : List α} (h : ∀ a, keep a → (a ∈ l ↔ a ∈ l')) :
    keptValues keep value l = keptValues keep value l' := by
  ext b
  refine exists_congr fun a => ?_
  constructor
  · rintro ⟨hmem, hkeep, hvalue⟩
    exact ⟨(h a hkeep).1 hmem, hkeep, hvalue⟩
  · rintro ⟨hmem, hkeep, hvalue⟩
    exact ⟨(h a hkeep).2 hmem, hkeep, hvalue⟩

theorem mem_upperBounds_keptValues [Preorder β] {l : List α} {b : β} :
    b ∈ upperBounds (keptValues keep value l) ↔ ∀ a ∈ l, keep a → value a ≤ b := by
  constructor
  · exact fun h a hmem hkeep => h (value_mem_keptValues hmem hkeep)
  · rintro h _ ⟨a, hmem, hkeep, rfl⟩
    exact h a hmem hkeep

theorem mem_lowerBounds_keptValues [Preorder β] {l : List α} {b : β} :
    b ∈ lowerBounds (keptValues keep value l) ↔ ∀ a ∈ l, keep a → b ≤ value a := by
  constructor
  · exact fun h a hmem hkeep => h (value_mem_keptValues hmem hkeep)
  · rintro h _ ⟨a, hmem, hkeep, rfl⟩
    exact h a hmem hkeep

section Loops

variable [LinearOrder β] {step : σ → α → σ}

/-- A loop that keeps the larger of two values ends with the greatest one. -/
theorem isGreatest_foldl (get : σ → β)
    (hkeep : ∀ s a, keep a → get (step s a) = max (value a) (get s))
    (hskip : ∀ s a, ¬keep a → get (step s a) = get s) (init : σ) (l : List α) :
    IsGreatest (insert (get init) (keptValues keep value l)) (get (l.foldl step init)) := by
  induction l using List.reverseRecOn with
  | nil => simp
  | append_singleton l a ih =>
      rw [List.foldl_append, List.foldl_cons, List.foldl_nil]
      by_cases h : keep a
      · rw [keptValues_append_singleton l h, hkeep _ _ h, Set.insert_comm]
        exact ih.insert (value a)
      · rwa [keptValues_append_singleton_of_not l h, hskip _ _ h]

/-- A list of values has a greatest one, once some value is given. -/
theorem exists_isGreatest_keptValues (keep : α → Prop) (value : α → β) (b : β) (l : List α) :
    ∃ greatest, IsGreatest (insert b (keptValues keep value l)) greatest := by
  induction l using List.reverseRecOn with
  | nil => exact ⟨b, by simp⟩
  | append_singleton l a ih =>
      by_cases h : keep a
      · obtain ⟨greatest, hgreatest⟩ := ih
        rw [keptValues_append_singleton l h, Set.insert_comm]
        exact ⟨_, hgreatest.insert (value a)⟩
      · rwa [keptValues_append_singleton_of_not l h]

/-- The option holds the least element of the set, and nothing when the set is empty. -/
def HoldsLeast (s : Set β) : Option β → Prop
  | none => s = ∅
  | some b => IsLeast s b

theorem HoldsLeast.insert {s : Set β} {o : Option β} (h : HoldsLeast s o) (b : β) :
    HoldsLeast (insert b s) (some (o.elim b fun least => min least b)) := by
  cases o with
  | none =>
      obtain rfl : s = ∅ := h
      simp [HoldsLeast]
  | some least =>
      have hinsert : IsLeast (Insert.insert b s) (min b least) := IsLeast.insert b h
      rwa [min_comm] at hinsert

/-- A loop that keeps the smaller of two values ends with the least one. -/
theorem holdsLeast_foldl (get : σ → Option β)
    (hkeep : ∀ s a, keep a →
      get (step s a) = some ((get s).elim (value a) fun least => min least (value a)))
    (hskip : ∀ s a, ¬keep a → get (step s a) = get s) {init : σ} (hinit : get init = none)
    (l : List α) : HoldsLeast (keptValues keep value l) (get (l.foldl step init)) := by
  induction l using List.reverseRecOn with
  | nil =>
      rw [List.foldl_nil, hinit]
      exact keptValues_nil
  | append_singleton l a ih =>
      rw [List.foldl_append, List.foldl_cons, List.foldl_nil]
      by_cases h : keep a
      · rw [keptValues_append_singleton l h, hkeep _ _ h]
        exact ih.insert (value a)
      · rwa [keptValues_append_singleton_of_not l h, hskip _ _ h]

end Loops

end Foundation
