import Mathlib.Data.List.Chain
import Mathlib.Data.List.Pairwise

/-!
# Neighbours in a sorted list

A sorted list is often checked by looking at neighbours only. What holds of neighbours
holds of any two entries when it is transitive; where a downward closed property stops
holding there are two neighbours across the border.
-/

namespace Foundation

variable {α : Type*} {r : α → α → Prop} {l : List α} {a b c : α}

/-- The pairs of neighbours are the cuts of the list between two entries. -/
theorem mem_zip_tail_iff : (a, b) ∈ l.zip l.tail ↔ ∃ l₁ l₂, l = l₁ ++ a :: b :: l₂ := by
  induction l with
  | nil => simp
  | cons x l ih =>
      cases l with
      | nil =>
          refine iff_of_false (by simp) ?_
          rintro ⟨l₁, l₂, h⟩
          have hlen := congrArg List.length h
          simp only [List.length_cons, List.length_nil, List.length_append] at hlen
          omega
      | cons y l =>
          rw [List.tail_cons, List.zip_cons_cons, List.mem_cons]
          rw [List.tail_cons] at ih
          constructor
          · rintro (h | h)
            · cases h
              exact ⟨[], l, rfl⟩
            · obtain ⟨l₁, l₂, h⟩ := ih.1 h
              exact ⟨x :: l₁, l₂, by rw [h, List.cons_append]⟩
          · rintro ⟨l₁, l₂, h⟩
            cases l₁ with
            | nil =>
                cases h
                exact Or.inl rfl
            | cons z l₁ =>
                rw [List.cons_append] at h
                exact Or.inr (ih.2 ⟨l₁, l₂, (List.cons.inj h).2⟩)

theorem isChain_iff_zip_tail : l.IsChain r ↔ ∀ pair ∈ l.zip l.tail, r pair.1 pair.2 := by
  rw [List.isChain_iff_forall_rel_of_append_cons_cons]
  constructor
  · rintro h ⟨a, b⟩ hpair
    obtain ⟨l₁, l₂, hl⟩ := mem_zip_tail_iff.1 hpair
    exact h hl
  · intro h a b l₁ l₂ hl
    exact h (a, b) (mem_zip_tail_iff.2 ⟨l₁, l₂, hl⟩)

theorem forall_zip_tail (h : l.Pairwise r) : ∀ pair ∈ l.zip l.tail, r pair.1 pair.2 :=
  isChain_iff_zip_tail.1 h.isChain

/-- A transitive relation between neighbours holds between any two entries. -/
theorem pairwise_of_zip_tail [Trans r r r] (h : ∀ pair ∈ l.zip l.tail, r pair.1 pair.2) :
    l.Pairwise r :=
  (isChain_iff_zip_tail.2 h).pairwise

/-- There is nothing between two neighbours. -/
theorem rel_or_rel_of_neighbours [Std.Refl r] (h : l.Pairwise r) (hab : (a, b) ∈ l.zip l.tail)
    (hc : c ∈ l) : r c a ∨ r b c := by
  obtain ⟨l₁, l₂, rfl⟩ := mem_zip_tail_iff.1 hab
  obtain ⟨-, hright, hacross⟩ := List.pairwise_append.1 h
  obtain ⟨-, hright⟩ := List.pairwise_cons.1 hright
  rw [List.mem_append, List.mem_cons, List.mem_cons] at hc
  rcases hc with hc | rfl | rfl | hc
  · exact Or.inl (hacross c hc a List.mem_cons_self)
  · exact Or.inl (Std.Refl.refl c)
  · exact Or.inr (Std.Refl.refl c)
  · exact Or.inr ((List.pairwise_cons.1 hright).1 c hc)

/-- A downward closed property that holds of some entry and not of all of them stops at
two neighbours. -/
theorem exists_border {p : α → Prop} (h : l.Pairwise r) (hdown : ∀ a b, r a b → p b → p a)
    (ha : a ∈ l) (hpa : p a) (hb : b ∈ l) (hpb : ¬p b) :
    ∃ pair ∈ l.zip l.tail, p pair.1 ∧ ¬p pair.2 := by
  by_contra hnone
  push Not at hnone
  have : Trans (fun a b => p a → p b) (fun a b => p a → p b) (fun a b => p a → p b) :=
    ⟨fun hxy hyz hx => hyz (hxy hx)⟩
  have hup : l.Pairwise fun a b => p a → p b := pairwise_of_zip_tail hnone
  have hiff : l.Pairwise fun a b => (p a ↔ p b) :=
    (h.and hup).imp fun ⟨hrel, hup⟩ => ⟨hup, hdown _ _ hrel⟩
  have : Std.Symm fun a b => (p a ↔ p b) := ⟨fun _ _ => Iff.symm⟩
  have hall := List.Pairwise.forall_of_forall (R := fun a b => (p a ↔ p b))
    (fun _ _ => Iff.rfl) hiff
  exact hpb ((hall ha hb).1 hpa)

end Foundation
