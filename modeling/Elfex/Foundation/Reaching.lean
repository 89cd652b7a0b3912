import Elfex.Foundation.Outcome

/-!
# Where a computation faults

`Settles x p q` describes a computation whose faults are part of its behaviour: it faults
exactly when `p` fails, and a run that does not fault returns a value exactly when `q`
holds, and an error otherwise. It composes along `bind` and `List.mapM`. A pass that works
through a list in order and stops at the first error comes to some of the elements only;
`Reaching q p l` is the condition `p` asked of those.
-/

namespace Foundation

/-- Every element of the list that an in-order pass comes to satisfies `p`; the pass goes
on past an element when `q` holds of it. -/
def Reaching {α : Type*} (q p : α → Prop) : List α → Prop
  | [] => True
  | a :: l => p a ∧ (q a → Reaching q p l)

theorem reaching_of_forall {α : Type*} {q p : α → Prop} {l : List α} (h : ∀ a ∈ l, p a) :
    Reaching q p l := by
  induction l with
  | nil => exact trivial
  | cons a l ih =>
      rw [List.forall_mem_cons] at h
      exact ⟨h.1, fun _ => ih h.2⟩

/-- A pass that never stops comes to every element. -/
theorem reaching_true {α : Type*} (p : α → Prop) (l : List α) :
    Reaching (fun _ => True) p l ↔ ∀ a ∈ l, p a := by
  induction l with
  | nil => simp [Reaching]
  | cons a l ih =>
      rw [Reaching, ih, List.forall_mem_cons]
      simp only [forall_const]

namespace Outcome

universe u v

variable {ε : Type u} {α β : Type v}

theorem defined_bind_iff {x : Outcome ε α} {f : α → Outcome ε β} :
    (x >>= f).Defined ↔ x.Defined ∧ ∀ a, x = .ok a → (f a).Defined := by
  match x with
  | .ok a => simp
  | .error (.error e) => exact ⟨fun _ => ⟨defined_fail e, nofun⟩, fun _ => defined_fail e⟩
  | .error .fault => exact ⟨fun h => absurd rfl h, fun h => absurd rfl h.1⟩

/-- Post-processing a value adds no fault. -/
theorem defined_map_iff {x : Outcome ε α} (f : α → β) :
    Outcome.Defined (x >>= fun a => .ok (f a)) ↔ x.Defined := by
  rw [defined_bind_iff]
  exact and_iff_left fun a _ => defined_ok (f a)

theorem attempt_eq_ok_some {x : Outcome ε α} {a : α} :
    x.attempt = .ok (some a) ↔ x = .ok a := by
  match x with
  | .ok b => simp [attempt]
  | .error (.error e) => simp [attempt]
  | .error .fault => simp [attempt]

/-- The computation `x` faults exactly when `p` fails; when it does not fault, it returns
a value exactly when `q` holds. -/
structure Settles (x : Outcome ε α) (p q : Prop) : Prop where
  defined : x.Defined ↔ p
  returns : p → ((∃ a, x = .ok a) ↔ q)

theorem Settles.ok {p q : Prop} (a : α) (hp : p) (hq : q) :
    Settles (.ok a : Outcome ε α) p q where
  defined := iff_of_true (defined_ok a) hp
  returns _ := iff_of_true ⟨a, rfl⟩ hq

theorem Settles.fail {p q : Prop} (e : ε) (hp : p) (hq : ¬q) :
    Settles (Outcome.fail e : Outcome ε α) p q where
  defined := iff_of_true (defined_fail e) hp
  returns _ := iff_of_false (fun ⟨_, h⟩ => nomatch h) hq

theorem Settles.fault {p q : Prop} (hp : ¬p) : Settles (Outcome.fault : Outcome ε α) p q where
  defined := iff_of_false (fun h => h rfl) hp
  returns h := absurd h hp

theorem Settles.of_defined_iff {x : Outcome ε α} {p : Prop} (h : x.Defined ↔ p) :
    Settles x p (∃ a, x = .ok a) where
  defined := h
  returns _ := Iff.rfl

/-- A computation that never faults. -/
theorem Settles.of_defined {x : Outcome ε α} (h : x.Defined) :
    Settles x True (∃ a, x = .ok a) :=
  of_defined_iff (iff_true_intro h)

theorem Settles.congr {x : Outcome ε α} {p q p' q' : Prop} (h : Settles x p q)
    (hp : p' ↔ p) (hq : p' → (q' ↔ q)) : Settles x p' q' where
  defined := h.defined.trans hp.symm
  returns hp' := (h.returns (hp.1 hp')).trans (hq hp').symm

/-- Two computations in a row, where the value of the first decides nothing about how the
second settles. -/
theorem Settles.bind {x : Outcome ε α} {p q : Prop} (hx : Settles x p q)
    {f : α → Outcome ε β} {p' q' : Prop} (hf : ∀ a, x = .ok a → Settles (f a) p' q') :
    Settles (x >>= f) (p ∧ (q → p')) (q ∧ q') where
  defined := by
    rw [defined_bind_iff, hx.defined]
    refine and_congr_right fun hp => ?_
    rw [← hx.returns hp]
    constructor
    · rintro h ⟨a, ha⟩
      exact (hf a ha).defined.1 (h a ha)
    · intro h a ha
      exact (hf a ha).defined.2 (h ⟨a, ha⟩)
  returns := by
    rintro ⟨hp, hp'⟩
    have hq := hx.returns hp
    constructor
    · rintro ⟨b, hb⟩
      obtain ⟨a, ha, hb⟩ := bind_eq_ok.1 hb
      have hqa := hq.1 ⟨a, ha⟩
      exact ⟨hqa, ((hf a ha).returns (hp' hqa)).1 ⟨b, hb⟩⟩
    · rintro ⟨hqa, hq'⟩
      obtain ⟨a, ha⟩ := hq.2 hqa
      obtain ⟨b, hb⟩ := ((hf a ha).returns (hp' hqa)).2 hq'
      exact ⟨b, bind_eq_ok.2 ⟨a, ha, hb⟩⟩

/-- Post-processing the value. -/
theorem Settles.map {x : Outcome ε α} {p q : Prop} (h : Settles x p q) (f : α → β) :
    Settles (x >>= fun a => .ok (f a)) p q :=
  (h.bind fun a _ => Settles.ok (f a) trivial trivial).congr (by simp) (by simp)

/-- A discarded error is a value. -/
theorem Settles.attempt {x : Outcome ε α} {p q : Prop} (h : Settles x p q) :
    Settles x.attempt p True := by
  match x with
  | .ok a => exact Settles.ok (some a) (h.defined.1 (defined_ok a)) trivial
  | .error (.error e) => exact Settles.ok none (h.defined.1 (defined_fail e)) trivial
  | .error .fault => exact Settles.fault fun hp => h.defined.2 hp rfl

theorem Defined.attempt {x : Outcome ε α} (h : x.Defined) : x.attempt.Defined :=
  (Settles.of_defined h).attempt.defined.2 trivial

/-- A loop faults exactly when one of the elements it comes to does. -/
theorem Settles.mapM {f : α → Outcome ε β} {p q : α → Prop} (l : List α)
    (h : ∀ a ∈ l, Settles (f a) (p a) (q a)) :
    Settles (l.mapM f) (Reaching q p l) (∀ a ∈ l, q a) := by
  induction l with
  | nil => exact Settles.ok [] trivial (by simp)
  | cons a l ih =>
      have hl := ih fun b hb => h b (List.mem_cons_of_mem a hb)
      rw [List.mapM_cons]
      refine ((h a List.mem_cons_self).bind fun b _ => hl.map (b :: ·)).congr Iff.rfl ?_
      simp only [List.forall_mem_cons, implies_true]

end Outcome

end Foundation
