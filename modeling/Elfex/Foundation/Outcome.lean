import Mathlib.Data.List.Basic
import Mathlib.Tactic.Common

/-!
# Outcomes of a partial computation

A call of a program either returns a value, returns an error its caller can
handle, or faults: it overflows an integer, indexes a slice out of range, or
otherwise leaves the defined behaviour of the language. `Outcome ε α` keeps the
last two apart, so that "never faults" is a statement about the model.

`Decides x p a` is the specification shape of a total reader: the computation
`x` returns `a` when `p` holds and an error, never a fault, when it does not. It
composes along `bind` and `List.mapM`, so the specification of a parser is
assembled from those of its fields. `Guarded x p I` is the one of a step that has no
errors: it keeps an invariant when `p` holds and faults when it does not, and it
composes along `List.foldlM`.
-/

namespace Foundation

/-- The ways a call ends without a value. -/
inductive Halt (ε : Type*) where
  | error (e : ε)
  | fault
  deriving DecidableEq, Repr

/-- A computation that returns a value, an error or a fault. -/
abbrev Outcome (ε α : Type*) := Except (Halt ε) α

namespace Outcome

universe u v

variable {ε : Type u} {α β : Type v}

/-- Ends with an error the caller can handle. -/
def fail (e : ε) : Outcome ε α := .error (.error e)

/-- Leaves the defined behaviour. -/
def fault : Outcome ε α := .error .fault

/-- The optional result of a call whose error is discarded; a fault still
propagates. -/
def attempt : Outcome ε α → Outcome ε (Option α)
  | .ok a => .ok (some a)
  | .error (.error _) => .ok none
  | .error .fault => .error .fault

/-- The call ends with an error. -/
def IsErr (x : Outcome ε α) : Prop := ∃ e, x = fail e

/-- The call returns a value or an error. -/
def Defined (x : Outcome ε α) : Prop := x ≠ fault

@[simp] theorem defined_ok (a : α) : Defined (.ok a : Outcome ε α) := by
  simp [Defined, fault]

@[simp] theorem defined_fail (e : ε) : Defined (fail e : Outcome ε α) := by
  simp [Defined, fail, fault]

theorem isErr_fail (e : ε) : (fail e : Outcome ε α).IsErr := ⟨e, rfl⟩

theorem bind_eq_ok {x : Outcome ε α} {f : α → Outcome ε β} {b : β} :
    x >>= f = .ok b ↔ ∃ a, x = .ok a ∧ f a = .ok b := by
  cases x with
  | error h => simp [bind, Except.bind]
  | ok a => simp [bind, Except.bind]

@[simp] theorem ok_bind (a : α) (f : α → Outcome ε β) :
    (Except.ok a : Outcome ε α) >>= f = f a := rfl

@[simp] theorem fail_bind (e : ε) (f : α → Outcome ε β) :
    (fail e : Outcome ε α) >>= f = fail e := rfl

@[simp] theorem fault_bind (f : α → Outcome ε β) :
    (fault : Outcome ε α) >>= f = fault := rfl

@[simp] theorem attempt_ok (a : α) :
    attempt (.ok a : Outcome ε α) = .ok (some a) := rfl

@[simp] theorem attempt_fail (e : ε) :
    attempt (fail e : Outcome ε α) = .ok none := rfl

theorem exists_of_isOk {x : Outcome ε α} (h : x.isOk = true) : ∃ a, x = .ok a := by
  cases x with
  | error halt => cases h
  | ok a => exact ⟨a, rfl⟩

theorem IsErr.bind {x : Outcome ε α} (h : x.IsErr) (f : α → Outcome ε β) :
    (x >>= f).IsErr := by
  obtain ⟨e, rfl⟩ := h
  exact ⟨e, rfl⟩

theorem IsErr.ne_ok {x : Outcome ε α} (h : x.IsErr) (a : α) : x ≠ .ok a := by
  obtain ⟨e, rfl⟩ := h
  simp [fail]

theorem defined_iff (x : Outcome ε α) :
    x.Defined ↔ (∃ a, x = .ok a) ∨ x.IsErr := by
  match x with
  | .ok a => simp [Defined, fault]
  | .error (.error e) => simp [Defined, IsErr, fault, fail]
  | .error .fault => simp [Defined, IsErr, fault, fail]

/-- Every result of a successful loop comes from a successful step. -/
theorem exists_of_mem_mapM {f : α → Outcome ε β} {l : List α} {l' : List β}
    (h : l.mapM f = .ok l') {b : β} (hb : b ∈ l') : ∃ a ∈ l, f a = .ok b := by
  induction l generalizing l' with
  | nil =>
      cases h
      exact absurd hb (by simp)
  | cons a l ih =>
      rw [List.mapM_cons, bind_eq_ok] at h
      obtain ⟨first, hfirst, h⟩ := h
      rw [bind_eq_ok] at h
      obtain ⟨rest, hrest, hret⟩ := h
      cases hret
      rcases List.mem_cons.1 hb with rfl | hb
      · exact ⟨a, List.mem_cons_self, hfirst⟩
      · obtain ⟨c, hc, hstep⟩ := ih hrest hb
        exact ⟨c, List.mem_cons_of_mem a hc, hstep⟩

/-- A loop whose results determine the elements they come from. -/
theorem map_of_mapM {f : α → Outcome ε β} {g : β → α} (hg : ∀ a b, f a = .ok b → g b = a)
    {l : List α} {l' : List β} (h : l.mapM f = .ok l') : l'.map g = l := by
  induction l generalizing l' with
  | nil =>
      cases h
      rfl
  | cons a l ih =>
      rw [List.mapM_cons, bind_eq_ok] at h
      obtain ⟨first, hfirst, h⟩ := h
      rw [bind_eq_ok] at h
      obtain ⟨rest, hrest, hret⟩ := h
      cases hret
      rw [List.map_cons, hg a first hfirst, ih hrest]

theorem mapM_eq_ok {f : α → Outcome ε β} {g : α → β} (l : List α)
    (h : ∀ a ∈ l, f a = .ok (g a)) : l.mapM f = .ok (l.map g) := by
  induction l with
  | nil => rfl
  | cons a l ih =>
      rw [List.mapM_cons, h a List.mem_cons_self, ok_bind,
        ih fun b hb => h b (List.mem_cons_of_mem a hb)]
      rfl

/-- The computation `x` returns `a` when `p` holds and ends with an error
otherwise. -/
structure Decides (x : Outcome ε α) (p : Prop) (a : α) : Prop where
  ok : p → x = .ok a
  err : ¬p → x.IsErr

theorem Decides.pure (a : α) : Decides (.ok a : Outcome ε α) True a where
  ok _ := rfl
  err h := absurd trivial h

theorem Decides.bind {x : Outcome ε α} {p : Prop} {a : α} (hx : Decides x p a)
    {f : α → Outcome ε β} {q : Prop} {b : β}
    (hf : p → Decides (f a) q b) :
    Decides (x >>= f) (p ∧ q) b where
  ok h := by rw [hx.ok h.1, ok_bind, (hf h.1).ok h.2]
  err h := by
    by_cases hp : p
    · rw [hx.ok hp, ok_bind]
      exact (hf hp).err fun hq => h ⟨hp, hq⟩
    · exact (hx.err hp).bind f

theorem Decides.congr {x : Outcome ε α} {p q : Prop} {a b : α}
    (h : Decides x p a) (hpq : q ↔ p) (hab : p → a = b) : Decides x q b where
  ok hq := by rw [h.ok (hpq.1 hq), hab (hpq.1 hq)]
  err hq := h.err fun hp => hq (hpq.2 hp)

/-- Post-processing the value of a decided computation. -/
theorem Decides.map {x : Outcome ε α} {p : Prop} {a : α} (h : Decides x p a)
    (f : α → β) : Decides (x >>= fun a => .ok (f a)) p (f a) :=
  (h.bind fun _ => Decides.pure (f a)).congr (by rw [and_true]) fun _ => rfl

theorem Decides.attempt {x : Outcome ε α} {p : Prop} [Decidable p] {a : α}
    (h : Decides x p a) :
    Outcome.attempt x = .ok (if p then some a else none) := by
  by_cases hp : p
  · rw [h.ok hp, attempt_ok, if_pos hp]
  · obtain ⟨e, he⟩ := h.err hp
    rw [he, attempt_fail, if_neg hp]

/-- A loop that reads its elements in order decides the conjunction of what its
steps decide. -/
theorem Decides.mapM {f : α → Outcome ε β} {p : α → Prop} {g : α → β} (l : List α)
    (h : ∀ a ∈ l, Decides (f a) (p a) (g a)) :
    Decides (l.mapM f) (∀ a ∈ l, p a) (l.map g) := by
  induction l with
  | nil => exact (Decides.pure []).congr (by simp) fun _ => rfl
  | cons a l ih =>
      have hl := ih fun b hb => h b (List.mem_cons_of_mem a hb)
      rw [List.mapM_cons]
      refine ((h a List.mem_cons_self).bind fun _ =>
        hl.bind fun _ => Decides.pure (g a :: l.map g)).congr ?_ fun _ => rfl
      simp only [List.forall_mem_cons, and_true]

/-- A decided computation returns exactly the described value. -/
theorem Decides.eq_ok_iff {x : Outcome ε α} {p : Prop} {a : α} (h : Decides x p a)
    (b : α) : x = .ok b ↔ p ∧ a = b := by
  constructor
  · intro hb
    by_cases hp : p
    · rw [h.ok hp] at hb
      exact ⟨hp, by injection hb⟩
    · exact absurd hb ((h.err hp).ne_ok b)
  · rintro ⟨hp, rfl⟩
    exact h.ok hp

/-- Two computations that decide one condition with one value end alike. -/
theorem Decides.agree {x y : Outcome ε α} {p : Prop} {a : α} (hx : Decides x p a)
    (hy : Decides y p a) : (x.IsErr ∧ y.IsErr) ∨ ∃ b, x = .ok b ∧ y = .ok b := by
  by_cases hp : p
  · exact Or.inr ⟨a, hx.ok hp, hy.ok hp⟩
  · exact Or.inl ⟨hx.err hp, hy.err hp⟩

theorem Defined.bind {x : Outcome ε α} (hx : x.Defined) {f : α → Outcome ε β}
    (hf : ∀ a, (f a).Defined) : (x >>= f).Defined := by
  match x with
  | .ok a => exact hf a
  | .error (.error e) => simp [Defined, fault, Bind.bind, Except.bind]
  | .error .fault => exact absurd rfl hx

theorem Defined.mapM {f : α → Outcome ε β} (l : List α) (hf : ∀ a, (f a).Defined) :
    (l.mapM f).Defined := by
  induction l with
  | nil => exact defined_ok []
  | cons a l ih =>
      rw [List.mapM_cons]
      exact (hf a).bind fun b => ih.bind fun bs => defined_ok (b :: bs)

/-- The computation `x` does not fault, and a value it returns satisfies `Q`. -/
structure Ensures (x : Outcome ε α) (Q : α → Prop) : Prop where
  defined : x.Defined
  result : ∀ a, x = .ok a → Q a

theorem Ensures.ok {a : α} {Q : α → Prop} (h : Q a) :
    Ensures (.ok a : Outcome ε α) Q where
  defined := defined_ok a
  result b hb := by
    cases hb
    exact h

theorem Ensures.fail (e : ε) (Q : α → Prop) : Ensures (Outcome.fail e : Outcome ε α) Q where
  defined := defined_fail e
  result a ha := by cases ha

theorem Ensures.bind {x : Outcome ε α} {Q : α → Prop} (hx : Ensures x Q)
    {f : α → Outcome ε β} {R : β → Prop} (hf : ∀ a, Q a → Ensures (f a) R) :
    Ensures (x >>= f) R := by
  match x, hx with
  | .ok a, hx => exact hf a (hx.result a rfl)
  | .error (.error e), _ => exact Ensures.fail e R
  | .error .fault, hx => exact absurd rfl hx.defined

theorem Ensures.of_defined {x : Outcome ε α} (hx : x.Defined) :
    Ensures x fun _ => True where
  defined := hx
  result _ _ := trivial

/-- The computation `x` returns a value in `I` when `p` holds and faults otherwise. -/
structure Guarded (x : Outcome ε α) (p : Prop) (I : α → Prop) : Prop where
  ok : p → ∃ a, x = .ok a ∧ I a
  fault : ¬p → x = fault

theorem Guarded.of_ok {p : Prop} {a : α} {I : α → Prop} (hp : p) (h : I a) :
    Guarded (.ok a : Outcome ε α) p I where
  ok _ := ⟨a, rfl, h⟩
  fault hnp := absurd hp hnp

theorem Guarded.of_fault {p : Prop} {I : α → Prop} (hp : ¬p) :
    Guarded (Outcome.fault : Outcome ε α) p I where
  ok h := absurd h hp
  fault _ := rfl

theorem Guarded.bind {x : Outcome ε α} {p : Prop} {I : α → Prop} (hx : Guarded x p I)
    {f : α → Outcome ε β} {q : Prop} {J : β → Prop} (hf : ∀ a, I a → Guarded (f a) q J) :
    Guarded (x >>= f) (p ∧ q) J := by
  by_cases hp : p
  · obtain ⟨a, ha, hI⟩ := hx.ok hp
    rw [ha, ok_bind]
    exact ⟨fun h => (hf a hI).ok h.2, fun h => (hf a hI).fault fun hq => h ⟨hp, hq⟩⟩
  · rw [hx.fault hp, fault_bind]
    exact ⟨fun h => absurd h.1 hp, fun _ => rfl⟩

/-- A loop whose steps keep an invariant faults exactly when one of its elements does. -/
theorem Guarded.foldlM {f : β → α → Outcome ε β} {p : α → Prop} {I : β → Prop} (l : List α)
    (hf : ∀ a ∈ l, ∀ b, I b → Guarded (f b a) (p a) I) {b : β} (hb : I b) :
    Guarded (l.foldlM f b) (∀ a ∈ l, p a) I := by
  induction l generalizing b with
  | nil => exact ⟨fun _ => ⟨b, rfl, hb⟩, fun h => absurd (by simp) h⟩
  | cons a l ih =>
      rw [List.foldlM_cons, List.forall_mem_cons]
      exact (hf a List.mem_cons_self b hb).bind fun b' hb' =>
        ih (fun c hc => hf c (List.mem_cons_of_mem a hc)) hb'

theorem Guarded.defined_iff {x : Outcome ε α} {p : Prop} {I : α → Prop} (h : Guarded x p I) :
    x.Defined ↔ p := by
  constructor
  · intro hx
    by_contra hp
    exact hx (h.fault hp)
  · intro hp
    obtain ⟨a, ha, -⟩ := h.ok hp
    rw [ha]
    exact defined_ok a

end Outcome

end Foundation
