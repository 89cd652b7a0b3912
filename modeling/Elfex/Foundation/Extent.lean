import Mathlib.Data.List.Perm.Basic
import Mathlib.Order.Lattice
import Elfex.Foundation.Window

/-!
# Painting extents on a growing buffer

An extent is a string together with the position it is written at. `paint`
writes a list of extents in order on a buffer that grows as needed. Extents that
are pairwise disjoint survive each other, whatever the order they are painted
in, so a file laid out by several passes holds every piece it was given.
`Stacked lo es hi` is the order a single cursor produces: each extent starts at
or after the end of the previous one.
-/

namespace Foundation

/-- A string to be written at a position. -/
structure Extent (α : Type*) where
  start : ℕ
  bytes : List α
  deriving DecidableEq, Repr

namespace Extent

variable {α : Type*}

def stop (e : Extent α) : ℕ := e.start + e.bytes.length

theorem start_le_stop (e : Extent α) : e.start ≤ e.stop := Nat.le_add_right _ _

/-- The positions of the extent, from the first to one past the last. -/
def range (e : Extent α) : ℕ × ℕ := (e.start, e.stop)

/-- One of the two extents ends before the other starts. -/
def Disjoint (e f : Extent α) : Prop := e.stop ≤ f.start ∨ f.stop ≤ e.start

theorem Disjoint.symm {e f : Extent α} (h : e.Disjoint f) : f.Disjoint e := Or.symm h

/-- The buffer holds the extent's bytes at its position. -/
def Held (e : Extent α) (out : List α) : Prop :=
  e.stop ≤ out.length ∧ window out e.start e.bytes.length = e.bytes

theorem Held.append {e : Extent α} {out : List α} (h : e.Held out) (ts : List α) :
    e.Held (out ++ ts) := by
  constructor
  · rw [List.length_append]
    exact h.1.trans (Nat.le_add_right _ _)
  · rw [window_append_left ts h.1]
    exact h.2

/-- Reading inside a held extent reads the extent. -/
theorem Held.window {e : Extent α} {out : List α} (h : e.Held out) {o n : ℕ}
    (hn : o + n ≤ e.bytes.length) :
    Foundation.window out (e.start + o) n = Foundation.window e.bytes o n := by
  rw [← window_window out hn, h.2]

/-- A record of a held table of records of one width. -/
theorem Held.record {β : Type*} {f : β → List α} {l : List β} {w start : ℕ} {out : List α}
    (h : Held ⟨start, l.flatMap f⟩ out) (hw : ∀ b ∈ l, (f b).length = w) {i : ℕ}
    (hi : i < l.length) :
    start + i * w + w ≤ out.length ∧ Foundation.window out (start + i * w) w = f l[i] := by
  have hlen : (l.flatMap f).length = l.length * w := length_flatMap_of_width f l hw
  have hentry : i * w + w ≤ (l.flatMap f).length := by
    rw [hlen, ← Nat.succ_mul]
    exact Nat.mul_le_mul_right w hi
  constructor
  · rw [Nat.add_assoc]
    exact (Nat.add_le_add_left hentry start).trans h.1
  · rw [← window_flatMap f l hw i hi]
    exact h.window hentry

/-- Writing an extent leaves the disjoint ones in place. -/
theorem Held.overwrite {e f : Extent α} {out : List α} (h : e.Held out)
    (hd : e.Disjoint f) (z : α) :
    e.Held (Foundation.overwrite z out f.start f.bytes) := by
  constructor
  · rw [length_overwrite]
    exact h.1.trans (Nat.le_max_left _ _)
  · rw [window_overwrite_of_disjoint z h.1]
    · exact h.2
    · rcases hd with hd | hd
      · exact Or.inl hd
      · exact Or.inr (Or.inl hd)

theorem held_overwrite (z : α) (e : Extent α) (out : List α) :
    e.Held (Foundation.overwrite z out e.start e.bytes) := by
  refine ⟨?_, window_overwrite_self z out e.start e.bytes⟩
  rw [length_overwrite]
  exact Nat.le_max_right _ _

/-- Writes the extents in order. -/
def paint (z : α) (out : List α) (es : List (Extent α)) : List α :=
  es.foldl (fun out e => Foundation.overwrite z out e.start e.bytes) out

@[simp] theorem paint_nil (z : α) (out : List α) : paint z out [] = out := rfl

@[simp] theorem paint_cons (z : α) (out : List α) (e : Extent α)
    (es : List (Extent α)) :
    paint z out (e :: es) =
      paint z (Foundation.overwrite z out e.start e.bytes) es := rfl

theorem paint_append (z : α) (out : List α) (es fs : List (Extent α)) :
    paint z out (es ++ fs) = paint z (paint z out es) fs := by
  simp [paint, List.foldl_append]

theorem Held.paint {e : Extent α} {out : List α} (h : e.Held out) (z : α)
    (es : List (Extent α)) (hd : ∀ f ∈ es, e.Disjoint f) :
    e.Held (Extent.paint z out es) := by
  induction es generalizing out with
  | nil => exact h
  | cons f es ih =>
      rw [paint_cons]
      exact ih (h.overwrite (hd f List.mem_cons_self) z) fun g hg =>
        hd g (List.mem_cons_of_mem f hg)

theorem held_paint_of_mem (z : α) (out : List α) {es : List (Extent α)}
    (hd : es.Pairwise Disjoint) {e : Extent α} (he : e ∈ es) :
    e.Held (paint z out es) := by
  induction es generalizing out with
  | nil => exact absurd he (by simp)
  | cons f es ih =>
      rcases List.pairwise_cons.1 hd with ⟨hf, hes⟩
      rw [paint_cons]
      rcases List.mem_cons.1 he with rfl | he
      · exact (held_overwrite z e out).paint z es hf
      · exact ih _ hes he

/-- The length of a painted buffer is the furthest position written. -/
theorem length_paint (z : α) (out : List α) (es : List (Extent α)) :
    (paint z out es).length = es.foldl (fun n e => max n e.stop) out.length := by
  induction es generalizing out with
  | nil => rfl
  | cons e es ih =>
      rw [paint_cons, ih, length_overwrite, List.foldl_cons]
      rfl

/-- The furthest end of a list of extents, starting from `n`. -/
theorem foldl_max_stop_le_iff (es : List (Extent α)) (n m : ℕ) :
    es.foldl (fun n e => max n e.stop) n ≤ m ↔ n ≤ m ∧ ∀ e ∈ es, e.stop ≤ m := by
  induction es generalizing n with
  | nil => simp
  | cons e es ih =>
      rw [List.foldl_cons, ih, List.forall_mem_cons, Nat.max_le, and_assoc]

theorem length_paint_le_iff (z : α) (out : List α) (es : List (Extent α)) (m : ℕ) :
    (paint z out es).length ≤ m ↔ out.length ≤ m ∧ ∀ e ∈ es, e.stop ≤ m := by
  rw [length_paint, foldl_max_stop_le_iff]

/-- The extents a cursor moving from `lo` to `hi` lays down in order; `hi` is the end
of the last one. -/
def Stacked : ℕ → List (Extent α) → ℕ → Prop
  | lo, [], hi => lo = hi
  | lo, e :: es, hi => lo ≤ e.start ∧ Stacked e.stop es hi

theorem Stacked.le {lo hi : ℕ} {es : List (Extent α)} (h : Stacked lo es hi) :
    lo ≤ hi := by
  induction es generalizing lo with
  | nil => exact Nat.le_of_eq h
  | cons e es ih => exact (h.1.trans e.start_le_stop).trans (ih h.2)

theorem Stacked.append {lo mid hi : ℕ} {es fs : List (Extent α)}
    (h : Stacked lo es mid) (h' : Stacked mid fs hi) : Stacked lo (es ++ fs) hi := by
  induction es generalizing lo with
  | nil => exact (show lo = mid from h) ▸ h'
  | cons e es ih => exact ⟨h.1, ih h.2⟩

theorem Stacked.bounds {lo hi : ℕ} {es : List (Extent α)} (h : Stacked lo es hi)
    {e : Extent α} (he : e ∈ es) : lo ≤ e.start ∧ e.stop ≤ hi := by
  induction es generalizing lo with
  | nil => exact absurd he (by simp)
  | cons f es ih =>
      rcases List.mem_cons.1 he with rfl | he
      · exact ⟨h.1, h.2.le⟩
      · have hb := ih h.2 he
        exact ⟨(h.1.trans f.start_le_stop).trans hb.1, hb.2⟩

/-- The last of a nonempty stack ends where the stack ends. -/
theorem Stacked.exists_stop {lo hi : ℕ} {es : List (Extent α)} (h : Stacked lo es hi)
    (hne : es ≠ []) : ∃ e ∈ es, e.stop = hi := by
  induction es generalizing lo with
  | nil => exact absurd rfl hne
  | cons e es ih =>
      by_cases hes : es = []
      · subst hes
        exact ⟨e, List.mem_cons_self, h.2⟩
      · rcases ih h.2 hes with ⟨f, hf, hstop⟩
        exact ⟨f, List.mem_cons_of_mem e hf, hstop⟩

/-- The end of a stack is the furthest position it reaches. -/
theorem Stacked.foldl_max_stop {lo hi : ℕ} {es : List (Extent α)} (h : Stacked lo es hi) :
    es.foldl (fun n e => max n e.stop) lo = hi := by
  induction es generalizing lo with
  | nil => exact h
  | cons e es ih =>
      rw [List.foldl_cons, Nat.max_eq_right (h.1.trans e.start_le_stop)]
      exact ih h.2

theorem Stacked.pairwise_disjoint {lo hi : ℕ} {es : List (Extent α)}
    (h : Stacked lo es hi) : es.Pairwise Disjoint := by
  induction es generalizing lo with
  | nil => exact List.Pairwise.nil
  | cons e es ih =>
      refine List.pairwise_cons.2 ⟨fun f hf => ?_, ih h.2⟩
      exact Or.inl (h.2.bounds hf).1

theorem pairwise_disjoint_of_perm {es fs : List (Extent α)} (hp : es.Perm fs)
    (h : es.Pairwise Disjoint) : fs.Pairwise Disjoint :=
  (hp.pairwise_iff fun {_ _} h => Disjoint.symm h).1 h

/-- Painting a stack in any order, on a buffer no longer than the stack, gives a buffer
that holds every extent and ends where the stack ends. -/
theorem Stacked.held_paint {hi : ℕ} {es fs : List (Extent α)} (h : Stacked 0 fs hi)
    (hp : es.Perm fs) (hne : fs ≠ []) (z : α) {out : List α} (hout : out.length ≤ hi) :
    (∀ e ∈ fs, e.Held (paint z out es)) ∧ (paint z out es).length = hi := by
  have hdisjoint := pairwise_disjoint_of_perm hp.symm h.pairwise_disjoint
  have hheld : ∀ e ∈ fs, e.Held (paint z out es) := fun e he =>
    held_paint_of_mem z out hdisjoint (hp.mem_iff.2 he)
  refine ⟨hheld, Nat.le_antisymm ?_ ?_⟩
  · rw [length_paint_le_iff]
    exact ⟨hout, fun e he => (h.bounds (hp.mem_iff.1 he)).2⟩
  · rcases h.exists_stop hne with ⟨e, he, hstop⟩
    rw [← hstop]
    exact (hheld e he).1

end Extent

end Foundation
