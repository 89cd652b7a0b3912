import Mathlib.Data.List.Basic
import Mathlib.Data.List.Flatten
import Mathlib.Data.List.TakeDrop
import Mathlib.Tactic.Common

/-!
# Windows of a byte string

`window bs o n` is the `n` elements of `bs` from position `o`. `splice` replaces
a range inside a string and `overwrite` first extends the string with a filler,
so it is a write to a growing buffer. The laws say what a window reads after
one of these: the new elements on the written range, the old ones away from it.
-/

namespace Foundation

variable {α : Type*}

/-- The elements of `bs` at the positions `o ≤ i < o + n`. -/
def window (bs : List α) (o n : ℕ) : List α := (bs.drop o).take n

/-- Replaces the elements of `bs` from position `o` by `xs`. -/
def splice (bs : List α) (o : ℕ) (xs : List α) : List α :=
  bs.take o ++ xs ++ bs.drop (o + xs.length)

/-- Writes `xs` at position `o`, first extending `bs` with `z` up to the end of
the written range. -/
def overwrite (z : α) (bs : List α) (o : ℕ) (xs : List α) : List α :=
  splice (bs ++ List.replicate (o + xs.length - bs.length) z) o xs

theorem length_window (bs : List α) (o n : ℕ) :
    (window bs o n).length = min n (bs.length - o) := by
  simp [window]

theorem length_window_of_le {bs : List α} {o n : ℕ} (h : o + n ≤ bs.length) :
    (window bs o n).length = n := by
  rw [length_window]
  omega

@[simp] theorem window_zero_right (bs : List α) (o : ℕ) : window bs o 0 = [] := by
  simp [window]

theorem window_self (bs : List α) : window bs 0 bs.length = bs := by
  simp [window]

theorem getElem?_window (bs : List α) (o n i : ℕ) :
    (window bs o n)[i]? = if i < n then bs[o + i]? else none := by
  rw [window, List.getElem?_take]
  split
  · rw [List.getElem?_drop]
  · rfl

/-- Strings agree behind a position when they agree at every position from it on. -/
theorem drop_eq_iff_getElem? {bs cs : List α} {o : ℕ} :
    bs.drop o = cs.drop o ↔ ∀ i, o ≤ i → bs[i]? = cs[i]? := by
  constructor
  · intro h i hi
    have hget := congrArg (·[i - o]?) h
    simpa only [List.getElem?_drop, Nat.add_sub_cancel' hi] using hget
  · intro h
    apply List.ext_getElem?
    intro i
    rw [List.getElem?_drop, List.getElem?_drop]
    exact h _ (Nat.le_add_right _ _)

theorem window_window (bs : List α) {o n p m : ℕ} (h : p + m ≤ n) :
    window (window bs o n) p m = window bs (o + p) m := by
  apply List.ext_getElem?
  intro i
  rw [getElem?_window, getElem?_window, getElem?_window]
  by_cases hi : i < m
  · rw [if_pos hi, if_pos hi, if_pos (by omega), Nat.add_assoc]
  · rw [if_neg hi, if_neg hi]

/-- Appending to a string changes no window inside it. -/
theorem window_append_left {bs : List α} (ts : List α) {o n : ℕ}
    (h : o + n ≤ bs.length) : window (bs ++ ts) o n = window bs o n := by
  rw [window, window, List.drop_append_of_le_length (by omega),
    List.take_append_of_le_length (by simp; omega)]

theorem window_append_right (bs ts : List α) (o n : ℕ) :
    window (bs ++ ts) (bs.length + o) n = window ts o n := by
  rw [window, window, List.drop_append, List.drop_eq_nil_of_le (by omega)]
  simp

theorem window_append_of_le {bs : List α} (ts : List α) {o n : ℕ}
    (h : bs.length ≤ o) : window (bs ++ ts) o n = window ts (o - bs.length) n := by
  conv_lhs => rw [← Nat.add_sub_of_le h]
  exact window_append_right bs ts (o - bs.length) n

theorem window_eq_self {bs : List α} {n : ℕ} (h : bs.length = n) :
    window bs 0 n = bs := by
  rw [← h]
  exact window_self bs

/-- The three fields of a record are read back as they were written. -/
theorem window_fields {as bs cs : List α} {n m k : ℕ} (ha : as.length = n)
    (hb : bs.length = m) (hc : cs.length = k) :
    window (as ++ bs ++ cs) 0 n = as ∧ window (as ++ bs ++ cs) n m = bs ∧
      window (as ++ bs ++ cs) (n + m) k = cs := by
  subst ha hb hc
  refine ⟨?_, ?_, ?_⟩
  · rw [List.append_assoc, window_append_left _ (by omega), window_self]
  · rw [List.append_assoc, window_append_of_le _ (Nat.le_refl _), Nat.sub_self,
      window_append_left _ (by omega), window_self]
  · rw [window_append_of_le _ (by simp), List.length_append, Nat.sub_self, window_self]

/-- Two windows side by side are one. -/
theorem window_adjacent (l : List α) {o n p m : ℕ} (h : o + n = p) :
    window l o n ++ window l p m = window l o (n + m) := by
  rw [← h, window, window, window, ← List.drop_drop, ← List.take_add]

/-- A record is made of its three fields. -/
theorem fields_window {l : List α} {n m k : ℕ} (h : l.length = n + m + k) :
    window l 0 n ++ window l n m ++ window l (n + m) k = l := by
  rw [window_adjacent l (Nat.zero_add n), window_adjacent l (Nat.zero_add (n + m))]
  exact window_eq_self h

theorem length_splice {bs xs : List α} {o : ℕ} (h : o + xs.length ≤ bs.length) :
    (splice bs o xs).length = bs.length := by
  simp [splice]
  omega

theorem getElem?_splice {bs xs : List α} {o : ℕ} (h : o + xs.length ≤ bs.length)
    (i : ℕ) :
    (splice bs o xs)[i]? =
      if o ≤ i ∧ i < o + xs.length then xs[i - o]? else bs[i]? := by
  have hlen : (bs.take o).length = o := by simp; omega
  rw [splice, List.append_assoc]
  by_cases hlow : i < o
  · rw [if_neg (by omega), List.getElem?_append_left (by omega),
      List.getElem?_take, if_pos hlow]
  · rw [List.getElem?_append_right (by omega), hlen]
    by_cases hmid : i < o + xs.length
    · rw [if_pos (by omega), List.getElem?_append_left (by omega)]
    · rw [if_neg (by omega), List.getElem?_append_right (by omega),
        List.getElem?_drop]
      congr 1
      omega

theorem window_splice_self {bs xs : List α} {o : ℕ}
    (h : o + xs.length ≤ bs.length) :
    window (splice bs o xs) o xs.length = xs := by
  apply List.ext_getElem?
  intro i
  rw [getElem?_window, getElem?_splice h]
  by_cases hi : i < xs.length
  · rw [if_pos hi, if_pos (by omega), Nat.add_sub_cancel_left]
  · rw [if_neg hi, List.getElem?_eq_none (by omega)]

/-- A splice is invisible away from the replaced range. -/
theorem window_splice_of_disjoint {bs xs : List α} {o p n : ℕ}
    (h : o + xs.length ≤ bs.length)
    (hd : p + n ≤ o ∨ o + xs.length ≤ p ∨ n = 0) :
    window (splice bs o xs) p n = window bs p n := by
  apply List.ext_getElem?
  intro i
  rw [getElem?_window, getElem?_window]
  by_cases hi : i < n
  · rw [if_pos hi, if_pos hi, getElem?_splice h, if_neg (by omega)]
  · rw [if_neg hi, if_neg hi]

/-- Inside the string, a growing write is a splice. -/
theorem overwrite_eq_splice (z : α) {bs xs : List α} {o : ℕ}
    (h : o + xs.length ≤ bs.length) : overwrite z bs o xs = splice bs o xs := by
  rw [overwrite, Nat.sub_eq_zero_of_le h, List.replicate_zero, List.append_nil]

theorem length_overwrite (z : α) (bs : List α) (o : ℕ) (xs : List α) :
    (overwrite z bs o xs).length = max bs.length (o + xs.length) := by
  rw [overwrite, length_splice (by simp; omega)]
  simp
  omega

theorem window_overwrite_self (z : α) (bs : List α) (o : ℕ) (xs : List α) :
    window (overwrite z bs o xs) o xs.length = xs :=
  window_splice_self (by simp; omega)

theorem window_overwrite_of_disjoint (z : α) {bs xs : List α} {o p n : ℕ}
    (hp : p + n ≤ bs.length)
    (hd : p + n ≤ o ∨ o + xs.length ≤ p ∨ n = 0) :
    window (overwrite z bs o xs) p n = window bs p n := by
  rw [overwrite, window_splice_of_disjoint (by simp; omega) hd,
    window_append_left _ hp]

/-- The `i`-th record of a table of records of width `w`. -/
theorem window_flatMap {β : Type*} (f : β → List α) {w : ℕ} (l : List β)
    (hw : ∀ b ∈ l, (f b).length = w) (i : ℕ) (hi : i < l.length) :
    window (l.flatMap f) (i * w) w = f l[i] := by
  induction l generalizing i with
  | nil => exact absurd hi (by simp)
  | cons b l ih =>
      have hb : (f b).length = w := hw b List.mem_cons_self
      have hl : ∀ c ∈ l, (f c).length = w := fun c hc =>
        hw c (List.mem_cons_of_mem b hc)
      rw [List.flatMap_cons]
      cases i with
      | zero =>
          rw [Nat.zero_mul, window_append_left _ (by omega), ← hb]
          exact window_self (f b)
      | succ i =>
          have hstep : (i + 1) * w = (f b).length + i * w := by
            rw [hb, Nat.add_mul, Nat.one_mul, Nat.add_comm]
          rw [hstep, window_append_right]
          exact ih hl i (by simpa using hi)

theorem length_flatMap_of_width {β : Type*} (f : β → List α) {w : ℕ} (l : List β)
    (hw : ∀ b ∈ l, (f b).length = w) : (l.flatMap f).length = l.length * w := by
  induction l with
  | nil => simp
  | cons b l ih =>
      rw [List.flatMap_cons, List.length_append, hw b List.mem_cons_self,
        ih fun c hc => hw c (List.mem_cons_of_mem b hc), List.length_cons,
        Nat.add_mul, Nat.one_mul, Nat.add_comm]

end Foundation
