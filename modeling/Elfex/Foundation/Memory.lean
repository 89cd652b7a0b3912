import Mathlib.Algebra.Group.Nat.Defs
import Mathlib.Data.Nat.Basic
import Mathlib.Order.Basic
import Elfex.Foundation.Window

/-!
# Partially resident memory

A memory holds an element at some of the addresses below `2 ^ 64` and misses the
others. `run a n` is what a reader can take from `a` on without a gap: the elements up
to the first missing address, at most `n` of them. A byte string is the memory resident
at its own positions.
-/

namespace Foundation

/-- A partial map from addresses to elements. -/
@[ext] structure Memory (α : Type*) where
  get? : ℕ → Option α
  get?_eq_none : ∀ a, 2 ^ 64 ≤ a → get? a = none

namespace Memory

variable {α : Type*}

/-- The elements from `a` on, up to the first missing address. -/
def run (memory : Memory α) (a : ℕ) : ℕ → List α
  | 0 => []
  | n + 1 =>
    match memory.get? a with
    | none => []
    | some x => x :: memory.run (a + 1) n

/-- The memory a byte string is, resident at its positions. -/
def ofList (bytes : List α) : Memory α where
  get? a := if a < 2 ^ 64 then bytes[a]? else none
  get?_eq_none _ ha := if_neg (Nat.not_lt.2 ha)

/-- The memory addressed from `base` on. -/
def shift (memory : Memory α) (base : ℕ) : Memory α where
  get? a := memory.get? (base + a)
  get?_eq_none a ha := memory.get?_eq_none _ (ha.trans (Nat.le_add_left a base))

@[simp] theorem get?_shift (memory : Memory α) (base a : ℕ) :
    (memory.shift base).get? a = memory.get? (base + a) := rfl

section Run

variable (memory : Memory α) (a : ℕ)

@[simp] theorem run_zero : memory.run a 0 = [] := rfl

theorem run_of_missing {n : ℕ} (h : memory.get? a = none) : memory.run a n = [] := by
  cases n with
  | zero => rfl
  | succ n => rw [run, h]

theorem run_of_resident {n : ℕ} {x : α} (h : memory.get? a = some x) :
    memory.run a (n + 1) = x :: memory.run (a + 1) n := by
  rw [run, h]

theorem length_run_le (n : ℕ) : (memory.run a n).length ≤ n := by
  induction n generalizing a with
  | zero => exact Nat.le_refl 0
  | succ n ih =>
      cases h : memory.get? a with
      | none => simp [run_of_missing memory a h]
      | some x =>
          rw [run_of_resident memory a h, List.length_cons]
          exact Nat.succ_le_succ (ih (a + 1))

/-- The elements of a run are the ones the memory holds. -/
theorem getElem?_run (n i : ℕ) :
    (memory.run a n)[i]? =
      if i < (memory.run a n).length then memory.get? (a + i) else none := by
  induction n generalizing a i with
  | zero => simp
  | succ n ih =>
      cases h : memory.get? a with
      | none => simp [run_of_missing memory a h]
      | some x =>
          rw [run_of_resident memory a h]
          cases i with
          | zero => simp [h]
          | succ i =>
              rw [List.getElem?_cons_succ, ih, List.length_cons, Nat.add_right_comm,
                Nat.add_assoc]
              simp only [Nat.succ_lt_succ_iff]

/-- A run shorter than asked for ends at a missing address. -/
theorem get?_length_run {n : ℕ} (h : (memory.run a n).length < n) :
    memory.get? (a + (memory.run a n).length) = none := by
  induction n generalizing a with
  | zero => exact absurd h (Nat.not_lt_zero _)
  | succ n ih =>
      cases hx : memory.get? a with
      | none => rwa [run_of_missing memory a hx, List.length_nil, Nat.add_zero]
      | some x =>
          rw [run_of_resident memory a hx, List.length_cons] at h ⊢
          rw [← Nat.add_assoc, Nat.add_right_comm]
          exact ih (a + 1) (Nat.lt_of_succ_lt_succ h)

theorem get?_ne_none_of_lt_length_run {n i : ℕ} (h : i < (memory.run a n).length) :
    memory.get? (a + i) ≠ none := by
  have hrun := memory.getElem?_run a n i
  rw [if_pos h, List.getElem?_eq_getElem h] at hrun
  simp [← hrun]

/-- A run is as long as asked for exactly when every address is resident. -/
theorem length_run_eq_iff (n : ℕ) :
    (memory.run a n).length = n ↔ ∀ i < n, memory.get? (a + i) ≠ none := by
  constructor
  · intro h i hi
    exact memory.get?_ne_none_of_lt_length_run a (h.symm ▸ hi)
  · intro h
    by_contra hne
    have hlt := (memory.length_run_le a n).lt_of_ne hne
    exact h _ hlt (memory.get?_length_run a hlt)

theorem take_run {n c : ℕ} (h : c ≤ n) : (memory.run a n).take c = memory.run a c := by
  induction n generalizing a c with
  | zero =>
      obtain rfl : c = 0 := Nat.le_zero.1 h
      rfl
  | succ n ih =>
      cases c with
      | zero => rfl
      | succ c =>
          cases hx : memory.get? a with
          | none => rw [run_of_missing memory a hx, run_of_missing memory a hx, List.take_nil]
          | some x =>
              rw [run_of_resident memory a hx, run_of_resident memory a hx,
                List.take_succ_cons, ih (a + 1) (Nat.le_of_succ_le_succ h)]

/-- A run is at least as long as any run it starts with. -/
theorem length_run_of_le {n c : ℕ} (h : c ≤ (memory.run a n).length) :
    (memory.run a c).length = c := by
  rw [← take_run _ a (h.trans (memory.length_run_le a n)), List.length_take, Nat.min_eq_left h]

/-- A run goes on where a complete run ends. -/
theorem run_add {k : ℕ} (n : ℕ) (h : (memory.run a k).length = k) :
    memory.run a (k + n) = memory.run a k ++ memory.run (a + k) n := by
  induction k generalizing a with
  | zero => simp
  | succ k ih =>
      cases hx : memory.get? a with
      | none =>
          rw [run_of_missing memory a hx] at h
          cases h
      | some x =>
          rw [run_of_resident memory a hx, List.length_cons] at h
          rw [Nat.succ_add, run_of_resident memory a hx, run_of_resident memory a hx,
            List.cons_append, ih (a + 1) (Nat.succ.inj h), Nat.add_assoc, Nat.add_comm 1 k]

end Run

/-! ## Filling a buffer -/

/-- A buffer after reading from `a` on: the run there, and the rest as it was. -/
def fill (memory : Memory α) (a : ℕ) (buf : List α) : List α :=
  memory.run a buf.length ++ buf.drop (memory.run a buf.length).length

theorem length_fill (memory : Memory α) (a : ℕ) (buf : List α) :
    (memory.fill a buf).length = buf.length := by
  have hle := memory.length_run_le a buf.length
  rw [fill, List.length_append, List.length_drop]
  omega

theorem fill_of_missing {memory : Memory α} {a : ℕ} (h : memory.get? a = none) (buf : List α) :
    memory.fill a buf = buf := by
  rw [fill, run_of_missing memory a h]
  rfl

/-- A part that is resident can be filled first. -/
theorem fill_split {memory : Memory α} {a k : ℕ} (h : (memory.run a k).length = k)
    {buf : List α} (hk : k ≤ buf.length) :
    memory.fill a buf = memory.run a k ++ memory.fill (a + k) (buf.drop k) := by
  rw [fill, fill, List.length_drop, ← Nat.add_sub_of_le hk, memory.run_add a _ h,
    Nat.add_sub_cancel_left, List.length_append, h, ← List.drop_drop, List.append_assoc]

/-- A buffer of one filler element keeps it from the first missing address on. -/
theorem getElem?_fill_replicate (memory : Memory α) (a n : ℕ) (z : α) (i : ℕ) :
    (memory.fill a (List.replicate n z))[i]? =
      if i < n then
        some (if i < (memory.run a n).length then (memory.get? (a + i)).getD z else z)
      else none := by
  have hle := memory.length_run_le a n
  rw [fill, List.length_replicate]
  by_cases hi : i < (memory.run a n).length
  · have hresident := memory.get?_ne_none_of_lt_length_run a hi
    rw [List.getElem?_append_left hi, memory.getElem?_run, if_pos hi,
      if_pos (hi.trans_le hle), if_pos hi]
    obtain ⟨x, hx⟩ := Option.ne_none_iff_exists'.1 hresident
    rw [hx, Option.getD_some]
  · rw [List.getElem?_append_right (Nat.le_of_not_lt hi), List.drop_replicate,
      List.getElem?_replicate, if_neg hi]
    by_cases hn : i < n
    · rw [if_pos hn, if_pos (by omega)]
    · rw [if_neg hn, if_neg (by omega)]

/-- A buffer of one filler element is exact when every element after a missing address is
the filler. -/
theorem fill_exact_iff (memory : Memory α) (a n : ℕ) (z : α) :
    (∀ i < n, (memory.fill a (List.replicate n z))[i]? =
        some ((memory.get? (a + i)).getD z)) ↔
      ∀ i j, i < j → j < n → memory.get? (a + i) = none →
        ∀ x, memory.get? (a + j) = some x → x = z := by
  constructor
  · intro hexact i j hij hj hmissing x hx
    have hstop : ¬j < (memory.run a n).length := by
      intro hlt
      exact memory.get?_ne_none_of_lt_length_run a (hij.trans hlt) hmissing
    have hread := hexact j hj
    rw [getElem?_fill_replicate, if_pos hj, if_neg hstop, hx] at hread
    exact (Option.some.inj hread).symm
  · intro hzero i hi
    rw [getElem?_fill_replicate, if_pos hi]
    split
    · rfl
    · rename_i hstop
      -- the run ends at a missing address, so a later element is the filler
      have hlt := (Nat.le_of_not_lt hstop).trans_lt hi
      have hmissing := memory.get?_length_run a hlt
      cases hx : memory.get? (a + i) with
      | none => rfl
      | some x =>
          rcases Nat.lt_or_eq_of_le (Nat.le_of_not_lt hstop) with hafter | hsame
          · rw [Option.getD_some, hzero _ i hafter hi hmissing x hx]
          · rw [hsame, hx] at hmissing
            cases hmissing

/-! ## Memories of byte strings -/

theorem run_shift (memory : Memory α) (base a n : ℕ) :
    (memory.shift base).run a n = memory.run (base + a) n := by
  induction n generalizing a with
  | zero => rfl
  | succ n ih => rw [run, run, get?_shift, ih, Nat.add_assoc]

theorem fill_shift (memory : Memory α) (base a : ℕ) (buf : List α) :
    (memory.shift base).fill a buf = memory.fill (base + a) buf := by
  rw [fill, fill, run_shift]

theorem get?_ofList {bytes : List α} (hbytes : bytes.length ≤ 2 ^ 64) (a : ℕ) :
    (ofList bytes).get? a = bytes[a]? := by
  by_cases ha : a < 2 ^ 64
  · exact if_pos ha
  · rw [List.getElem?_eq_none (by omega)]
    exact if_neg ha

/-- A run of a byte string is a window of it. -/
theorem run_ofList {bytes : List α} (hbytes : bytes.length ≤ 2 ^ 64) (a n : ℕ) :
    (ofList bytes).run a n = window bytes a n := by
  induction n generalizing a with
  | zero => simp
  | succ n ih =>
      cases hx : bytes[a]? with
      | none =>
          have hlen := List.getElem?_eq_none_iff.1 hx
          rw [run_of_missing _ a ((get?_ofList hbytes a).trans hx), window,
            List.drop_eq_nil_of_le hlen, List.take_nil]
      | some x =>
          obtain ⟨hlt, hget⟩ := List.getElem?_eq_some_iff.1 hx
          rw [run_of_resident _ a ((get?_ofList hbytes a).trans hx), ih, window, window,
            List.drop_eq_getElem_cons hlt, List.take_succ_cons, hget]

/-- A string after a prefix is the memory addressed from the prefix's end on. -/
theorem shift_ofList_append {p d : List α} (h : (p ++ d).length ≤ 2 ^ 64) :
    (ofList (p ++ d)).shift p.length = ofList d := by
  have hd : d.length ≤ 2 ^ 64 := by
    rw [List.length_append] at h
    omega
  ext1
  funext a
  rw [get?_shift, get?_ofList h, get?_ofList hd, List.getElem?_append_right (by omega),
    Nat.add_sub_cancel_left]

/-- Reading a string into a buffer of one filler element reads past its end as the
filler. -/
theorem getElem?_fill_ofList {bytes : List α} (hbytes : bytes.length ≤ 2 ^ 64) (a n : ℕ)
    (z : α) (i : ℕ) :
    ((ofList bytes).fill a (List.replicate n z))[i]? =
      if i < n then some (bytes.getD (a + i) z) else none := by
  rw [getElem?_fill_replicate, run_ofList hbytes, length_window, get?_ofList hbytes,
    List.getD_eq_getElem?_getD]
  by_cases hn : i < n
  · rw [if_pos hn, if_pos hn]
    split
    · rfl
    · rw [List.getElem?_eq_none (by omega), Option.getD_none]
  · rw [if_neg hn, if_neg hn]

end Memory

end Foundation
