import Mathlib.Data.Nat.Basic
import Elfex.Foundation.ByteOrder
import Elfex.Foundation.Window

/-!
# Shifting words of a byte string

A slot is a word of a byte string, read and written in a given byte order. `shiftAll`
adds a number to the words of a list of slots, one after the other and each modulo its
width. A word whose slot overlaps no other one is shifted once, and a byte outside every
slot stays as it is.
-/

namespace Foundation

/-- A permutation of the bytes of a word that is its own inverse. -/
structure ByteOrder where
  order : List UInt8 → List UInt8
  order_order : ∀ bytes, order (order bytes) = bytes
  length_order : ∀ bytes, (order bytes).length = bytes.length

/-- A word of a byte string: its first position and its width. -/
structure Slot where
  start : ℕ
  width : ℕ
  deriving DecidableEq, Repr

namespace Slot

def stop (s : Slot) : ℕ := s.start + s.width

/-- The position is one of the slot's. -/
def Holds (s : Slot) (a : ℕ) : Prop := s.start ≤ a ∧ a < s.stop

instance (s : Slot) (a : ℕ) : Decidable (s.Holds a) := inferInstanceAs (Decidable (_ ∧ _))

/-- One of the two slots ends before the other starts. -/
def Disjoint (s t : Slot) : Prop := s.stop ≤ t.start ∨ t.stop ≤ s.start

instance (s t : Slot) : Decidable (s.Disjoint t) := inferInstanceAs (Decidable (_ ∨ _))

theorem Disjoint.symm {s t : Slot} (h : s.Disjoint t) : t.Disjoint s := Or.symm h

theorem Disjoint.not_holds {s t : Slot} (h : s.Disjoint t) {a : ℕ} (ht : t.Holds a) :
    ¬s.Holds a := by
  rintro ⟨hstart, hlt⟩
  rcases h with h | h
  · exact absurd (hlt.trans_le (h.trans ht.1)) (Nat.lt_irrefl a)
  · exact absurd (ht.2.trans_le (h.trans hstart)) (Nat.lt_irrefl a)

variable (order : ByteOrder)

/-- The number a slot holds. -/
def read (bytes : List UInt8) (s : Slot) : ℕ :=
  ofLittle (order.order (window bytes s.start s.width))

/-- Writes a number to a slot, as much of it as the width holds. -/
def write (bytes : List UInt8) (s : Slot) (n : ℕ) : List UInt8 :=
  splice bytes s.start (order.order (toLittle s.width n))

/-- Adds a number to the one a slot holds. -/
def shift (delta : ℕ) (bytes : List UInt8) (s : Slot) : List UInt8 :=
  s.write order bytes (s.read order bytes + delta)

/-- Adds a number to the ones the slots hold, in order. -/
def shiftAll (delta : ℕ) (bytes : List UInt8) (slots : List Slot) : List UInt8 :=
  slots.foldl (shift order delta) bytes

section One

variable {order} {bytes : List UInt8} {s : Slot} (h : s.stop ≤ bytes.length)

theorem length_order_toLittle (w n : ℕ) : (order.order (toLittle w n)).length = w := by
  rw [order.length_order, length_toLittle]

include h

theorem stop_write_le (n : ℕ) :
    s.start + (order.order (toLittle s.width n)).length ≤ bytes.length := by
  rw [length_order_toLittle]
  exact h

theorem length_write (n : ℕ) : (s.write order bytes n).length = bytes.length :=
  length_splice (stop_write_le h n)

theorem read_lt : s.read order bytes < 256 ^ s.width := by
  have hlt := ofLittle_lt (order.order (window bytes s.start s.width))
  rwa [order.length_order, length_window_of_le h] at hlt

/-- Reading back a written number gives its residue. -/
theorem read_write (n : ℕ) : s.read order (s.write order bytes n) = n % 256 ^ s.width := by
  have hself : window (s.write order bytes n) s.start
      (order.order (toLittle s.width n)).length = order.order (toLittle s.width n) :=
    window_splice_self (stop_write_le h n)
  rw [length_order_toLittle, write] at hself
  rw [read, write, hself, order.order_order, ofLittle_toLittle]

/-- Writing back the number a slot holds changes nothing. -/
theorem write_read : s.write order bytes (s.read order bytes) = bytes := by
  have hlen : (order.order (window bytes s.start s.width)).length = s.width := by
    rw [order.length_order]
    exact length_window_of_le h
  have hwritten : order.order (toLittle s.width (s.read order bytes)) =
      window bytes s.start s.width := by
    conv_lhs => rw [← hlen]
    rw [read, toLittle_ofLittle, order.order_order]
  rw [write, hwritten, splice, length_window_of_le h, window, List.append_assoc,
    ← List.drop_drop, List.take_append_drop, List.take_append_drop]

/-- Writing to a slot leaves the bytes outside it. -/
theorem getElem?_write_of_not_holds (n : ℕ) {a : ℕ} (ha : ¬s.Holds a) :
    (s.write order bytes n)[a]? = bytes[a]? := by
  rw [write, getElem?_splice (stop_write_le h n), length_order_toLittle]
  exact if_neg ha

/-- Writing to a slot leaves the numbers of the disjoint ones. -/
theorem read_write_of_disjoint (n : ℕ) {t : Slot} (ht : t.Disjoint s) :
    t.read order (s.write order bytes n) = t.read order bytes := by
  rw [read, write, window_splice_of_disjoint (stop_write_le h n), ← read]
  rw [length_order_toLittle]
  rcases ht with ht | ht
  · exact Or.inl ht
  · exact Or.inr (Or.inl ht)

theorem length_shift (delta : ℕ) : (s.shift order delta bytes).length = bytes.length :=
  length_write h _

/-- Adding a number leaves the bytes exactly when the width divides it. -/
theorem shift_eq_self_iff (delta : ℕ) :
    s.shift order delta bytes = bytes ↔ 256 ^ s.width ∣ delta := by
  have hlt : s.read order bytes < 256 ^ s.width := read_lt h
  constructor
  · intro hself
    have hread : s.read order (s.shift order delta bytes) =
        (s.read order bytes + delta) % 256 ^ s.width := read_write h _
    rw [hself] at hread
    have hmod : (s.read order bytes + 0) % 256 ^ s.width =
        (s.read order bytes + delta) % 256 ^ s.width := by
      rw [Nat.add_zero, ← hread, Nat.mod_eq_of_lt hlt]
    exact (Nat.modEq_zero_iff_dvd).1 (Nat.ModEq.add_left_cancel' _ hmod).symm
  · rintro ⟨k, rfl⟩
    have hbytes : s.write order bytes (s.read order bytes) = bytes := write_read h
    rw [shift, write, (toLittle_eq_iff).2 (Nat.add_mul_mod_self_left _ _ _)]
    exact hbytes

end One

section All

variable {order} {bytes : List UInt8} {slots : List Slot} (delta : ℕ)

@[simp] theorem shiftAll_nil : shiftAll order delta bytes [] = bytes := rfl

@[simp] theorem shiftAll_cons (s : Slot) (slots : List Slot) :
    shiftAll order delta bytes (s :: slots) =
      shiftAll order delta (s.shift order delta bytes) slots := rfl

theorem shiftAll_append (slots slots' : List Slot) :
    shiftAll order delta bytes (slots ++ slots') =
      shiftAll order delta (shiftAll order delta bytes slots) slots' := List.foldl_append

/-- Slots that lie inside the bytes still do once the first of them is shifted. -/
theorem inside_shift {s : Slot} (h : ∀ t ∈ s :: slots, t.stop ≤ bytes.length) :
    ∀ t ∈ slots, t.stop ≤ (s.shift order delta bytes).length := by
  rw [length_shift (h s List.mem_cons_self)]
  exact fun t ht => h t (List.mem_cons_of_mem s ht)

theorem length_shiftAll (h : ∀ s ∈ slots, s.stop ≤ bytes.length) :
    (shiftAll order delta bytes slots).length = bytes.length := by
  induction slots generalizing bytes with
  | nil => rfl
  | cons s slots ih =>
      rw [shiftAll_cons, ih (inside_shift delta h), length_shift (h s List.mem_cons_self)]

/-- A byte outside every slot stays. -/
theorem getElem?_shiftAll_of_not_holds (h : ∀ s ∈ slots, s.stop ≤ bytes.length) {a : ℕ}
    (ha : ∀ s ∈ slots, ¬s.Holds a) : (shiftAll order delta bytes slots)[a]? = bytes[a]? := by
  induction slots generalizing bytes with
  | nil => rfl
  | cons s slots ih =>
      rw [shiftAll_cons, ih (inside_shift delta h) fun t ht => ha t (List.mem_cons_of_mem s ht)]
      exact getElem?_write_of_not_holds (h s List.mem_cons_self) _ (ha s List.mem_cons_self)

/-- The number of a slot disjoint from the shifted ones stays. -/
theorem read_shiftAll_of_disjoint (h : ∀ s ∈ slots, s.stop ≤ bytes.length) {t : Slot}
    (ht : ∀ s ∈ slots, t.Disjoint s) :
    t.read order (shiftAll order delta bytes slots) = t.read order bytes := by
  induction slots generalizing bytes with
  | nil => rfl
  | cons s slots ih =>
      rw [shiftAll_cons, ih (inside_shift delta h)
        fun s' hs' => ht s' (List.mem_cons_of_mem s hs')]
      exact read_write_of_disjoint (h s List.mem_cons_self) _ (ht s List.mem_cons_self)

/-- A slot that is disjoint from the others is shifted once. -/
theorem read_shiftAll_of_isolated {before after : List Slot} {s : Slot}
    (h : ∀ t ∈ before ++ s :: after, t.stop ≤ bytes.length)
    (hbefore : ∀ t ∈ before, s.Disjoint t) (hafter : ∀ t ∈ after, s.Disjoint t) :
    s.read order (shiftAll order delta bytes (before ++ s :: after)) =
      (s.read order bytes + delta) % 256 ^ s.width := by
  have hin : ∀ t ∈ before, t.stop ≤ bytes.length := fun t ht =>
    h t (List.mem_append_left _ ht)
  have hs : s.stop ≤ (shiftAll order delta bytes before).length := by
    rw [length_shiftAll delta hin]
    exact h s (List.mem_append_right _ List.mem_cons_self)
  have hlen : (s.shift order delta (shiftAll order delta bytes before)).length =
      bytes.length := (length_shift hs delta).trans (length_shiftAll delta hin)
  rw [shiftAll_append, shiftAll_cons, read_shiftAll_of_disjoint delta
    (fun t ht => hlen ▸ h t (List.mem_append_right _ (List.mem_cons_of_mem s ht))) hafter,
    shift, read_write hs, read_shiftAll_of_disjoint delta hin hbefore]

/-- The slots of a pairwise disjoint list are shifted once each. -/
theorem read_shiftAll_of_mem (h : ∀ s ∈ slots, s.stop ≤ bytes.length)
    (hdisjoint : slots.Pairwise Disjoint) {s : Slot} (hs : s ∈ slots) :
    s.read order (shiftAll order delta bytes slots) =
      (s.read order bytes + delta) % 256 ^ s.width := by
  obtain ⟨before, after, rfl⟩ := List.append_of_mem hs
  obtain ⟨-, htail, hacross⟩ := List.pairwise_append.1 hdisjoint
  exact read_shiftAll_of_isolated delta h
    (fun t ht => (hacross t ht s List.mem_cons_self).symm) (List.pairwise_cons.1 htail).1

/-- Adding a number that every width divides changes nothing. -/
theorem shiftAll_eq_self_of_dvd (h : ∀ s ∈ slots, s.stop ≤ bytes.length)
    (hdvd : ∀ s ∈ slots, 256 ^ s.width ∣ delta) : shiftAll order delta bytes slots = bytes := by
  induction slots with
  | nil => rfl
  | cons s slots ih =>
      rw [shiftAll_cons,
        (shift_eq_self_iff (h s List.mem_cons_self) delta).2 (hdvd s List.mem_cons_self)]
      exact ih (fun t ht => h t (List.mem_cons_of_mem s ht))
        fun t ht => hdvd t (List.mem_cons_of_mem s ht)

/-- Shifting disjoint slots changes nothing exactly when every width divides the number. -/
theorem shiftAll_eq_self_iff (h : ∀ s ∈ slots, s.stop ≤ bytes.length)
    (hdisjoint : slots.Pairwise Disjoint) :
    shiftAll order delta bytes slots = bytes ↔ ∀ s ∈ slots, 256 ^ s.width ∣ delta := by
  refine ⟨fun hself s hs => ?_, shiftAll_eq_self_of_dvd delta h⟩
  have hread : s.read order (shiftAll order delta bytes slots) =
      (s.read order bytes + delta) % 256 ^ s.width :=
    read_shiftAll_of_mem delta h hdisjoint hs
  rw [hself] at hread
  rw [← shift_eq_self_iff (h s hs), shift, write, ← toLittle_mod, ← hread]
  exact write_read (h s hs)

/-- Strings that agree from a position on still do once a slot behind it is shifted. -/
theorem getElem?_shift_of_agree {bytes' : List UInt8} {s : Slot} (h : s.stop ≤ bytes.length)
    (hlen : bytes'.length = bytes.length) {n : ℕ} (hn : n ≤ s.start)
    (hagree : ∀ a, n ≤ a → bytes'[a]? = bytes[a]?) {a : ℕ} (ha : n ≤ a) :
    (s.shift order delta bytes')[a]? = (s.shift order delta bytes)[a]? := by
  have hwindow : window bytes' s.start s.width = window bytes s.start s.width := by
    apply List.ext_getElem?
    intro i
    rw [getElem?_window, getElem?_window, hagree _ (hn.trans (Nat.le_add_right _ _))]
  have hread : s.read order bytes' = s.read order bytes := by rw [read, read, hwindow]
  have hfit : s.start + (order.order (toLittle s.width (s.read order bytes + delta))).length ≤
      bytes.length := stop_write_le h _
  rw [shift, shift, hread, write, write, getElem?_splice hfit,
    getElem?_splice (hlen.symm ▸ hfit), hagree a ha]

/-- Strings that agree from a position on still do once the slots behind it are shifted. -/
theorem getElem?_shiftAll_of_agree {bytes' : List UInt8}
    (h : ∀ s ∈ slots, s.stop ≤ bytes.length) (hlen : bytes'.length = bytes.length) {n : ℕ}
    (hn : ∀ s ∈ slots, n ≤ s.start) (hagree : ∀ a, n ≤ a → bytes'[a]? = bytes[a]?) {a : ℕ}
    (ha : n ≤ a) :
    (shiftAll order delta bytes' slots)[a]? = (shiftAll order delta bytes slots)[a]? := by
  induction slots generalizing bytes bytes' with
  | nil => exact hagree a ha
  | cons s slots ih =>
      have hs := h s List.mem_cons_self
      have hs' : s.stop ≤ bytes'.length := hlen.symm ▸ hs
      rw [shiftAll_cons, shiftAll_cons]
      refine ih (inside_shift delta h) ?_ (fun t ht => hn t (List.mem_cons_of_mem s ht))
        fun b hb => getElem?_shift_of_agree delta hs hlen (hn s List.mem_cons_self) hagree hb
      rw [length_shift hs', length_shift hs, hlen]

end All

end Slot

end Foundation
