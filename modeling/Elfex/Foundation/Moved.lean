import Elfex.Foundation.Slot

/-!
# Words moved again

Shifting a slot twice is shifting it once by the sum, and slots that are apart or equal
can be shifted in any order. So shifting a list of slots is an action of the numbers on the
byte strings, which the order of the list does not change.
-/

namespace Foundation

namespace Slot

variable {order : ByteOrder} {bytes bytes' : List UInt8} {s t : Slot}

/-- The two slots are one, or share no position. -/
def Apart (s t : Slot) : Prop := s = t ∨ s.Disjoint t

instance (s t : Slot) : Decidable (s.Apart t) := inferInstanceAs (Decidable (_ ∨ _))

theorem Apart.refl (s : Slot) : s.Apart s := Or.inl rfl

theorem Apart.symm (h : s.Apart t) : t.Apart s := h.imp Eq.symm Disjoint.symm

instance : Std.Symm Apart := ⟨fun _ _ => Apart.symm⟩

theorem getElem?_write_inside (h : s.stop ≤ bytes.length) (n : ℕ) {a : ℕ} (ha : s.Holds a) :
    (s.write order bytes n)[a]? = (order.order (toLittle s.width n))[a - s.start]? := by
  rw [write, getElem?_splice (stop_write_le h n), length_order_toLittle]
  exact if_pos ha

/-- The bytes of a slot are told by the number it holds. -/
theorem getElem?_of_read_eq (h : s.stop ≤ bytes.length) (hlen : bytes'.length = bytes.length)
    (hread : s.read order bytes' = s.read order bytes) {a : ℕ} (ha : s.Holds a) :
    bytes'[a]? = bytes[a]? := by
  have h' : s.stop ≤ bytes'.length := hlen.symm ▸ h
  have hself : s.write order bytes (s.read order bytes) = bytes := write_read h
  have hself' : s.write order bytes' (s.read order bytes') = bytes' := write_read h'
  calc bytes'[a]? = (s.write order bytes' (s.read order bytes'))[a]? := by rw [hself']
    _ = (s.write order bytes (s.read order bytes))[a]? := by
        rw [getElem?_write_inside h' _ ha, getElem?_write_inside h _ ha, hread]
    _ = bytes[a]? := by rw [hself]

/-- What is written does not depend on the bytes of the slot. -/
theorem write_congr (h : s.stop ≤ bytes.length) (hlen : bytes'.length = bytes.length)
    (hout : ∀ a, ¬s.Holds a → bytes'[a]? = bytes[a]?) (n : ℕ) :
    s.write order bytes' n = s.write order bytes n := by
  apply List.ext_getElem?
  intro a
  by_cases ha : s.Holds a
  · rw [getElem?_write_inside (hlen.symm ▸ h) n ha, getElem?_write_inside h n ha]
  · rw [getElem?_write_of_not_holds (hlen.symm ▸ h) n ha, getElem?_write_of_not_holds h n ha,
      hout a ha]

/-- A second shift of a slot adds to the first. -/
theorem shift_shift (h : s.stop ≤ bytes.length) (delta delta' : ℕ) :
    s.shift order delta' (s.shift order delta bytes) = s.shift order (delta + delta') bytes := by
  have hout : ∀ a, ¬s.Holds a → (s.shift order delta bytes)[a]? = bytes[a]? := fun a ha =>
    getElem?_write_of_not_holds h _ ha
  have hread : s.read order (s.shift order delta bytes) =
      (s.read order bytes + delta) % 256 ^ s.width := read_write h _
  rw [shift, hread, write_congr h (length_shift h delta) hout, shift, write, write,
    toLittle_eq_iff.2 (show ((s.read order bytes + delta) % 256 ^ s.width + delta') %
      256 ^ s.width = (s.read order bytes + (delta + delta')) % 256 ^ s.width by
        rw [Nat.mod_add_mod, Nat.add_assoc])]

/-- Shifts by numbers with one residue are the same. -/
theorem shift_congr {delta delta' : ℕ} (h : delta % 256 ^ s.width = delta' % 256 ^ s.width) :
    s.shift order delta bytes = s.shift order delta' bytes := by
  rw [shift, shift, write, write, toLittle_eq_iff.2 (Nat.ModEq.add_left _ h)]

/-- Slots that are apart can be shifted in either order. -/
theorem shift_comm (hs : s.stop ≤ bytes.length) (ht : t.stop ≤ bytes.length) (h : s.Apart t)
    (delta delta' : ℕ) : t.shift order delta' (s.shift order delta bytes) =
      s.shift order delta (t.shift order delta' bytes) := by
  rcases h with rfl | h
  · rw [shift_shift hs, shift_shift hs, Nat.add_comm]
  · have hs' : s.stop ≤ (t.shift order delta' bytes).length := by rwa [length_shift ht]
    have ht' : t.stop ≤ (s.shift order delta bytes).length := by rwa [length_shift hs]
    have hread : t.read order (s.shift order delta bytes) = t.read order bytes :=
      read_write_of_disjoint hs _ h.symm
    have hread' : s.read order (t.shift order delta' bytes) = s.read order bytes :=
      read_write_of_disjoint ht _ h
    apply List.ext_getElem?
    intro a
    by_cases has : s.Holds a
    · have hat : ¬t.Holds a := h.symm.not_holds has
      rw [shift, getElem?_write_of_not_holds ht' _ hat, shift, getElem?_write_inside hs _ has,
        shift, getElem?_write_inside hs' _ has, hread']
    · by_cases hat : t.Holds a
      · rw [shift, getElem?_write_inside ht' _ hat, hread,
          shift, getElem?_write_of_not_holds hs' _ has, shift, getElem?_write_inside ht _ hat]
      · rw [shift, getElem?_write_of_not_holds ht' _ hat, shift,
          getElem?_write_of_not_holds hs _ has, shift, getElem?_write_of_not_holds hs' _ has,
          shift, getElem?_write_of_not_holds ht _ hat]

section All

variable {slots slots' : List Slot}

theorem shiftAll_shift (h : ∀ t ∈ s :: slots, t.stop ≤ bytes.length)
    (hapart : ∀ t ∈ slots, s.Apart t) (delta delta' : ℕ) :
    s.shift order delta' (shiftAll order delta bytes slots) =
      shiftAll order delta (s.shift order delta' bytes) slots := by
  induction slots generalizing bytes with
  | nil => rfl
  | cons t slots ih =>
      rw [List.forall_mem_cons, List.forall_mem_cons] at h
      rw [List.forall_mem_cons] at hapart
      have hlen : (t.shift order delta bytes).length = bytes.length := length_shift h.2.1 delta
      rw [shiftAll_cons, shiftAll_cons, shift_comm h.1 h.2.1 hapart.1]
      refine ih (List.forall_mem_cons.2 ⟨hlen.symm ▸ h.1, fun u hu => ?_⟩) hapart.2
      rw [hlen]
      exact h.2.2 u hu

/-- A second shift of slots that are apart adds to the first. -/
theorem shiftAll_shiftAll (h : ∀ s ∈ slots, s.stop ≤ bytes.length)
    (hapart : slots.Pairwise Apart) (delta delta' : ℕ) :
    shiftAll order delta' (shiftAll order delta bytes slots) slots =
      shiftAll order (delta + delta') bytes slots := by
  induction slots generalizing bytes with
  | nil => rfl
  | cons s slots ih =>
      obtain ⟨hfirst, hrest⟩ := List.pairwise_cons.1 hapart
      have hs := h s List.mem_cons_self
      have hsame : (s.shift order delta bytes).length = bytes.length := length_shift hs delta
      rw [shiftAll_cons, shiftAll_cons, shiftAll_shift (by rwa [hsame]) hfirst,
        shift_shift hs, ih (inside_shift (delta + delta') h) hrest, shiftAll_cons]

theorem shiftAll_congr {delta delta' : ℕ}
    (h : ∀ s ∈ slots, delta % 256 ^ s.width = delta' % 256 ^ s.width) :
    shiftAll order delta bytes slots = shiftAll order delta' bytes slots := by
  induction slots generalizing bytes with
  | nil => rfl
  | cons s slots ih =>
      rw [shiftAll_cons, shiftAll_cons, shift_congr (h s List.mem_cons_self),
        ih fun t ht => h t (List.mem_cons_of_mem s ht)]

/-- The order in which slots that are apart are shifted does not matter. -/
theorem shiftAll_perm (hperm : slots.Perm slots') (h : ∀ s ∈ slots, s.stop ≤ bytes.length)
    (hapart : slots.Pairwise Apart) (delta : ℕ) :
    shiftAll order delta bytes slots = shiftAll order delta bytes slots' := by
  induction hperm generalizing bytes with
  | nil => rfl
  | cons s _ ih =>
      rw [shiftAll_cons, shiftAll_cons,
        ih (inside_shift delta h) (List.pairwise_cons.1 hapart).2]
  | swap s t slots =>
      rw [List.forall_mem_cons, List.forall_mem_cons] at h
      have hts := (List.pairwise_cons.1 hapart).1 s List.mem_cons_self
      rw [shiftAll_cons, shiftAll_cons, shiftAll_cons, shiftAll_cons,
        shift_comm h.1 h.2.1 hts]
  | trans hfirst _ ih ih' =>
      refine (ih h hapart).trans (ih' (fun s hs => h s (hfirst.mem_iff.2 hs)) ?_)
      exact (hfirst.pairwise_iff Apart.symm).1 hapart

/-! ## How often a word is moved -/

/-- A slot moves as often as it is listed. -/
theorem read_shiftAll_of_apart (h : ∀ t ∈ slots, t.stop ≤ bytes.length)
    (hs : s.stop ≤ bytes.length) (hapart : ∀ t ∈ slots, s.Apart t) (delta : ℕ) :
    s.read order (shiftAll order delta bytes slots) =
      (s.read order bytes + slots.count s * delta) % 256 ^ s.width := by
  induction slots generalizing bytes with
  | nil =>
      rw [shiftAll_nil, List.count_nil, Nat.zero_mul, Nat.add_zero, Nat.mod_eq_of_lt (read_lt hs)]
  | cons t slots ih =>
      rw [List.forall_mem_cons] at hapart
      have ht := h t List.mem_cons_self
      have hs' : s.stop ≤ (t.shift order delta bytes).length := by rwa [length_shift ht]
      rw [shiftAll_cons, ih (inside_shift delta h) hs' hapart.2]
      by_cases heq : t = s
      · subst heq
        rw [shift, read_write ht, List.count_cons_self, Nat.mod_add_mod, Nat.add_mul,
          Nat.one_mul, Nat.add_assoc, Nat.add_comm delta]
      · have hdisjoint := hapart.1.resolve_left (Ne.symm heq)
        rw [List.count_cons_of_ne heq, shift, read_write_of_disjoint ht _ hdisjoint]

/-- Shifting slots that are apart changes nothing exactly when what each of them moves in all
is a multiple of its width. -/
theorem shiftAll_eq_self_iff_count (h : ∀ s ∈ slots, s.stop ≤ bytes.length)
    (hapart : slots.Pairwise Apart) (delta : ℕ) :
    shiftAll order delta bytes slots = bytes ↔
      ∀ s ∈ slots, 256 ^ s.width ∣ slots.count s * delta := by
  have hread : ∀ s ∈ slots, s.read order (shiftAll order delta bytes slots) =
      (s.read order bytes + slots.count s * delta) % 256 ^ s.width := fun s hs =>
    read_shiftAll_of_apart h (h s hs)
      (fun _ ht => hapart.forall_of_forall (fun t _ => Apart.refl t) hs ht) delta
  constructor
  · intro hself s hs
    have hlt : s.read order bytes < 256 ^ s.width := read_lt (h s hs)
    have hmod : s.read order bytes + 0 ≡
        s.read order bytes + slots.count s * delta [MOD 256 ^ s.width] := by
      rw [Nat.ModEq, Nat.add_zero, Nat.mod_eq_of_lt hlt, ← hread s hs, hself]
    exact (Nat.modEq_zero_iff_dvd).1 (Nat.ModEq.add_left_cancel' _ hmod).symm
  · intro hdvd
    apply List.ext_getElem?
    intro a
    by_cases ha : ∃ s ∈ slots, s.Holds a
    · obtain ⟨s, hs, ha⟩ := ha
      obtain ⟨k, hk⟩ := hdvd s hs
      have hsame : s.read order (shiftAll order delta bytes slots) = s.read order bytes := by
        rw [hread s hs, hk, Nat.add_mul_mod_self_left, Nat.mod_eq_of_lt (read_lt (h s hs))]
      exact getElem?_of_read_eq (h s hs) (length_shiftAll delta h) hsame ha
    · push Not at ha
      exact getElem?_shiftAll_of_not_holds delta h ha

end All

end Slot

end Foundation
