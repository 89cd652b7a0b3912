import Elfex.Foundation.Slot

/-!
# What shifting words adds to each byte

Adding a number to a word adds to each of its bytes the number, and what the less
significant bytes carry, modulo 256. Over a list of slots these amounts sum up, so a byte
stays exactly when its total is a multiple of 256.
-/

namespace Foundation

/-- The `i`-th byte of a word of `w` bytes has the significance `rank w i`. -/
structure ByteOrder.Ranks (order : ByteOrder) (rank : ℕ → ℕ → ℕ) : Prop where
  rank_lt : ∀ {w i : ℕ}, i < w → rank w i < w
  getElem?_order : ∀ (bytes : List UInt8) {i : ℕ}, i < bytes.length →
    (order.order bytes)[rank bytes.length i]? = bytes[i]?

theorem getElem?_toLittle {w r : ℕ} (h : r < w) (n : ℕ) :
    (toLittle w n)[r]? = some (UInt8.ofNat (n / 256 ^ r)) := by
  induction r generalizing w n with
  | zero =>
      cases w with
      | zero => exact absurd h (Nat.not_lt_zero 0)
      | succ w => rw [toLittle, List.getElem?_cons_zero, pow_zero, Nat.div_one]
  | succ r ih =>
      cases w with
      | zero => exact absurd h (Nat.not_lt_zero _)
      | succ w =>
          rw [toLittle, List.getElem?_cons_succ, ih (Nat.lt_of_succ_lt_succ h),
            Nat.div_div_eq_div_mul, pow_succ']

/-- Adding a number leaves a byte exactly when it is a multiple of 256. -/
theorem add_ofNat_eq_self_iff (b : UInt8) (n : ℕ) : b + UInt8.ofNat n = b ↔ 256 ∣ n := by
  rw [← UInt8.toNat_inj, UInt8.toNat_add, UInt8.toNat_ofNat']
  have hlt : b.toNat < 256 := b.toNat_lt
  omega

/-- Nothing reaches `n` digits in a row exactly when the number that reaches the first of
them has `n` zero digits. -/
theorem forall_dvd_carry_iff (w delta j n : ℕ) :
    (∀ i < n, 256 ∣ (w % 256 ^ (j + i) + delta) / 256 ^ (j + i)) ↔
      256 ^ n ∣ (w % 256 ^ j + delta) / 256 ^ j := by
  induction n with
  | zero => simp
  | succ n ih =>
      rw [Nat.forall_lt_succ_right, ih, pow_succ]
      -- the digits passed over leave what reaches the next one
      have hcarry : 256 ^ n ∣ (w % 256 ^ j + delta) / 256 ^ j →
          (w % 256 ^ (j + n) + delta) / 256 ^ (j + n) =
            (w % 256 ^ j + delta) / 256 ^ j / 256 ^ n := by
        rintro ⟨q, hq⟩
        have hlt : w / 256 ^ j % 256 ^ n < 256 ^ n := Nat.mod_lt _ (Nat.pow_pos (by decide))
        rw [pow_add, Nat.mod_mul, ← Nat.div_div_eq_div_mul, Nat.add_right_comm,
          Nat.add_mul_div_left _ _ (Nat.pow_pos (by decide)), hq,
          Nat.mul_add_div (Nat.pow_pos (by decide)), Nat.div_eq_of_lt hlt, Nat.add_zero,
          Nat.mul_div_cancel_left _ (Nat.pow_pos (by decide))]
      constructor
      · rintro ⟨hdvd, hnext⟩
        rw [hcarry hdvd] at hnext
        exact Nat.mul_dvd_of_dvd_div hdvd hnext
      · intro hdvd
        have hfew : 256 ^ n ∣ (w % 256 ^ j + delta) / 256 ^ j := dvd_of_mul_right_dvd hdvd
        rw [hcarry hfew]
        exact ⟨hfew, Nat.dvd_div_of_mul_dvd hdvd⟩

namespace Slot

variable (order : ByteOrder) (rank : ℕ → ℕ → ℕ) (delta : ℕ)

/-- The significance of a position in the slot. -/
def rankOf (s : Slot) (a : ℕ) : ℕ := rank s.width (a - s.start)

/-- What shifting the slot adds to a byte: its part of the number and the carry of the less
significant bytes. -/
def amountAt (bytes : List UInt8) (s : Slot) (a : ℕ) : ℕ :=
  if s.Holds a then
    (s.read order bytes % 256 ^ s.rankOf rank a + delta) / 256 ^ s.rankOf rank a
  else 0

/-- What shifting the slots, one after the other, adds to a byte. -/
def totalAt : List UInt8 → List Slot → ℕ → ℕ
  | _, [], _ => 0
  | bytes, s :: slots, a =>
      s.amountAt order rank delta bytes a + totalAt (s.shift order delta bytes) slots a

variable {order rank delta} {bytes : List UInt8}

@[simp] theorem totalAt_nil (a : ℕ) : totalAt order rank delta bytes [] a = 0 := rfl

@[simp] theorem totalAt_cons (s : Slot) (slots : List Slot) (a : ℕ) :
    totalAt order rank delta bytes (s :: slots) a =
      s.amountAt order rank delta bytes a +
        totalAt order rank delta (s.shift order delta bytes) slots a := rfl

theorem amountAt_of_holds {s : Slot} {a : ℕ} (h : s.Holds a) :
    s.amountAt order rank delta bytes a =
      (s.read order bytes % 256 ^ s.rankOf rank a + delta) / 256 ^ s.rankOf rank a := if_pos h

theorem amountAt_of_not_holds {s : Slot} {a : ℕ} (h : ¬s.Holds a) :
    s.amountAt order rank delta bytes a = 0 := if_neg h

/-- Nothing is added to a byte outside every slot. -/
theorem totalAt_of_not_holds {slots : List Slot} {a : ℕ} (h : ∀ s ∈ slots, ¬s.Holds a) :
    totalAt order rank delta bytes slots a = 0 := by
  induction slots generalizing bytes with
  | nil => rfl
  | cons s slots ih =>
      rw [totalAt_cons, amountAt_of_not_holds (h s List.mem_cons_self),
        ih fun t ht => h t (List.mem_cons_of_mem s ht)]

/-- In a pairwise disjoint list the total of a byte is the amount of its slot. -/
theorem totalAt_of_mem {slots : List Slot} (h : ∀ s ∈ slots, s.stop ≤ bytes.length)
    (hdisjoint : slots.Pairwise Disjoint) {s : Slot} (hs : s ∈ slots) {a : ℕ}
    (ha : s.Holds a) :
    totalAt order rank delta bytes slots a = s.amountAt order rank delta bytes a := by
  induction slots generalizing bytes with
  | nil => exact absurd hs List.not_mem_nil
  | cons t slots ih =>
      obtain ⟨htail, hrest⟩ := List.pairwise_cons.1 hdisjoint
      rw [totalAt_cons]
      rcases List.mem_cons.1 hs with rfl | hs
      · rw [totalAt_of_not_holds fun u hu => (htail u hu).symm.not_holds ha, Nat.add_zero]
      · have hts := htail s hs
        rw [amountAt_of_not_holds (hts.not_holds ha), ih (inside_shift delta h) hrest hs,
          Nat.zero_add, amountAt_of_holds ha, amountAt_of_holds ha, shift,
          read_write_of_disjoint (h t List.mem_cons_self) _ hts.symm]

section Ranked

variable (hranks : order.Ranks rank)

include hranks

/-- The bytes of a written word are the digits of the number. -/
theorem getElem?_write_of_holds {s : Slot} (hs : s.stop ≤ bytes.length) (n : ℕ) {a : ℕ}
    (ha : s.Holds a) :
    (s.write order bytes n)[a]? = some (UInt8.ofNat (n / 256 ^ s.rankOf rank a)) := by
  have hi : a - s.start < s.width := by
    have hstop : a < s.start + s.width := ha.2
    have hstart := ha.1
    omega
  have hlength : (order.order (toLittle s.width n)).length = s.width :=
    length_order_toLittle s.width n
  have hdigit := hranks.getElem?_order (order.order (toLittle s.width n))
    (hi.trans_eq hlength.symm)
  rw [hlength, order.order_order, getElem?_toLittle (hranks.rank_lt hi)] at hdigit
  rw [write, getElem?_splice (stop_write_le hs n), hlength]
  exact (if_pos ha).trans hdigit.symm

/-- Shifting a slot adds its amount to every byte. -/
theorem getElem?_shift {s : Slot} (hs : s.stop ≤ bytes.length) (a : ℕ) :
    (s.shift order delta bytes)[a]? =
      bytes[a]?.map (· + UInt8.ofNat (s.amountAt order rank delta bytes a)) := by
  by_cases ha : s.Holds a
  · have hread := getElem?_write_of_holds hranks hs (s.read order bytes) ha
    rw [write_read hs] at hread
    rw [shift, getElem?_write_of_holds hranks hs _ ha, hread, Option.map_some,
      amountAt_of_holds ha, ← UInt8.ofNat_add]
    congr 2
    -- the digits from the byte's on are the word's own and what the lower ones carry
    have hsplit := Nat.mod_add_div (s.read order bytes) (256 ^ s.rankOf rank a)
    conv_lhs => rw [← hsplit]
    rw [Nat.add_right_comm, Nat.add_mul_div_left _ _ (Nat.pow_pos (by decide)), Nat.add_comm]
  · rw [amountAt_of_not_holds ha, shift, getElem?_write_of_not_holds hs _ ha]
    simp

/-- Shifting slots adds their total to every byte. -/
theorem getElem?_shiftAll {slots : List Slot} (h : ∀ s ∈ slots, s.stop ≤ bytes.length) (a : ℕ) :
    (shiftAll order delta bytes slots)[a]? =
      bytes[a]?.map (· + UInt8.ofNat (totalAt order rank delta bytes slots a)) := by
  induction slots generalizing bytes with
  | nil => simp
  | cons s slots ih =>
      rw [shiftAll_cons, ih (inside_shift delta h),
        getElem?_shift hranks (h s List.mem_cons_self), Option.map_map, totalAt_cons,
        UInt8.ofNat_add]
      congr 1
      funext b
      exact UInt8.add_assoc _ _ _

/-- A byte stays exactly when its total is a multiple of 256. -/
theorem getElem?_shiftAll_eq_iff {slots : List Slot} (h : ∀ s ∈ slots, s.stop ≤ bytes.length)
    {a : ℕ} (ha : a < bytes.length) :
    (shiftAll order delta bytes slots)[a]? = bytes[a]? ↔
      256 ∣ totalAt order rank delta bytes slots a := by
  rw [getElem?_shiftAll hranks h, List.getElem?_eq_getElem ha, Option.map_some, Option.some_inj,
    add_ofNat_eq_self_iff]

/-- What shifting slots gives is told byte by byte. -/
theorem shiftAll_eq_iff {slots : List Slot} (h : ∀ s ∈ slots, s.stop ≤ bytes.length)
    {bytes' : List UInt8} :
    shiftAll order delta bytes slots = bytes' ↔ bytes'.length = bytes.length ∧
      ∀ a < bytes.length, bytes'[a]? =
        bytes[a]?.map (· + UInt8.ofNat (totalAt order rank delta bytes slots a)) := by
  constructor
  · rintro rfl
    exact ⟨length_shiftAll delta h, fun a _ => getElem?_shiftAll hranks h a⟩
  · rintro ⟨hlength, hbytes⟩
    apply List.ext_getElem?
    intro a
    by_cases ha : a < bytes.length
    · rw [getElem?_shiftAll hranks h, hbytes a ha]
    · rw [List.getElem?_eq_none (by rw [length_shiftAll delta h]; omega),
        List.getElem?_eq_none (by omega)]

/-- Shifting slots leaves the bytes exactly when every total is a multiple of 256. -/
theorem shiftAll_eq_self_iff_total {slots : List Slot} (h : ∀ s ∈ slots, s.stop ≤ bytes.length) :
    shiftAll order delta bytes slots = bytes ↔
      ∀ a < bytes.length, 256 ∣ totalAt order rank delta bytes slots a := by
  constructor
  · intro hself a ha
    rw [← getElem?_shiftAll_eq_iff hranks h ha, hself]
  · intro htotal
    apply List.ext_getElem?
    intro a
    by_cases ha : a < bytes.length
    · exact (getElem?_shiftAll_eq_iff hranks h ha).2 (htotal a ha)
    · rw [List.getElem?_eq_none (by rw [length_shiftAll delta h]; omega),
        List.getElem?_eq_none (by omega)]

end Ranked

end Slot

end Foundation
