import Mathlib.Data.Nat.Digits.Lemmas
import Mathlib.Tactic.Ring

/-!
# Fixed-width byte encodings of naturals

`toLittle w n` is the `w` least significant base-256 digits of `n`, least
significant first, and `ofLittle` reads digits back. The two are inverse on
strings of one length and on numbers below `256 ^ w`; the big-endian forms are
the reversed strings, so every law is proved once.
-/

namespace Foundation

/-- The `w` least significant bytes of `n`, least significant first. -/
def toLittle : ℕ → ℕ → List UInt8
  | 0, _ => []
  | w + 1, n => UInt8.ofNat n :: toLittle w (n / 256)

/-- The natural whose base-256 digits, least significant first, are `bs`. -/
def ofLittle (bs : List UInt8) : ℕ := Nat.ofDigits 256 (bs.map UInt8.toNat)

@[simp] theorem ofLittle_nil : ofLittle [] = 0 := rfl

@[simp] theorem ofLittle_cons (b : UInt8) (bs : List UInt8) :
    ofLittle (b :: bs) = b.toNat + 256 * ofLittle bs := by
  simp [ofLittle, Nat.ofDigits_cons]

@[simp] theorem length_toLittle (w n : ℕ) : (toLittle w n).length = w := by
  induction w generalizing n with
  | zero => rfl
  | succ w ih => simp [toLittle, ih]

/-- Reading back the low digits of a number gives its residue. -/
theorem ofLittle_toLittle (w n : ℕ) : ofLittle (toLittle w n) = n % 256 ^ w := by
  induction w generalizing n with
  | zero => simp [toLittle, Nat.mod_one]
  | succ w ih =>
      rw [toLittle, ofLittle_cons, ih, pow_succ', Nat.mod_mul]
      simp

theorem ofLittle_toLittle_of_lt {w n : ℕ} (h : n < 256 ^ w) :
    ofLittle (toLittle w n) = n := by
  rw [ofLittle_toLittle, Nat.mod_eq_of_lt h]

theorem ofLittle_lt (bs : List UInt8) : ofLittle bs < 256 ^ bs.length := by
  induction bs with
  | nil => simp
  | cons b bs ih =>
      have hb : b.toNat < 256 := b.toNat_lt
      rw [ofLittle_cons, List.length_cons, pow_succ']
      omega

/-- Writing back the number read from a string gives the string. -/
theorem toLittle_ofLittle (bs : List UInt8) : toLittle bs.length (ofLittle bs) = bs := by
  induction bs with
  | nil => rfl
  | cons b bs ih =>
      have hb : b.toNat < 256 := b.toNat_lt
      rw [List.length_cons, toLittle, ofLittle_cons]
      congr 1
      · simp
      · rw [Nat.add_mul_div_left _ _ (by decide), Nat.div_eq_of_lt hb, Nat.zero_add, ih]

/-- The less significant digits are the residue. -/
theorem ofLittle_take (bs : List UInt8) (n : ℕ) :
    ofLittle (bs.take n) = ofLittle bs % 256 ^ n := by
  induction n generalizing bs with
  | zero => simp [Nat.mod_one]
  | succ n ih =>
      cases bs with
      | nil => simp
      | cons b bs =>
          have hb : b.toNat < 256 := b.toNat_lt
          rw [List.take_succ_cons, ofLittle_cons, ofLittle_cons, ih, pow_succ', Nat.mod_mul,
            Nat.add_mul_mod_self_left, Nat.mod_eq_of_lt hb,
            Nat.add_mul_div_left _ _ (by decide), Nat.div_eq_of_lt hb, Nat.zero_add]

/-- Only the residue of a number is written. -/
theorem toLittle_mod (w n : ℕ) : toLittle w (n % 256 ^ w) = toLittle w n := by
  have hself := toLittle_ofLittle (toLittle w n)
  rwa [length_toLittle, ofLittle_toLittle] at hself

theorem toLittle_eq_iff {w n k : ℕ} :
    toLittle w n = toLittle w k ↔ n % 256 ^ w = k % 256 ^ w := by
  constructor
  · intro h
    rw [← ofLittle_toLittle, ← ofLittle_toLittle, h]
  · intro h
    rw [← toLittle_mod w n, ← toLittle_mod w k, h]

end Foundation
