import Mathlib.Order.Bounds.Basic
import Mathlib.Data.Nat.ModEq
import Mathlib.Tactic.Common
import Elfex.Foundation.Outcome

/-!
# Arithmetic on 64-bit words

The checked, saturating and faulting operations on `UInt64`, each with the value
it has in the naturals. `nextCongruent c t m` is the least natural at or after
`c` in the residue class of `t`; rounding up to an alignment is the class of
zero.
-/

namespace Foundation

/-- The largest 64-bit word. -/
def wordMax : UInt64 := 0xffffffffffffffff

@[simp] theorem toNat_wordMax : wordMax.toNat = 2 ^ 64 - 1 := rfl

/-- The sum, when it is representable. -/
def checkedAdd (a b : UInt64) : Option UInt64 :=
  if a.toNat + b.toNat < 2 ^ 64 then some (a + b) else none

/-- The difference, when it is representable. -/
def checkedSub (a b : UInt64) : Option UInt64 :=
  if b ≤ a then some (a - b) else none

/-- The sum, or the largest word. -/
def saturatingAdd (a b : UInt64) : UInt64 :=
  if a.toNat + b.toNat < 2 ^ 64 then a + b else wordMax

/-- The product, or the largest word. -/
def saturatingMul (a b : UInt64) : UInt64 :=
  if a.toNat * b.toNat < 2 ^ 64 then a * b else wordMax

/-- The difference, or zero. -/
def saturatingSub (a b : UInt64) : UInt64 := if b ≤ a then a - b else 0

/-- The word of a natural, or the largest word. -/
def clampWord (n : ℕ) : UInt64 := if n < 2 ^ 64 then UInt64.ofNat n else wordMax

theorem toNat_add_of_lt {a b : UInt64} (h : a.toNat + b.toNat < 2 ^ 64) :
    (a + b).toNat = a.toNat + b.toNat := by
  rw [UInt64.toNat_add, Nat.mod_eq_of_lt h]

theorem toNat_mul_of_lt {a b : UInt64} (h : a.toNat * b.toNat < 2 ^ 64) :
    (a * b).toNat = a.toNat * b.toNat := by
  rw [UInt64.toNat_mul, Nat.mod_eq_of_lt h]

theorem toNat_ofNat_of_lt {n : ℕ} (h : n < 2 ^ 64) : (UInt64.ofNat n).toNat = n := by
  rw [UInt64.toNat_ofNat', Nat.mod_eq_of_lt h]

theorem ne_zero_of_lt_toNat {a : UInt64} {n : ℕ} (h : n < a.toNat) : a ≠ 0 := by
  rintro rfl
  exact absurd h (Nat.not_lt_zero n)

theorem checkedAdd_eq_some {a b c : UInt64} :
    checkedAdd a b = some c ↔ a.toNat + b.toNat = c.toNat := by
  have hc := c.toNat_lt
  rw [checkedAdd]
  split <;> rename_i h
  · rw [Option.some_inj, ← UInt64.toNat_inj, toNat_add_of_lt h]
  · constructor
    · rintro ⟨⟩
    · intro heq
      exact absurd (heq ▸ hc) h

theorem checkedAdd_eq_none {a b : UInt64} :
    checkedAdd a b = none ↔ 2 ^ 64 ≤ a.toNat + b.toNat := by
  rw [checkedAdd]
  split <;> simp <;> omega

theorem checkedSub_eq_some {a b c : UInt64} :
    checkedSub a b = some c ↔ b.toNat + c.toNat = a.toNat := by
  rw [checkedSub]
  split <;> rename_i h
  · rw [Option.some_inj, ← UInt64.toNat_inj, UInt64.toNat_sub_of_le a b h]
    have := UInt64.le_iff_toNat_le.1 h
    omega
  · rw [UInt64.le_iff_toNat_le] at h
    constructor
    · rintro ⟨⟩
    · omega

theorem toNat_saturatingAdd (a b : UInt64) :
    (saturatingAdd a b).toNat = min (a.toNat + b.toNat) (2 ^ 64 - 1) := by
  rw [saturatingAdd]
  split <;> rename_i h
  · rw [toNat_add_of_lt h]
    omega
  · rw [toNat_wordMax]
    omega

theorem toNat_saturatingMul (a b : UInt64) :
    (saturatingMul a b).toNat = min (a.toNat * b.toNat) (2 ^ 64 - 1) := by
  rw [saturatingMul]
  split <;> rename_i h
  · rw [toNat_mul_of_lt h]
    omega
  · rw [toNat_wordMax]
    omega

theorem toNat_saturatingSub (a b : UInt64) :
    (saturatingSub a b).toNat = a.toNat - b.toNat := by
  rw [saturatingSub]
  split <;> rename_i h
  · exact UInt64.toNat_sub_of_le a b h
  · rw [UInt64.le_iff_toNat_le] at h
    simp
    omega

@[simp] theorem toNat_max (a b : UInt64) : (max a b).toNat = max a.toNat b.toNat := by
  rw [UInt64.max_def]
  split <;> rename_i h <;> rw [UInt64.le_iff_toNat_le] at h <;> omega

@[simp] theorem toNat_min (a b : UInt64) : (min a b).toNat = min a.toNat b.toNat := by
  rw [UInt64.min_def]
  split <;> rename_i h <;> rw [UInt64.le_iff_toNat_le] at h <;> omega

namespace Outcome

universe u

variable {ε : Type u}

/-- The sum; an overflow faults. -/
def add (a b : UInt64) : Except (Halt ε) UInt64 :=
  if a.toNat + b.toNat < 2 ^ 64 then .ok (a + b) else .error .fault

/-- The product; an overflow faults. -/
def mul (a b : UInt64) : Except (Halt ε) UInt64 :=
  if a.toNat * b.toNat < 2 ^ 64 then .ok (a * b) else .error .fault

theorem add_of_lt {a b : UInt64} (h : a.toNat + b.toNat < 2 ^ 64) :
    (add a b : Except (Halt ε) UInt64) = .ok (a + b) := if_pos h

theorem add_of_not_lt {a b : UInt64} (h : ¬a.toNat + b.toNat < 2 ^ 64) :
    (add a b : Except (Halt ε) UInt64) = .error .fault := if_neg h

theorem mul_of_lt {a b : UInt64} (h : a.toNat * b.toNat < 2 ^ 64) :
    (mul a b : Except (Halt ε) UInt64) = .ok (a * b) := if_pos h

theorem eq_of_add_eq_ok {a b c : UInt64}
    (h : (add a b : Except (Halt ε) UInt64) = .ok c) : c = a + b := by
  rw [add] at h
  split at h
  · exact (Except.ok.inj h).symm
  · cases h

theorem eq_of_mul_eq_ok {a b c : UInt64}
    (h : (mul a b : Except (Halt ε) UInt64) = .ok c) : c = a * b := by
  rw [mul] at h
  split at h
  · exact (Except.ok.inj h).symm
  · cases h

end Outcome

/-! ## Residue classes -/

/-- The least natural at or after `c` congruent to `t` modulo `m`. -/
def nextCongruent (c t m : ℕ) : ℕ :=
  if c % m ≤ t % m then c + (t % m - c % m) else c + (m - (c % m - t % m))

theorem le_nextCongruent (c t m : ℕ) : c ≤ nextCongruent c t m := by
  rw [nextCongruent]
  split <;> omega

theorem nextCongruent_modEq (c t : ℕ) {m : ℕ} (hm : 0 < m) :
    nextCongruent c t m ≡ t [MOD m] := by
  have hc := Nat.mod_add_div c m
  have ht := Nat.mod_lt t hm
  have hcm := Nat.mod_lt c hm
  unfold Nat.ModEq nextCongruent
  split
  · rw [show c + (t % m - c % m) = t % m + m * (c / m) by omega,
      Nat.add_mul_mod_self_left, Nat.mod_mod]
  · rw [show c + (m - (c % m - t % m)) = t % m + m + m * (c / m) by omega,
      Nat.add_mul_mod_self_left, Nat.add_mod_right, Nat.mod_mod]

theorem nextCongruent_lt (c t : ℕ) {m : ℕ} (hm : 0 < m) :
    nextCongruent c t m < c + m := by
  have ht := Nat.mod_lt t hm
  rw [nextCongruent]
  split <;> omega

/-- The least element of the residue class of `t` at or after `c`. -/
theorem isLeast_nextCongruent (c t : ℕ) {m : ℕ} (hm : 0 < m) :
    IsLeast {n | c ≤ n ∧ n ≡ t [MOD m]} (nextCongruent c t m) := by
  refine ⟨⟨le_nextCongruent c t m, nextCongruent_modEq c t hm⟩, ?_⟩
  rintro n ⟨hcn, hn⟩
  by_contra hlt
  have hlt : n < nextCongruent c t m := Nat.lt_of_not_le hlt
  -- two members of one class closer than the modulus are equal
  have hsame : n ≡ nextCongruent c t m [MOD m] :=
    hn.trans (nextCongruent_modEq c t hm).symm
  have hdvd : m ∣ nextCongruent c t m - n := (Nat.modEq_iff_dvd' hlt.le).1 hsame
  have hclose := nextCongruent_lt c t hm
  exact absurd (Nat.le_of_dvd (by omega) hdvd) (by omega)

/-- A bound below which only the cut numbers matter can be cut off first. -/
theorem min_nextCongruent_min (c t m bound : ℕ) :
    min (nextCongruent (min c bound) t m) bound = min (nextCongruent c t m) bound := by
  rcases Nat.le_total c bound with h | h
  · rw [Nat.min_eq_left h]
  · have hcut := le_nextCongruent bound t m
    have hfull := le_nextCongruent c t m
    rw [Nat.min_eq_right h]
    omega

/-- Rounding up gives the least multiple at or above a number. -/
theorem isLeast_multiple (c : ℕ) {m : ℕ} (hm : 0 < m) :
    IsLeast {n | m ∣ n ∧ c ≤ n} (nextCongruent c 0 m) := by
  have hset : {n | m ∣ n ∧ c ≤ n} = {n | c ≤ n ∧ n ≡ 0 [MOD m]} := by
    ext n
    exact and_comm.trans (and_congr_right fun _ => Nat.modEq_zero_iff_dvd.symm)
  rw [hset]
  exact isLeast_nextCongruent c 0 hm

/-- Rounding down gives the greatest multiple at or below a number. -/
theorem isGreatest_multiple (c m : ℕ) : IsGreatest {n | m ∣ n ∧ n ≤ c} (c - c % m) := by
  refine ⟨⟨Nat.dvd_sub_mod c, Nat.sub_le c _⟩, ?_⟩
  rintro n ⟨⟨k, rfl⟩, hle⟩
  calc m * k ≤ m * (c / m) := by
        rcases Nat.eq_zero_or_pos m with rfl | hm
        · rw [Nat.zero_mul, Nat.zero_mul]
        · exact Nat.mul_le_mul_left m ((Nat.le_div_iff_mul_le hm).2 (by rwa [Nat.mul_comm]))
    _ = c - c % m := by
        have hsplit := Nat.mod_add_div c m
        omega

/-- The least multiple at or above every number of a set. -/
theorem isLeast_multiple_upperBounds {s : Set ℕ} {greatest m : ℕ}
    (h : IsGreatest (insert 0 s) greatest) (hm : 0 < m) :
    IsLeast {n | m ∣ n ∧ n ∈ upperBounds s} (nextCongruent greatest 0 m) := by
  have hset : {n | m ∣ n ∧ n ∈ upperBounds s} = {n | m ∣ n ∧ greatest ≤ n} := by
    ext n
    refine and_congr_right fun _ => ?_
    rw [isLUB_le_iff h.isLUB, upperBounds_insert, Set.mem_inter_iff,
      and_iff_right (Set.mem_Ici.2 (Nat.zero_le n))]
  rw [hset]
  exact isLeast_multiple greatest hm

/-- The greatest multiple at or below every number of a set. -/
theorem isGreatest_multiple_lowerBounds {s : Set ℕ} {least : ℕ} (h : IsLeast s least) (m : ℕ) :
    IsGreatest {n | m ∣ n ∧ n ∈ lowerBounds s} (least - least % m) := by
  have hset : {n | m ∣ n ∧ n ∈ lowerBounds s} = {n | m ∣ n ∧ n ≤ least} := by
    ext n
    exact and_congr_right fun _ => (le_isGLB_iff h.isGLB).symm
  rw [hset]
  exact isGreatest_multiple least m

end Foundation
