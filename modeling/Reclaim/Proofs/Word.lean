import Reclaim.Proofs.Worklist
import Reclaim.Word

/-!
When arithmetic on words has a result, and which.
-/
namespace Reclaim.Word

variable {a b c : Nat}

theorem add_eq_ok : add a b = .ok c ↔ c = a + b ∧ a + b < bound := by
  unfold add
  split
  · simp_all [eq_comm]
  · simp_all

theorem sub_eq_ok : sub a b = .ok c ↔ c = a - b ∧ b ≤ a := by
  unfold sub
  split
  · simp_all [eq_comm]
  · simp_all

theorem mul_eq_ok : mul a b = .ok c ↔ c = a * b ∧ a * b < bound := by
  unfold mul
  split
  · simp_all [eq_comm]
  · simp_all

theorem add_ok (h : a + b < bound) : add a b = .ok (a + b) := if_pos h

theorem sub_ok (h : b ≤ a) : sub a b = .ok (a - b) := if_pos h

theorem mul_ok (h : a * b < bound) : mul a b = .ok (a * b) := if_pos h

-- The next multiple is less than a unit away.
theorem nextMultiple_ok {unit : Nat} (hunit : 0 < unit) (h : nextMultiple a unit = .ok b) :
    a ≤ b ∧ b < a + unit ∧ unit ∣ b := by
  unfold nextMultiple at h
  split at h
  · rename_i hz
    cases h
    exact ⟨Nat.le_refl _, by omega, Nat.dvd_of_mod_eq_zero hz⟩
  · obtain ⟨rfl, -⟩ := add_eq_ok.mp h
    have hlt := Nat.mod_lt a hunit
    have hdiv := Nat.div_add_mod a unit
    refine ⟨by omega, by omega, ⟨a / unit + 1, ?_⟩⟩
    rw [Nat.mul_add, Nat.mul_one]
    omega

theorem nextMultiple_self {unit : Nat} (h : unit ∣ a) : nextMultiple a unit = .ok a :=
  if_pos (Nat.mod_eq_zero_of_dvd h)

theorem pos_of_isPowerOfTwo (h : isPowerOfTwo a = true) : 0 < a := by
  simp only [isPowerOfTwo, Bool.and_eq_true, bne_iff_ne] at h
  omega

theorem dvd_of_isPowerOfTwo (ha : isPowerOfTwo a = true) (hb : isPowerOfTwo b = true) (hle : a ≤ b) :
    a ∣ b := by
  have hpower : ∀ n, isPowerOfTwo n = true → ∃ k, n = 2 ^ k := fun n hn => by
    simp only [isPowerOfTwo, Bool.and_eq_true, bne_iff_ne, beq_iff_eq] at hn
    exact (Nat.and_sub_one_eq_zero_iff_isPowerOfTwo hn.1).mp hn.2
  obtain ⟨i, rfl⟩ := hpower a ha
  obtain ⟨j, rfl⟩ := hpower b hb
  exact Nat.pow_dvd_pow 2 ((Nat.pow_le_pow_iff_right (by decide)).mp hle)

section Rounding

variable {unit : Nat} (hunit : 0 < unit)
include hunit

-- Rounded up by division, a number reaches the next multiple.
theorem ceilDiv_mul (a : Nat) :
    ceilDiv a unit * unit = if a % unit = 0 then a else a + (unit - a % unit) := by
  have hlt := Nat.mod_lt a hunit
  have hdiv := Nat.div_add_mod a unit
  have hsplit : a + unit - 1 = unit * (a / unit) + (a % unit + unit - 1) := by omega
  rw [ceilDiv, hsplit, Nat.mul_add_div hunit, Nat.mul_comm]
  split
  · rename_i hzero
    have hnone : (a % unit + unit - 1) / unit = 0 := Nat.div_eq_of_lt (by omega)
    rw [hnone, Nat.add_zero]
    omega
  · rename_i hrest
    have hone : (a % unit + unit - 1) / unit = 1 := Nat.div_eq_of_lt_le (by omega) (by omega)
    rw [hone, Nat.mul_add]
    omega

theorem ceilDiv_mul_bounds (a : Nat) :
    a ≤ ceilDiv a unit * unit ∧ ceilDiv a unit * unit < a + unit := by
  have hlt := Nat.mod_lt a hunit
  rw [ceilDiv_mul hunit]
  split <;> omega

theorem nextMultiple_eq_ceilDiv (h : ceilDiv a unit * unit < bound) :
    nextMultiple a unit = .ok (ceilDiv a unit * unit) := by
  rw [ceilDiv_mul hunit] at h ⊢
  rw [nextMultiple]
  split
  · rfl
  · rename_i hrest
    rw [if_neg hrest] at h
    exact add_ok h

end Rounding

theorem alignUp_wordBytes (h : alignUp a Sizes.wordBytes = .ok b) :
    a ≤ b ∧ b % Sizes.wordBytes = 0 ∧ (a % Sizes.wordBytes = 0 → b = a) := by
  have hpower : isPowerOfTwo Sizes.wordBytes = true := by decide
  simp only [alignUp, hpower, if_true, bind_eq_ok] at h
  obtain ⟨top, htop, h⟩ := h
  obtain ⟨rfl, -⟩ := add_eq_ok.mp htop
  cases h
  simp only [Sizes.wordBytes]
  omega

end Reclaim.Word
