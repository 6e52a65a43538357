import Mathlib.Algebra.Group.Nat.Defs
import Reclaim.Status

/-!
The fields of a status word are independent: what replaces one of them leaves the others alone.
-/
namespace Reclaim.Status

@[simp] theorem color_setColor (s : Nat) (c : Color) : color (setColor s c) = c := by
  have hc := c.code_lt
  have hq : setColor s c / 8 % 8 = c.code := by
    simp only [setColor]
    omega
  simp only [color, hq, Color.ofCode_code]

@[simp] theorem isBuffered_setColor (s : Nat) (c : Color) :
    isBuffered (setColor s c) = isBuffered s := by
  have hc := c.code_lt
  have hq : setColor s c / 64 = s / 64 := by
    simp only [setColor]
    omega
  simp only [isBuffered, hq]

@[simp] theorem count_setColor (s : Nat) (c : Color) : count (setColor s c) = count s := by
  have hc := c.code_lt
  simp only [count, countUnit, setColor]
  omega

theorem setColor_lt {s : Nat} (c : Color) (h : s < Word.bound) : setColor s c < Word.bound := by
  have hc := c.code_lt
  simp only [setColor, Word.bound] at h ⊢
  omega

theorem color_eq_of_div {s t : Nat} (h : s / 8 % 8 = t / 8 % 8) : color s = color t := by
  simp only [color, h]

@[simp] theorem color_setBuffered (s : Nat) : color (setBuffered s) = color s := by
  simp only [setBuffered]
  split
  · rfl
  · exact color_eq_of_div (by omega)

@[simp] theorem count_setBuffered (s : Nat) : count (setBuffered s) = count s := by
  simp only [setBuffered]
  split
  · rfl
  · rename_i h
    simp only [isBuffered, beq_iff_eq] at h
    simp only [count, countUnit]
    omega

@[simp] theorem isBuffered_setBuffered (s : Nat) : isBuffered (setBuffered s) = true := by
  simp only [setBuffered]
  split
  · assumption
  · rename_i h
    simp only [isBuffered, beq_iff_eq] at h ⊢
    omega

theorem setBuffered_lt {s : Nat} (h : s < Word.bound) : setBuffered s < Word.bound := by
  simp only [setBuffered]
  split
  · exact h
  · rename_i hb
    simp only [isBuffered, beq_iff_eq] at hb
    simp only [Word.bound] at h ⊢
    omega

@[simp] theorem color_clearBuffered (s : Nat) : color (clearBuffered s) = color s := by
  simp only [clearBuffered]
  split
  · rename_i h
    simp only [isBuffered, beq_iff_eq] at h
    exact color_eq_of_div (by omega)
  · rfl

@[simp] theorem count_clearBuffered (s : Nat) : count (clearBuffered s) = count s := by
  simp only [clearBuffered]
  split
  · rename_i h
    simp only [isBuffered, beq_iff_eq] at h
    simp only [count, countUnit]
    omega
  · rfl

@[simp] theorem isBuffered_clearBuffered (s : Nat) : isBuffered (clearBuffered s) = false := by
  simp only [clearBuffered]
  split
  · rename_i h
    simp only [isBuffered, beq_iff_eq] at h
    simp only [isBuffered, beq_eq_false_iff_ne]
    omega
  · rename_i h
    simpa using h

theorem clearBuffered_le (s : Nat) : clearBuffered s ≤ s := by
  simp only [clearBuffered]
  split <;> omega

-- An increment does not wrap while the count is below its largest value.
theorem increment_eq {s : Nat} (h : s + countUnit < Word.bound) : increment s = s + countUnit := by
  simp only [increment, Word.wrapAdd, Nat.mod_eq_of_lt h]

-- Even an increment that wraps leaves the colour alone.
theorem color_increment (s : Nat) : color (increment s) = color s := by
  have hbound : Word.bound = 2 ^ 64 := by decide
  apply color_eq_of_div
  simp only [increment, Word.wrapAdd, countUnit, hbound]
  omega

theorem lt_bound_iff (s : Nat) : s < Word.bound ↔ count s < 2 ^ 56 := by
  simp only [count, countUnit, Word.bound]
  omega

section Increment

variable {s : Nat} (h : count s + 1 < 2 ^ 56)
include h

theorem add_countUnit_lt : s + countUnit < Word.bound := by
  simp only [count, countUnit, Word.bound] at h ⊢
  omega

theorem count_increment : count (increment s) = count s + 1 := by
  rw [increment_eq (add_countUnit_lt h)]
  simp only [count, countUnit]
  omega

theorem isBuffered_increment : isBuffered (increment s) = isBuffered s := by
  rw [increment_eq (add_countUnit_lt h)]
  have hq : (s + countUnit) / 64 % 2 = s / 64 % 2 := by simp only [countUnit]; omega
  simp only [isBuffered, hq]

theorem increment_lt : increment s < Word.bound := by
  rw [increment_eq (add_countUnit_lt h)]
  exact add_countUnit_lt h

end Increment

theorem decrement?_eq_none_iff (s : Nat) : decrement? s = none ↔ count s = 0 := by
  simp only [decrement?]
  split <;> simp_all

-- What a decrement of a positive count leaves.
theorem decrement?_of_pos {s : Nat} (h : 0 < count s) :
    ∃ t, decrement? s = some t ∧ count t + 1 = count s ∧ color t = color s ∧
      isBuffered t = isBuffered s ∧ t ≤ s := by
  have hs : countUnit ≤ s := by
    simp only [count, countUnit] at h ⊢
    omega
  refine ⟨s - countUnit, by simp [decrement?, Nat.ne_of_gt h], ?_, ?_, ?_, Nat.sub_le _ _⟩
  · simp only [count, countUnit] at h ⊢
    omega
  · exact color_eq_of_div (by simp only [countUnit] at hs ⊢; omega)
  · have hq : (s - countUnit) / 64 % 2 = s / 64 % 2 := by simp only [countUnit] at hs ⊢; omega
    simp only [isBuffered, hq]

theorem isLive_iff (s : Nat) : isLive s = true ↔ 0 < count s := by simp [isLive]

theorem isClaimed_iff (s : Nat) : isClaimed s = true ↔ s % 4 = 1 := beq_iff_eq

-- A status word that holds no forwarding bits can be claimed.
theorem claim?_ok {s : Nat} (h : s % 4 = 0) : claim? s = some (s + 1) ∧ isClaimed (s + 1) = true := by
  refine ⟨if_pos h, ?_⟩
  rw [isClaimed_iff]
  omega

theorem forwardedTo_mod (target : Nat) : forwardedTo target % 4 = 3 := by
  rw [forwardedTo]
  omega

-- What leads to a copy cannot be claimed, and the copy is found.
theorem forwarding_published {target : Nat} (h : target % 4 = 0) (hpos : 0 < target) :
    claim? (forwardedTo target) = none ∧ forwarding (forwardedTo target) = .forwarded target := by
  have hmod := forwardedTo_mod target
  have hdiv : forwardedTo target / 4 * 4 = target := by
    rw [forwardedTo]
    omega
  have hzero : ¬forwardedTo target / 4 = 0 := by omega
  constructor
  · rw [claim?, if_neg (by omega)]
  · rw [forwarding, if_neg (by omega), if_pos hmod, if_neg hzero, hdiv]

-- A new object shows what its status word was made of.
theorem initial_fields (mark : Bool) (c : Color) {n : Nat} (hn : n < 2 ^ 56) :
    color (initial mark c n) = c ∧ isBuffered (initial mark c n) = false ∧
      count (initial mark c n) = n ∧ initial mark c n < Word.bound := by
  have hmod : countUnit * n % Word.bound = 256 * n := by
    rw [countUnit, Nat.mod_eq_of_lt]
    simp only [Word.bound]
    omega
  have hcode := c.code_lt
  obtain ⟨b, hb, hs⟩ : ∃ b, b ≤ 4 ∧ initial mark c n = b + 8 * c.code + 256 * n := by
    refine ⟨if mark then 4 else 0, ?_, by rw [initial, hmod]⟩
    split <;> omega
  rw [hs]
  refine ⟨?_, ?_, ?_, ?_⟩
  · rw [color, show (b + 8 * c.code + 256 * n) / 8 % 8 = c.code by omega, Color.ofCode_code]
  · rw [isBuffered, beq_eq_false_iff_ne]
    omega
  · rw [count, countUnit]
    omega
  · rw [Word.bound]
    omega

end Reclaim.Status
