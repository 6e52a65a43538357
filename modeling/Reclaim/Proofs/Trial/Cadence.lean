import Mathlib.Algebra.Group.Nat.Defs
import Mathlib.Data.Nat.Basic
import Mathlib.Logic.ExistsUnique
import Mathlib.Order.Bounds.Basic
import Reclaim.Trial.Phase

/-!
How often the search for cycles acts. The headroom, in units of the threshold, decides on a slack `s`:
the search acts on one of any `2 ^ s` collections in a row, and on none once the slack is too large. Less
headroom and larger thresholds never take a collection away.
-/
namespace Reclaim.Trial

variable {available threshold count : Nat}

theorem log2Ceil_le_iff {n r : Nat} : log2Ceil n ≤ r ↔ n ≤ 2 ^ r := by
  unfold log2Ceil
  split
  · rename_i hn
    exact iff_of_true (Nat.zero_le r) (hn.trans Nat.one_le_two_pow)
  · rename_i hn
    have hpred : n - 1 ≠ 0 := by omega
    rw [Nat.succ_le_iff, Nat.log2_lt hpred]
    omega

theorem isLeast_log2Ceil (n : Nat) : IsLeast {r | n ≤ 2 ^ r} (log2Ceil n) :=
  ⟨log2Ceil_le_iff.mp (Nat.le_refl _), fun _ hr => log2Ceil_le_iff.mpr hr⟩

theorem log2Ceil_mono {m n : Nat} (h : m ≤ n) : log2Ceil m ≤ log2Ceil n :=
  log2Ceil_le_iff.mpr (h.trans (isLeast_log2Ceil n).1)

-- How often the threshold fits into the headroom, as a power of two.
def slack (available threshold : Nat) : Nat := log2Ceil (available / threshold)

theorem slack_mono {fewer larger : Nat} (hfewer : fewer ≤ available) (hlarger : threshold ≤ larger)
    (hpos : threshold ≠ 0) : slack fewer larger ≤ slack available threshold :=
  log2Ceil_mono (Nat.div_le_div hfewer hlarger hpos)

section Windows

variable {n : Nat} (hn : 0 < n)
include hn

theorem mod_eq_pred_iff (k : Nat) : k % n = n - 1 ↔ n ∣ k + 1 := by
  have hlt := Nat.mod_lt k hn
  have hmod : n ∣ k + 1 ↔ n ∣ k % n + 1 := by
    conv_lhs => rw [← Nat.div_add_mod k n, Nat.add_assoc]
    exact Nat.dvd_add_right (Nat.dvd_mul_right n _)
  constructor
  · intro h
    have hsucc : n = k % n + 1 := by omega
    exact hmod.mpr (hsucc ▸ Nat.dvd_refl n)
  · intro h
    have hle := Nat.le_of_dvd (Nat.succ_pos _) (hmod.mp h)
    omega

-- Of any `n` numbers in a row one stands before a multiple of `n`.
theorem existsUnique_dvd_succ (first : Nat) : ∃! k, k ∈ Set.Ico first (first + n) ∧ n ∣ k + 1 := by
  have hdiv := Nat.div_add_mod first n
  have hlt := Nat.mod_lt first hn
  refine ⟨first + (n - 1 - first % n), ⟨⟨Nat.le_add_right _ _, by omega⟩, first / n + 1, ?_⟩, ?_⟩
  · rw [Nat.mul_add]
    omega
  · rintro k ⟨⟨hge, hle⟩, q, hq⟩
    -- the multiples between `first` and `first + n` are one
    have hone : q = first / n + 1 := by
      apply Nat.le_antisymm
      · by_contra hmore
        have := Nat.mul_le_mul_left n (show first / n + 2 ≤ q by omega)
        rw [Nat.mul_add] at this
        omega
      · by_contra hless
        have := Nat.mul_le_mul_left n (show q ≤ first / n by omega)
        omega
    rw [hone, Nat.mul_add] at hq
    omega

end Windows

theorem shouldAct_of_zero (h : available = 0 ∨ threshold = 0) (count : Nat) :
    shouldAct available threshold count = true := if_pos h

-- Without headroom the slack is zero, so that one rule says when a search acts.
theorem shouldAct_iff (hpos : threshold ≠ 0) : shouldAct available threshold count = true ↔
    slack available threshold ≤ maxSlack ∧ 2 ^ slack available threshold ∣ count + 1 := by
  by_cases hzero : available = 0
  · subst hzero
    have hslack : slack 0 threshold = 0 := by simp [slack, log2Ceil]
    simp [shouldAct, hslack]
  · have hneither : ¬(available = 0 ∨ threshold = 0) := not_or.mpr ⟨hzero, hpos⟩
    simp only [shouldAct, hneither, if_false, Bool.and_eq_true, decide_eq_true_eq, beq_iff_eq,
      Nat.one_shiftLeft, mod_eq_pred_iff (Nat.two_pow_pos _), slack]

-- What acts goes on acting when the headroom shrinks or the threshold grows.
theorem shouldAct_mono {fewer larger : Nat} (h : shouldAct available threshold count = true)
    (hfewer : fewer ≤ available) (hlarger : threshold ≤ larger) (hpos : threshold ≠ 0) :
    shouldAct fewer larger count = true := by
  have hle := slack_mono hfewer hlarger hpos
  obtain ⟨hmax, hdvd⟩ := (shouldAct_iff hpos).mp h
  have hpos' : larger ≠ 0 := by omega
  exact (shouldAct_iff hpos').mpr ⟨hle.trans hmax, Nat.dvd_trans (Nat.pow_dvd_pow 2 hle) hdvd⟩

-- A search acts on one collection in each window, the longer the window the more headroom is left,
-- and does not act at all while there is much of it.
theorem shouldAct_graded (available threshold : Nat) :
    (available = 0 ∨ threshold = 0 → ∀ count, shouldAct available threshold count = true) ∧
    (threshold ≠ 0 → ∃ s, IsLeast {r | available / threshold ≤ 2 ^ r} s ∧
      (s ≤ 2 → ∀ first, ∃! count, count ∈ Set.Ico first (first + 2 ^ s) ∧
        shouldAct available threshold count = true) ∧
      (2 < s → ∀ count, shouldAct available threshold count = false)) ∧
    ∀ count, shouldAct available threshold count = true →
      (∀ fewer ≤ available, shouldAct fewer threshold count = true) ∧
      (threshold ≠ 0 → ∀ larger ≥ threshold, shouldAct available larger count = true) := by
  refine ⟨shouldAct_of_zero, fun hpos => ⟨slack available threshold, isLeast_log2Ceil _, ?_, ?_⟩,
    fun count h => ⟨fun fewer hfewer => ?_, fun hpos larger hlarger => ?_⟩⟩
  · intro hslack first
    have hmax : slack available threshold ≤ maxSlack := hslack
    simp only [shouldAct_iff hpos, hmax, true_and]
    exact existsUnique_dvd_succ (Nat.two_pow_pos _) first
  · intro hslack count
    rw [Bool.eq_false_iff, Ne, shouldAct_iff hpos]
    exact fun h => absurd h.1 (Nat.not_le.mpr hslack)
  · by_cases hzero : threshold = 0
    · exact shouldAct_of_zero (Or.inr hzero) count
    · exact shouldAct_mono h hfewer (Nat.le_refl _) hzero
  · exact shouldAct_mono h (Nat.le_refl _) hlarger hpos

-- Four thresholds of headroom: of collections 5, 6, 7 and 8 only collection 7 acts.
theorem shouldAct_graded_roomy : ∃! count, count ∈ Set.Ico 5 (5 + 2 ^ 2) ∧
    shouldAct 400 100 count = true := by
  obtain ⟨s, hs, hone, -⟩ := (shouldAct_graded 400 100).2.1 (by decide)
  have htwo : s = 2 := hs.unique (isLeast_log2Ceil 4)
  subst htwo
  exact hone (by decide) 5

end Reclaim.Trial
