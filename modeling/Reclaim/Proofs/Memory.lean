import Mathlib.Data.Nat.Basic
import Reclaim.Memory

/-!
What the operations on several words of memory do to `read`.
-/
namespace Reclaim.Memory

open Sizes

variable {m : Memory} {a b : Nat}

@[simp] theorem read_write_self (m : Memory) (a v : Nat) : (m.write a v).read a = v := by
  rw [read_write, if_pos rfl]

theorem read_write_of_ne (h : b ≠ a) (v : Nat) : (m.write a v).read b = m.read b := by
  rw [read_write, if_neg (Ne.symm h)]

theorem write_read_self (m : Memory) (a : Nat) : m.write a (m.read a) = m := if_pos rfl

theorem load_ok (m : Memory) (h : a % wordBytes = 0) : m.load a = .ok (m.read a) := if_pos h

theorem store_ok (m : Memory) (h : a % wordBytes = 0) (v : Nat) :
    m.store a v = .ok (m.write a v) := if_pos h

theorem read_writeWords (m : Memory) (a : Nat) (words : List Nat) (b : Nat) :
    (m.writeWords a words).read b =
      if a ≤ b ∧ b % wordBytes = a % wordBytes ∧ (b - a) / wordBytes < words.length then
        words.getD ((b - a) / wordBytes) 0
      else m.read b := by
  induction words generalizing m a with
  | nil => simp [writeWords]
  | cons word rest ih =>
    have hmod : (a + wordBytes) % wordBytes = a % wordBytes := by simp
    rw [writeWords, ih, hmod]
    simp only [wordBytes] at hmod ⊢
    by_cases hab : b = a
    · subst hab
      have hn : ¬(b + 8 ≤ b) := by omega
      simp [hn]
    · rw [read_write_of_ne hab]
      by_cases hin : a ≤ b ∧ b % 8 = a % 8
      · -- the entries behind the first
        have hsub : (b - a) / 8 = (b - (a + 8)) / 8 + 1 := by omega
        have hle : a + 8 ≤ b := by omega
        simp only [hle, hin.1, hin.2, true_and, hsub, List.length_cons, Nat.add_lt_add_iff_right,
          List.getD_cons_succ]
      · have hn : ¬(a + 8 ≤ b ∧ b % 8 = a % 8 ∧ (b - (a + 8)) / 8 < rest.length) := by
          rintro ⟨h1, h2, -⟩
          exact hin ⟨by omega, h2⟩
        have hn' : ¬(a ≤ b ∧ b % 8 = a % 8 ∧ (b - a) / 8 < (word :: rest).length) :=
          fun hx => hin ⟨hx.1, hx.2.1⟩
        exact (if_neg hn).trans (if_neg hn').symm

-- Words are cleared one after the other.
theorem read_foldl_write_zero (f : Memory → Nat → Nat) (words : List Nat)
    (hf : ∀ m, ∀ word ∈ words, f m word = 0) (m : Memory) (b : Nat) :
    (words.foldl (fun m word => m.write word (f m word)) m).read b =
      if b ∈ words then 0 else m.read b := by
  induction words generalizing m with
  | nil => simp
  | cons word rest ih =>
    rw [List.foldl_cons, ih (fun m w hw => hf m w (List.mem_cons_of_mem _ hw)),
      hf m word List.mem_cons_self, read_write]
    by_cases hb : word = b
    · simp [hb]
    · have hb' : b ≠ word := fun h => hb h.symm
      simp [hb, hb']

-- Clearing whole words leaves all others alone.
theorem read_zero (m : Memory) {a bytes : Nat} (ha : a % wordBytes = 0)
    (hbytes : bytes % wordBytes = 0) (b : Nat) :
    (m.zero a bytes).read b =
      if b % wordBytes = 0 ∧ a ≤ b ∧ b < a + bytes then 0 else m.read b := by
  simp only [wordBytes] at ha hbytes
  unfold zero
  rw [read_foldl_write_zero]
  · -- the words that are cleared are those of the range
    congr 1
    simp only [eq_iff_iff, List.mem_map, List.mem_range'_1, wordBytes, Word.ceilDiv]
    constructor
    · rintro ⟨q, ⟨h1, h2⟩, rfl⟩
      omega
    · rintro ⟨h1, h2, h3⟩
      exact ⟨b / 8, by omega, by omega⟩
  · intro m word hword
    obtain ⟨q, hq, rfl⟩ := List.mem_map.mp hword
    simp only [List.mem_range'_1, wordBytes, Word.ceilDiv] at hq
    refine if_pos ⟨?_, ?_⟩
    · simp only [wordBytes]
      omega
    · simp only [wordBytes]
      omega

end Reclaim.Memory
