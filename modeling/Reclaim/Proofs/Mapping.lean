import Reclaim.Mapping
import Reclaim.Proofs.Word

/-!
A mapping starts at a multiple of its alignment, and its usable part lies inside of what the system
reserved. Pages are committed and decommitted only where they are whole and lie in the usable part; every
other request is refused.
-/
namespace Reclaim.Mapping

open Sizes

variable {m : Mapping} {o : Options} {system : Nat → Option Nat} {base : Nat}

-- The alignment that a mapping gets when none was asked for is one byte.
def Options.alignment (o : Options) : Nat := max o.align 1

-- What the system is asked for.
def Options.total (o : Options) : Nat := o.length + padding o.alignment

-- A mapping as its options ask for it, where the system placed it.
structure Contained (m : Mapping) (o : Options) (base : Nat) : Prop where
  base_eq : m.base = base
  total_eq : m.total = o.total
  length_eq : m.length = o.length
  start_dvd : o.alignment ∣ m.start
  page_dvd : pageBytes ∣ m.start
  base_le : m.base ≤ m.start
  stop_le : m.start + m.length ≤ m.base + m.total
  -- The start is a word: rounding the base up to it does not overflow.
  start_eq : Word.nextMultiple base o.alignment = .ok m.start

-- The start is at most one alignment away from the base. Small alignments need no padding, since pages
-- have them anyway.
theorem contained_of_base (hlength : 0 < o.length) (hpower : Word.isPowerOfTwo o.alignment = true)
    (hpage : pageBytes ∣ base) (hwrap : base + o.total ≤ Word.bound) :
    Contained { base, total := o.total,
                offset := Word.ceilDiv base o.alignment * o.alignment - base
                length := o.length } o base := by
  have hpos := Word.pos_of_isPowerOfTwo hpower
  obtain ⟨hle, hlt⟩ := Word.ceilDiv_mul_bounds hpos base
  have hstart : base + (Word.ceilDiv base o.alignment * o.alignment - base) =
      Word.ceilDiv base o.alignment * o.alignment := Nat.add_sub_cancel' hle
  have hdvd : o.alignment ∣ Word.ceilDiv base o.alignment * o.alignment := Nat.dvd_mul_left _ _
  have hpagePower : Word.isPowerOfTwo pageBytes = true := by decide
  have hplace : pageBytes ∣ Word.ceilDiv base o.alignment * o.alignment ∧
      Word.ceilDiv base o.alignment * o.alignment + o.length ≤ base + o.total := by
    by_cases hsmall : o.alignment ≤ pageBytes
    · have hself : Word.ceilDiv base o.alignment * o.alignment = base := by
        have hbase := Nat.dvd_trans (Word.dvd_of_isPowerOfTwo hpower hpagePower hsmall) hpage
        rw [Word.ceilDiv_mul hpos, if_pos (Nat.mod_eq_zero_of_dvd hbase)]
      rw [hself]
      exact ⟨hpage, Nat.add_le_add_left (Nat.le_add_right _ _) _⟩
    · have hlarge := Nat.lt_of_not_le hsmall
      have htotal : o.total = o.length + o.alignment := by
        rw [Options.total, padding, if_pos hlarge]
      have hpages := Word.dvd_of_isPowerOfTwo hpagePower hpower (Nat.le_of_lt hlarge)
      exact ⟨Nat.dvd_trans hpages hdvd, by omega⟩
  exact {
    base_eq := rfl
    total_eq := rfl
    length_eq := rfl
    start_dvd := by rw [start, hstart]; exact hdvd
    page_dvd := by rw [start, hstart]; exact hplace.1
    base_le := Nat.le_add_right _ _
    stop_le := by rw [start, hstart]; exact hplace.2
    start_eq := by
      rw [start, hstart]
      exact Word.nextMultiple_eq_ceilDiv hpos (by omega) }

-- What was mapped was asked for, and placed where it lies.
theorem contained_of_map (h : o.map system = .ok m) (hpage : pageBytes ∣ m.base)
    (hwrap : m.base + m.total ≤ Word.bound) : m.Contained o m.base := by
  simp only [Options.map] at h
  split at h
  · cases h
  rename_i hlength
  split at h
  · cases h
  rename_i hpower
  split at h
  · cases h
  split at h
  · cases h
  cases h
  have hpower' : Word.isPowerOfTwo o.alignment = true := by simpa [Options.alignment] using hpower
  exact contained_of_base (Nat.pos_of_ne_zero hlength) hpower' hpage hwrap

-- With a length and an alignment to go by, only room can be missing.
theorem kind_of_map {f : MapFault} (hlength : 0 < o.length)
    (hpower : Word.isPowerOfTwo o.alignment = true) (h : o.map system = .error f) :
    f.kind = "OutOfMemory" := by
  rw [Options.alignment] at hpower
  simp only [Options.map, Nat.ne_of_gt hlength, hpower, Bool.not_true, Bool.false_eq_true,
    if_false] at h
  split at h
  · cases h
    rfl
  split at h
  · cases h
    rfl
  · cases h

-- The range is aligned to pages, ends inside of the usable part, and has an end.
structure Fits (m : Mapping) (offset length : Nat) : Prop where
  offset_dvd : pageBytes ∣ offset
  length_dvd : pageBytes ∣ length
  stop_le : offset + length ≤ m.length
  stop_lt : offset + length < Word.bound

theorem inRange_iff {offset length : Nat} : m.inRange offset length = true ↔ m.Fits offset length := by
  simp only [inRange, Bool.and_eq_true, decide_eq_true_eq, beq_iff_eq, ← Nat.dvd_iff_mod_eq_zero]
  exact ⟨fun ⟨⟨⟨h1, h2⟩, h3⟩, h4⟩ => ⟨h3, h4, h2, h1⟩, fun ⟨h3, h4, h2, h1⟩ => ⟨⟨⟨h1, h2⟩, h3⟩, h4⟩⟩

section Requests

variable {offset length : Nat}

theorem checkRange_ok (h : m.Fits offset length) : m.checkRange offset length = .ok () :=
  if_pos (inRange_iff.mpr h)

-- The range is made of whole pages of the usable part.
structure Pages (m : Mapping) (offset length first pages : Nat) : Prop where
  first_eq : pageBytes * first = m.start + offset
  pages_eq : pageBytes * pages = length
  start_le : m.start ≤ pageBytes * first
  stop_le : pageBytes * (first + pages) ≤ m.start + m.length

theorem Fits.pages (h : m.Fits offset length) (hpage : pageBytes ∣ m.start) :
    ∃ first pages, m.Pages offset length first pages := by
  obtain ⟨first, hfirst⟩ := Nat.dvd_add hpage h.offset_dvd
  obtain ⟨pages, hpages⟩ := h.length_dvd
  have hstop := h.stop_le
  exact ⟨first, pages, hfirst.symm, hpages.symm, by omega, by rw [Nat.mul_add]; omega⟩

-- A range that is given back reads as zero, and no other word changes.
theorem decommit_ok (h : m.Fits offset length) (hpage : pageBytes ∣ m.start) (memory : Memory) :
    ∃ memory', m.decommit memory offset length = .ok memory' ∧ ∀ a, memory'.read a =
      if m.start + offset ≤ a ∧ a < m.start + offset + length then 0 else memory.read a := by
  refine ⟨_, by rw [decommit, checkRange_ok h]; rfl, fun a => ?_⟩
  obtain ⟨first, pages, hp⟩ := h.pages hpage
  have hpos : 0 < pageBytes := by decide
  rw [Memory.read_discard, ← hp.first_eq, ← hp.pages_eq, Nat.mul_div_cancel_left _ hpos,
    Nat.mul_div_cancel_left _ hpos]
  congr 1
  simp only [pageBytes, eq_iff_iff]
  omega

end Requests

end Reclaim.Mapping
