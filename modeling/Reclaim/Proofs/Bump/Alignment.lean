import Reclaim.Proofs.Bump.Sharing

/-!
Alignments of requests that take fresh blocks. The start of the run is rounded up, and the end of the
request is checked against the block that the rounded start lies in, not against the run. So the check
is as good as the block of the rounded start is that of the run, which holds for every alignment up to
that of a block, and beyond it just where the run is aligned already.
-/
namespace Reclaim

open Sizes

theorem Word.mul_eq_error {a b : Nat} {f : Fault} (h : mul a b = .error f) : f = .overflow := by
  unfold mul at h
  split at h <;> cases h
  rfl

theorem Word.alignUp_eq_error {a align : Nat} {f : Fault} (hpower : isPowerOfTwo align = true)
    (h : alignUp a align = .error f) : f = .overflow := by
  rw [alignUp, if_pos hpower] at h
  rcases error_of_bind h with h | ⟨top, -, h⟩
  · exact add_eq_error h
  · cases h

namespace Tenancy

open Bump SharedBumps

variable {t : Tenancy} {bytes align start run : Nat} {bump : Bump} {s' : Space} {f : Fault}

theorem Sound.allocSlow_error (ht : t.Sound) (halign : Word.isPowerOfTwo align = true)
    (h : allocSlow t.space bytes align = .error f) :
    f.IsRefusal ∨ f = .fatal (.alignmentOverflowsBlock align) := by
  have hoverflow : ∀ {g : Fault}, g = .overflow →
      g.IsRefusal ∨ g = .fatal (.alignmentOverflowsBlock align) := fun hg => Or.inl (hg ▸ .overflow)
  unfold allocSlow at h
  rcases error_of_bind h with h | ⟨pages, -, h⟩
  · exact hoverflow (Word.mul_eq_error h)
  rcases error_of_bind h with h | ⟨⟨run, space⟩, -, h⟩
  · exact Or.inl (ht.space.acquire_error h)
  rcases error_of_bind h with h | ⟨start, -, h⟩
  · exact hoverflow (Word.alignUp_eq_error halign h)
  rcases error_of_bind h with h | ⟨stop, -, h⟩
  · exact hoverflow (Word.add_eq_error h)
  rcases error_of_bind h with h | ⟨size, -, h⟩
  · exact hoverflow (Word.mul_eq_error h)
  rcases error_of_bind h with h | ⟨limit, -, h⟩
  · exact hoverflow (Word.add_eq_error h)
  split at h
  · cases h
    exact Or.inr rfl
  · cases h

-- A start that was rounded up within the block of the run.
theorem within_of_block {r : Run} (hpages : freshBlocks bytes * blockPages ≤ r.pages)
    (hrun : run = t.space.start + pageBytes * r.first) (hle : run ≤ start)
    (hstop : start + bytes ≤ blockOf start + freshBlocks bytes * blockBytes)
    (hblock : blockOf start = blockOf run) : Within t.space r (start, bytes) := by
  have hpos := freshBlocks_pos bytes
  simp only [Within, Run.stop]
  simp only [blockOf, blockBytes, blockPages, pageBytes] at *
  omega

-- A start that was rounded up beyond that block: the request was for whole blocks.
theorem not_within_of_block {r : Run} (hpages : r.pages = freshBlocks bytes * blockPages)
    (hrun : run = t.space.start + pageBytes * r.first) (hle : run + blockBytes ≤ start) :
    ¬Within t.space r (start, bytes) := by
  simp only [Within, Run.stop, hpages]
  simp only [freshBlocks, Word.ceilDiv, blockBytes, blockPages, pageBytes] at *
  omega

-- Runs of whole blocks start where a block does, and hold what starts where they do.
theorem Sound.within_iff (ht : t.Sound) (hextent : t.space.extent < Word.bound / 2)
    (hunit : t.space.unit = blockPages)
    (h : allocSlow t.space bytes align = .ok (start, bump, s'))
    (hacquire : t.space.acquire (freshBlocks bytes * blockPages) = .ok (run, s')) {r : Run}
    (hround : t.space.roundPages (max (freshBlocks bytes * blockPages) 1) = .ok r.pages)
    (hrun : run = t.space.start + pageBytes * r.first) :
    (Within t.space r (start, bytes) ↔ align ∣ run) ∧ (align ≤ blockBytes → align ∣ run) := by
  obtain ⟨-, hlt, hstop, run', hacquire', hstart⟩ := allocSlow_ok h
  obtain ⟨rfl, -⟩ := Prod.mk.inj (Except.ok.inj (hacquire.symm.trans hacquire'))
  obtain ⟨hpower, hdvd, hle, hself⟩ := Word.alignUp_ok hstart
  obtain ⟨-, -, -, hblock, -⟩ :=
    ht.space.acquire_blocks hunit hextent (freshBlocks_pos bytes) hlt hacquire
  have hpages : r.pages = freshBlocks bytes * blockPages := by
    have hpos := freshBlocks_pos bytes
    have hmax : max (freshBlocks bytes * blockPages) 1 = freshBlocks bytes * blockPages := by
      simp only [blockPages]
      omega
    rw [hmax, Space.roundPages, hunit, Word.nextMultiple_self (Nat.dvd_mul_left _ _)] at hround
    exact (Except.ok.inj hround).symm
  have hsmall : align ≤ blockBytes → align ∣ run := fun hsmall =>
    (Word.dvd_of_isPowerOfTwo hpower (by decide) hsmall).trans hblock
  refine ⟨⟨fun hwithin => ?_, fun hrunDvd => ?_⟩, hsmall⟩
  · by_contra hnot
    -- the alignment is that of more than a block, so that the start is that of a later block
    have hlarge : blockBytes < align := Nat.lt_of_not_le fun hsmall' => hnot (hsmall hsmall')
    have hstartBlock : blockBytes ∣ start :=
      (Word.dvd_of_isPowerOfTwo (by decide) hpower hlarge.le).trans hdvd
    have hne : run ≠ start := fun heq => hnot (heq ▸ hdvd)
    refine not_within_of_block hpages hrun ?_ hwithin
    simp only [blockBytes] at hstartBlock hblock ⊢
    omega
  · obtain rfl := hself hrunDvd
    exact within_of_block hpages.ge hrun (le_refl _) hstop rfl

-- A request for fresh blocks fails, by an overflow, because the space is exhausted or by the check of
-- the alignment, or it lies in the run that it acquired, as long as its start was rounded up within the
-- block of the run. In a space of whole blocks these are the runs that are aligned from the start, such
-- as all of them for alignments up to that of a block.
theorem Reached.allocSlow_within (ht : Reached t) (halign : Word.isPowerOfTwo align = true) :
    (∀ f, allocSlow t.space bytes align = .error f →
      f.IsRefusal ∨ f = .fatal (.alignmentOverflowsBlock align)) ∧
    ∀ start bump s', allocSlow t.space bytes align = .ok (start, bump, s') →
      ∃ (run : Nat) (r : Run), t.space.acquire (freshBlocks bytes * blockPages) = .ok (run, s') ∧
        t.space.roundPages (max (freshBlocks bytes * blockPages) 1) = .ok r.pages ∧
        run = t.space.start + pageBytes * r.first ∧ align ∣ start ∧
        (blockOf start = blockOf run → Within t.space r (start, bytes)) ∧
        (t.space.unit = blockPages → (Within t.space r (start, bytes) ↔ align ∣ run) ∧
          (align ≤ blockBytes → align ∣ run)) := by
  have hs := ht.sound
  refine ⟨fun f h => hs.allocSlow_error halign h, fun start bump s' h => ?_⟩
  obtain ⟨-, -, hstop, run, hacquire, hstart⟩ := allocSlow_ok h
  obtain ⟨-, hdvd, hle, -⟩ := Word.alignUp_ok hstart
  obtain ⟨rounded, first, hround, hrun, -⟩ := hs.space.acquire_below hacquire
  have hpages := (Word.nextMultiple_ok hs.space.unit_pos hround).1
  refine ⟨run, ⟨first, rounded⟩, hacquire, hround, hrun, hdvd, fun hblock => ?_, fun hunit => ?_⟩
  · exact within_of_block (r := ⟨first, rounded⟩) ((Nat.le_max_left _ _).trans hpages) hrun hle hstop
      hblock
  · exact hs.within_iff ht.extent_lt hunit h hacquire hround hrun

theorem reached_pair : Reached { space := pair } :=
  .start "pair" (2 * blockBytes) blockPages (honest_placeAt (by decide) (by decide) (by decide)) rfl
    fun a _ => Memory.read_empty a

theorem allocSlow_pair (start align : Nat)
    (h : (allocSlow pair 16 align).toOption.map Prod.fst = some start) :
    ∃ bump s', allocSlow pair 16 align = .ok (start, bump, s') := by
  obtain ⟨⟨_, bump, s'⟩, hrun, rfl⟩ := Option.map_eq_some_iff.mp h
  exact ⟨bump, s', eq_ok_of_toOption hrun⟩

-- A whole block at the alignment of a block.
theorem allocSlow_within_pair : ∃ bump s' r,
    allocSlow pair 16 blockBytes = .ok (blockBytes, bump, s') ∧
      Within pair r (blockBytes, 16) := by
  obtain ⟨bump, s', hrun⟩ := allocSlow_pair blockBytes blockBytes (by decide +kernel)
  have halign : Word.isPowerOfTwo blockBytes = true := by decide
  obtain ⟨run, r, -, -, -, -, -, hblocks⟩ := (reached_pair.allocSlow_within halign).2 _ _ _ hrun
  obtain ⟨hiff, hsmall⟩ := hblocks rfl
  exact ⟨bump, s', r, hrun, hiff.mpr (hsmall (le_refl _))⟩

-- A run of the first block, whose start is rounded up to the next one.
theorem not_forall_allocSlow_within : ¬∀ t, Reached t → t.space.unit = blockPages →
    ∀ bytes align, Word.isPowerOfTwo align = true → ∀ start bump s',
      allocSlow t.space bytes align = .ok (start, bump, s') → ∃ run,
        t.space.acquire (freshBlocks bytes * blockPages) = .ok (run, s') ∧
        run ≤ start ∧ start + bytes ≤ run + freshBlocks bytes * blockBytes := by
  intro hall
  obtain ⟨bump, s', hrun⟩ := allocSlow_pair (2 * blockBytes) (2 * blockBytes) (by decide +kernel)
  obtain ⟨run, hacquire, -, hstop⟩ :=
    hall _ reached_pair rfl 16 (2 * blockBytes) (by decide) _ bump s' hrun
  have hfirst : (pair.acquire (freshBlocks 16 * blockPages)).toOption.map Prod.fst = some blockBytes := by
    decide +kernel
  rw [show pair.acquire (freshBlocks 16 * blockPages) = .ok (run, s') from hacquire] at hfirst
  cases hfirst
  simp only [freshBlocks, Word.ceilDiv, blockBytes] at hstop
  omega

end Tenancy

end Reclaim
