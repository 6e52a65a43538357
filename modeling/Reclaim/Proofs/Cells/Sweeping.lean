import Reclaim.Proofs.Cells.Rebuilding
import Reclaim.Proofs.Cells.Serving
import Reclaim.Proofs.Cells.Sharing

/-!
Sweeping and reclaiming a shared pool. Both settle the pool by a set of cells, those in use and marked or
all those in use, and hand it over to the allocators such that its free cells are used up before it grows.
-/
namespace Reclaim

open Sizes Cells

variable {f : Nat → Nat} {c c' : Cells} {m m' : Memory} {stats : SweepStats}

-- Every free cell of a settled pool is in a stacked block, and every stacked block has one.
theorem Cells.Settled.ready {keeps : Nat → Prop} (h : Settled keeps c m stats c' m')
    (hc : c'.Sound m') (hroom : blockBytes + c'.space.extent < Word.bound) (hnodup : c'.stacked.Nodup) :
    CellAllocator.Ready {} c' m' where
  cells := hc
  room := hroom
  owns := CellAllocator.owns_fresh c'
  length_eq := List.length_replicate
  nodup := by
    have hheld : CellAllocator.held {} = [] := rfl
    rwa [hheld, List.append_nil]
  reaches size a ha := by
    obtain ⟨block, hb, i, hi, rfl, hu⟩ := mem_freeCells.mp ha
    have hlisted := mem_listing.mpr ⟨hc.lt_of_mem_blocks hb, hb⟩
    rw [CellAllocator.Reaches, hc.listed.blockOf_cell hlisted hi]
    exact Or.inl ((h.stacked size block).mpr ⟨hlisted, i, hi, hu⟩)
  stacked size block hb := by
    obtain ⟨hlisted, i, hi, hu⟩ := (h.stacked size block).mp hb
    exact ⟨_, mem_freeCells.mpr ⟨block, (mem_listing.mp hlisted).2, i, hi, rfl, hu⟩,
      hc.listed.blockOf_cell hlisted hi⟩

-- What a pass keeps may be said in other words, as long as they mean the same for cells in use.
theorem Cells.Settled.congr {keeps keeps' : Nat → Prop} (h : Settled keeps c m stats c' m')
    (hiff : ∀ a, Block.isInUse m a = true → (keeps a ↔ keeps' a)) :
    Settled keeps' c m stats c' m' where
  __ := h
  used_iff size a := by
    rw [h.used_iff]
    exact and_congr_right fun hu => hiff a hu.choose_spec.2.2

namespace SharedCells

variable {s s' : SharedCells} {ops : List Op}

theorem Sound.pass_exhausts (hs : s.Sound) (hf : Settles f) : ∃ stats c m,
    s.cells.pass f s.memory = .ok (stats, c, m) ∧
    Settled (fun a => Block.survives f s.memory a = true) s.cells s.memory stats c m ∧
    CellAllocator.Exhausts {} c m := by
  obtain ⟨stats, c, m, hrun, -, -⟩ := hs.cells.pass hf
  obtain ⟨hp, hsettled⟩ := hs.cells.pass_settled hf hrun
  have hroom : blockBytes + c.space.extent < Word.bound := by
    rw [(Space.range_congr hp.mapping_eq).2.1]
    exact hs.room
  exact ⟨stats, c, m, hrun, hsettled, (hsettled.ready hp.sound hroom hp.nodup_stacked).exhausts⟩

-- Whatever allocators did with a pool: once all of them are reset, a sweep leaves in use what is marked
-- and reclaiming all that is in use. Both clear the marks, count the cells, give back the blocks
-- without a cell in use and stack those with a free cell, and an allocator then uses up the free cells.
theorem Fresh.sweep_settles (h₀ : Fresh s) (h : Steps s ops s') (hreset : ∀ x ∈ s'.allocators, x = {}) :
    (∃ stats c m, s'.cells.sweep s'.memory = .ok (stats, c, m) ∧
      Settled (fun a => Block.isMarked s'.memory a = true) s'.cells s'.memory stats c m ∧
      ∀ x ∈ s'.allocators, x.Exhausts c m) ∧
    ∃ stats c m, s'.cells.reclaim s'.memory = .ok (stats, c, m) ∧
      Settled (fun _ => True) s'.cells s'.memory stats c m ∧ stats.freed = 0 ∧
      ∀ x ∈ s'.allocators, x.Exhausts c m := by
  have hs := h.sound h₀.sound
  refine ⟨?_, ?_⟩
  · obtain ⟨stats, c, m, hrun, hsettled, hlasts⟩ := hs.pass_exhausts settles_sweep
    refine ⟨stats, c, m, hrun, hsettled.congr fun a hu => ?_, fun x hx => hreset x hx ▸ hlasts⟩
    rw [Block.survives_sweep, hu, Bool.true_and]
  · obtain ⟨stats, c, m, hrun, hsettled, hlasts⟩ := hs.pass_exhausts settles_clearMarks
    have hkept : Settled (fun _ => True) s'.cells s'.memory stats c m := hsettled.congr fun a hu => by
      rw [Block.survives_clearMarks, hu]
      exact iff_true_intro rfl
    refine ⟨stats, c, m, hrun, hkept, ?_, fun x hx => hreset x hx ▸ hlasts⟩
    have hsame : usedSet c m = usedSet s'.cells s'.memory :=
      Set.ext fun a => exists_congr fun size => by rw [hkept.used_iff, and_iff_left trivial]
    rw [hkept.freed_eq, hsame, Set.sdiff_self, Set.ncard_empty]

-- A pool with two cells in use, of which one is marked, and no allocator that owns their block.
namespace Mixed

@[irreducible] def marked : Option Nat × SharedCells :=
  (Pair.taken.2.perform (.mark Pair.cell)).toOption.get rfl

@[irreducible] def grown : Option Nat × SharedCells :=
  (marked.2.perform (.alloc 0 20 8)).toOption.get (by decide +kernel)

@[irreducible] def given : Option Nat × SharedCells :=
  (grown.2.perform (.reset 0)).toOption.get (by decide +kernel)

theorem perform_marked : Pair.taken.2.perform (.mark Pair.cell) = .ok marked := by
  unfold marked
  exact eq_ok_get _

theorem perform_grown : marked.2.perform (.alloc 0 20 8) = .ok grown := by
  unfold grown
  exact eq_ok_get _

theorem perform_given : grown.2.perform (.reset 0) = .ok given := by
  unfold given
  exact eq_ok_get _

theorem steps : Steps Pair.fresh [.alloc 0 20 8, .mark Pair.cell, .alloc 0 20 8, .reset 0] given.2 := by
  have hcell : Pair.taken.1 = some Pair.cell := by decide +kernel
  obtain ⟨-, -, hserved⟩ :=
    Pair.fresh_fresh.sound.perform (show Allowed _ (.alloc 0 20 8) from trivial) Pair.perform_taken
  obtain ⟨a, size, ha, hgranted⟩ := hserved 20 rfl
  obtain rfl := Option.some.inj (hcell.symm.trans ha)
  have h1 := Steps.nil.snoc (.alloc 0 20 8) trivial Pair.perform_taken
  have h2 := h1.snoc (.mark Pair.cell) ⟨size, hgranted.inUse⟩ perform_marked
  have h3 := h2.snoc (.alloc 0 20 8) trivial perform_grown
  exact h3.snoc (.reset 0) trivial perform_given

end Mixed

theorem sweep_settles_mixed : ∃ stats c m,
    Mixed.given.2.cells.sweep Mixed.given.2.memory = .ok (stats, c, m) ∧
    Settled (fun a => Block.isMarked Mixed.given.2.memory a = true) Mixed.given.2.cells
      Mixed.given.2.memory stats c m ∧ stats.live = 1 ∧ stats.freed = 1 ∧
    ∀ x ∈ Mixed.given.2.allocators, x.Exhausts c m := by
  have hreset : ∀ x ∈ Mixed.given.2.allocators, x = {} := by decide +kernel
  have hstats : (Mixed.given.2.cells.sweep Mixed.given.2.memory).toOption.map
      (fun r => (r.1.live, r.1.freed)) = some (1, 1) := by decide +kernel
  obtain ⟨stats, c, m, hrun, hsettled, hexhausts⟩ :=
    (Fresh.sweep_settles Pair.fresh_fresh Mixed.steps hreset).1
  rw [hrun] at hstats
  obtain ⟨hlive, hfreed⟩ := Prod.mk.inj (Option.some.inj hstats)
  exact ⟨stats, c, m, hrun, hsettled, hlive, hfreed, hexhausts⟩

end SharedCells

end Reclaim
