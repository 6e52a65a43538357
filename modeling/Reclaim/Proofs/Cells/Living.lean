import Mathlib.Data.Set.Card
import Reclaim.Proofs.Cells.Pool

/-!
How many cells of a pool are in use. The bitmaps of the blocks have one bit set for each of them.
-/
namespace Reclaim.Cells

open Sizes

-- The number of cells in use in the blocks of `B`.
def liveIn (m : Memory) (B : List (Nat × Nat)) : Nat := (B.map fun b => Block.live m b.2).sum

@[simp] theorem liveIn_cons (m : Memory) (b : Nat × Nat) (B : List (Nat × Nat)) :
    liveIn m (b :: B) = Block.live m b.2 + liveIn m B := rfl

theorem liveIn_perm (m : Memory) {B B' : List (Nat × Nat)} (hp : B.Perm B') :
    liveIn m B = liveIn m B' :=
  (hp.map _).sum_eq

-- The number of cells in use.
def liveCount (c : Cells) (m : Memory) : Nat :=
  ((c.shelves.flatMap (·.blocks)).map (Block.live m)).sum

variable {s : Space} {m : Memory} {B : List (Nat × Nat)} {size a : Nat}

-- The cells in use in the blocks of `B`.
def usedCells (m : Memory) (B : List (Nat × Nat)) : List Nat :=
  B.flatMap fun b => (Block.granules b.2).filter (Block.isInUse m)

namespace Listed

variable (h : Listed s m B)
include h

theorem mem_usedCells : a ∈ usedCells m B ↔ ∃ size, Used m B size a := by
  simp only [usedCells, List.mem_flatMap, List.mem_filter]
  constructor
  · rintro ⟨b, hb, hgranule, hused⟩
    obtain ⟨hof, hmod⟩ := (Block.mem_granules (h.aligned b hb)).mp hgranule
    exact ⟨b.1, b.2, hb, h.cells b hb a hof hmod hused, hused⟩
  · rintro ⟨size, block, hb, ⟨i, hi, rfl⟩, hused⟩
    refine ⟨(size, block), hb, (Block.mem_granules (h.aligned _ hb)).mpr ⟨h.blockOf_cell hb hi, ?_⟩,
      hused⟩
    exact cell_aligned (h.aligned _ hb) (h.size_lt _ hb)

theorem nodup_usedCells : (usedCells m B).Nodup := by
  refine List.nodup_flatMap.mpr ⟨fun b _ => (Block.nodup_granules b.2).filter _, ?_⟩
  refine List.Pairwise.imp_of_mem ?_ (List.pairwise_map.mp h.nodup_blocks)
  intro b c hb hc hne a h1 h2
  have hof := (Block.mem_granules (h.aligned b hb)).mp (List.mem_of_mem_filter h1)
  exact hne (hof.1.symm.trans ((Block.mem_granules (h.aligned c hc)).mp (List.mem_of_mem_filter h2)).1)

theorem liveIn_eq_length : liveIn m B = (usedCells m B).length := by
  rw [usedCells, List.length_flatMap, liveIn]
  refine congrArg List.sum (List.map_congr_left fun b hb => ?_)
  rw [Block.live_eq_countP _ (h.aligned b hb), List.countP_eq_length_filter]

theorem liveIn_eq_ncard : liveIn m B = { a | ∃ size, Used m B size a }.ncard := by
  rw [h.liveIn_eq_length, ← List.toFinset_card_of_nodup h.nodup_usedCells, ← Set.ncard_coe_finset]
  refine congrArg Set.ncard (Set.ext fun a => ?_)
  rw [Finset.mem_coe, List.mem_toFinset]
  exact h.mem_usedCells

theorem finite_used : { a | ∃ size, Used m B size a }.Finite := by
  refine (usedCells m B).toFinset.finite_toSet.subset fun a ha => ?_
  exact List.mem_toFinset.mpr (h.mem_usedCells.mpr ha)

-- Settling the bitmap of one block takes no cell into use, and leaves the other blocks as they are.
theorem live_settle {b : Nat × Nat} {rest : List (Nat × Nat)} (hp : B.Perm (b :: rest))
    {f : Nat → Nat} (hf : ∀ w, ∀ p < Bitmap.granulesPerWord,
      Bitmap.isInUse (f w) p = true → Bitmap.isInUse w p = true) :
    Block.live (Block.settle f m b.2) b.2 ≤ Block.live m b.2 ∧
      liveIn (Block.settle f m b.2) rest = liveIn m rest := by
  have hb := h.aligned b (hp.mem_iff.mpr List.mem_cons_self)
  have hread := Block.read_settle_bitmapWord f m hb
  constructor
  · refine Block.live_le hb fun a ha hu => hf _ _ (Block.place_lt a) ?_
    rw [Block.isInUse, hread, if_pos ha] at hu
    exact hu
  · have hnodup := (hp.map Prod.snd).nodup_iff.mp h.nodup_blocks
    refine congrArg List.sum (List.map_congr_left fun c hc => ?_)
    have hne : c.2 ≠ b.2 := ne_of_mem_of_not_mem (List.mem_map_of_mem hc) (List.nodup_cons.mp hnodup).1
    refine Block.live_congr (h.aligned c (hp.mem_iff.mpr (List.mem_cons_of_mem _ hc))) fun a ha => ?_
    exact Block.isInUse_congr (by rw [hread, if_neg (ha ▸ hne)])

end Listed

theorem Sound.liveCount_eq {c : Cells} (hc : c.Sound m) : c.liveCount m = liveIn m c.listing := by
  simp only [liveCount, hc.shelves_blocks, liveIn, List.map_map, Function.comp_def]

end Reclaim.Cells
