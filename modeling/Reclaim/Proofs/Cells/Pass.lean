import Reclaim.Proofs.Cells.Living
import Reclaim.Proofs.Cells.Stacks

/-!
A pass over the blocks settles their bitmaps one after another. A cell stays in use if its settled
bits say so, no cell stays marked, and the blocks without a cell in use are given back. The pass counts
the cells that it takes out of use.
-/
namespace Reclaim.Cells

open Sizes

-- A change to the words of bitmaps that takes no cell into use and leaves no mark.
structure Settles (f : Nat → Nat) : Prop where
  inUse : ∀ w, ∀ p < Bitmap.granulesPerWord,
    Bitmap.isInUse (f w) p = true → Bitmap.isInUse w p = true
  isMarked : ∀ w, ∀ p < Bitmap.granulesPerWord, Bitmap.isMarked (f w) p = false

theorem settles_sweep : Settles Bitmap.sweep where
  inUse w p hp hu := by
    rw [Bitmap.isInUse_sweep w hp, Bool.and_eq_true] at hu
    exact hu.1
  isMarked w _ hp := Bitmap.isMarked_sweep w hp

theorem settles_clearMarks : Settles Bitmap.clearMarks where
  inUse w p hp hu := by rwa [Bitmap.isInUse_clearMarks w hp] at hu
  isMarked w _ hp := Bitmap.isMarked_clearMarks w hp

variable {f : Nat → Nat} {c : Cells} {m : Memory} {todo : List Nat}

-- What a pass that has yet to visit some blocks has made of a pool.
structure Kept (f : Nat → Nat) (c : Cells) (m : Memory) (todo : List Nat) (s : Space) (m' : Memory)
    (B : List (Nat × Nat)) : Prop where
  listed : Listed s m' B
  mapping_eq : s.mapping = c.space.mapping
  name_eq : s.name = c.space.name
  nodup : todo.Nodup
  words : ∀ a, blockOf a ∈ todo → m'.read (Block.bitmapWord a) = m.read (Block.bitmapWord a)
  used_iff : ∀ size a, Used m' B size a ↔
    Used m c.listing size a ∧ (blockOf a ∉ todo → Block.survives f m a = true)
  unmarked : ∀ a, c.space.contains a = true → blockOf a ∉ todo → Block.isMarked m' a = false
  frame : ∀ x, c.space.contains x = false ∨
    (∃ size a, Used m c.listing size a ∧ Block.survives f m a = true ∧
      a ≤ x ∧ x < a + SizeClass.bytes size) → m'.read x = m.read x

namespace Kept

variable {s : Space} {m' : Memory} {B : List (Nat × Nat)}

theorem perm (h : Kept f c m todo s m' B) {todo' : List Nat} {B' : List (Nat × Nat)}
    (ht : todo.Perm todo') (hp : B.Perm B') : Kept f c m todo' s m' B' where
  listed := h.listed.perm hp
  mapping_eq := h.mapping_eq
  name_eq := h.name_eq
  nodup := ht.nodup_iff.mp h.nodup
  words a ha := h.words a (ht.mem_iff.mpr ha)
  used_iff size a := by
    rw [← ht.mem_iff, ← h.used_iff]
    simp only [Used, hp.mem_iff]
  unmarked a hin ha := h.unmarked a hin (mt ht.mem_iff.mp ha)
  frame := h.frame

theorem used_of_survives (h : Kept f c m todo s m' B) {size a : Nat} (ha : Used m c.listing size a)
    (hs : Block.survives f m a = true) : Used m' B size a :=
  (h.used_iff size a).mpr ⟨ha, fun _ => hs⟩

-- Two pools in which the same cells are in use.
theorem liveIn_eq {s₁ : Space} {m₁ : Memory} {B₁ : List (Nat × Nat)} (h : Kept f c m todo s m' B)
    (h' : Kept f c m todo s₁ m₁ B₁) : liveIn m₁ B₁ = liveIn m' B := by
  rw [h.listed.liveIn_eq_ncard, h'.listed.liveIn_eq_ncard]
  refine congrArg Set.ncard (Set.ext fun a => exists_congr fun size => ?_)
  rw [h.used_iff, h'.used_iff]

-- The bitmap of one block is settled.
theorem settle (hf : Settles f) {size block : Nat} (h : Kept f c m (block :: todo) s m' B)
    (hb : (size, block) ∈ B) : Kept f c m todo s (Block.settle f m' block) B := by
  obtain ⟨hnot, hnodup⟩ := List.nodup_cons.mp h.nodup
  obtain ⟨hlisted, hused, hframe⟩ := h.listed.settle hb hf.inUse
  simp only at hlisted hused hframe
  have hread := Block.read_settle_bitmapWord f m' (h.listed.aligned _ hb)
  simp only at hread
  refine ⟨hlisted, h.mapping_eq, h.name_eq, hnodup, ?_, ?_, ?_, ?_⟩
  · intro a ha
    rw [hread, if_neg (ne_of_mem_of_not_mem ha hnot)]
    exact h.words a (List.mem_cons_of_mem _ ha)
  · intro sz a
    rw [hused, h.used_iff, and_assoc, and_congr_right_iff]
    intro _
    by_cases heq : blockOf a = block
    · -- the cells of this block are decided now
      have hw := h.words a (by rw [heq]; exact List.mem_cons_self)
      simp only [heq, hnot, List.mem_cons_self, Block.survives, hw, not_true, not_false_eq_true,
        false_imp_iff, true_imp_iff, true_and]
    · simp only [List.mem_cons, heq, false_or, false_imp_iff, and_true]
  · intro a hin ha
    unfold Block.isMarked
    rw [hread]
    split
    · exact hf.isMarked _ _ (Block.place_lt a)
    · rename_i hne
      exact h.unmarked a hin fun hmem => (List.mem_cons.mp hmem).elim hne ha
  · intro x hx
    refine (hframe x ?_).trans (h.frame x hx)
    rcases hx with hx | ⟨sz, a, ha, hs, h1, h2⟩
    · exact Or.inl ((Space.contains_congr h.mapping_eq x).trans hx)
    · exact Or.inr ((h.listed.used_mem (h.used_of_survives ha hs)).2.2 x h1 h2)

-- A settled block without cells in use is given back.
theorem remove {size block : Nat} {rest : List (Nat × Nat)} (h : Kept f c m todo s m' B)
    (hp : B.Perm ((size, block) :: rest)) (hnot : block ∉ todo)
    (hnone : ∀ a, blockOf a = block → Block.isInUse m' a = false) :
    ∃ s₁ m₁, s.release m' block blockPages = .ok (s₁, m₁) ∧ Kept f c m todo s₁ m₁ rest := by
  have hb : (size, block) ∈ B := hp.mem_iff.mpr List.mem_cons_self
  obtain ⟨s₁, m₁, hrelease, hlisted, hused, hmapping, hname, hoff⟩ := h.listed.remove hp hnone
  simp only at hrelease hoff
  have hblock : block % blockBytes = 0 := h.listed.aligned _ hb
  have hword : ∀ a, blockOf a ≠ block →
      m₁.read (Block.bitmapWord a) = m'.read (Block.bitmapWord a) := by
    intro a hne
    refine hoff _ ?_
    obtain ⟨h1, h2, -⟩ := Block.bitmapWord_mem a
    simp only [blockOf, blockBytes, Block.bitmapOffset, Block.headerBytes, Bitmap.words, wordBytes]
      at hblock hne h1 h2 ⊢
    omega
  refine ⟨s₁, m₁, hrelease, hlisted, hmapping.trans h.mapping_eq, hname.trans h.name_eq, h.nodup,
    ?_, fun sz a => (hused sz a).trans (h.used_iff sz a), ?_, ?_⟩
  · intro a ha
    exact (hword a fun heq => hnot (heq ▸ ha)).trans (h.words a ha)
  · intro a hin ha
    by_cases heq : blockOf a = block
    · -- the block is listed no more, and so its bits read as zero
      have hin₁ : s₁.contains a = true := by
        rwa [Space.contains_congr hmapping, Space.contains_congr h.mapping_eq]
      have hnodup := (hp.map Prod.snd).nodup_iff.mp h.listed.nodup_blocks
      have hz := hlisted.read_unlisted hin₁ (heq ▸ (List.nodup_cons.mp hnodup).1)
      simp only [Block.isMarked, Bitmap.isMarked, hz, Nat.zero_testBit]
    · rw [Block.isMarked_congr (hword a heq)]
      exact h.unmarked a hin ha
  · intro x hx
    refine (hoff x ?_).trans (h.frame x hx)
    by_contra hn
    have hle := h.listed.block_le hb
    have hge := h.listed.start_le _ hb
    simp only at hle hge
    rcases hx with hx | ⟨sz, a, ha, hs, h1, h2⟩
    · rw [← Space.contains_congr h.mapping_eq, (Space.contains_iff s x).mpr (by omega)] at hx
      cases hx
    · -- a cell in use in a block that has none
      obtain ⟨block', hb', ⟨i, hi, rfl⟩, hu⟩ := h.used_of_survives ha hs
      obtain ⟨h3, h4⟩ := cell_mem block' hi
      have heq := h.listed.block_inj hb hb' (a := x) (by simp only; omega) (by simp only; omega)
        (by simp only; omega) (by simp only; omega)
      cases heq
      rw [hnone _ (h.listed.blockOf_cell hb' hi)] at hu
      cases hu

end Kept

-- The pass in the midst of the blocks of one size class, with other blocks left for later.
structure Passing (f : Nat → Nat) (c : Cells) (m : Memory) (c₁ : Cells) (size : Nat)
    (later rest : List Nat) (p : Pass) : Prop where
  kept : Kept f c m (rest ++ later) p.cells.space p.memory
    (p.shelf.blocks.map (size, ·) ++ rest.map (size, ·) ++ c₁.others size)
  shelves_eq : p.cells.shelves = c₁.shelves
  available : p.shelf.available.Sublist p.shelf.blocks
  count : p.stats.freed + liveIn p.memory
    (p.shelf.blocks.map (size, ·) ++ rest.map (size, ·) ++ c₁.others size) = liveIn m c.listing

theorem Passing.visit (hf : Settles f) {c₁ : Cells} {size block : Nat} {later rest : List Nat}
    {p : Pass} (h : Passing f c m c₁ size later (block :: rest) p) :
    ∃ p', p.visit f block = .ok p' ∧ Passing f c m c₁ size later rest p' := by
  have hperm : (p.shelf.blocks.map (size, ·) ++ (block :: rest).map (size, ·) ++
      c₁.others size).Perm ((size, block) :: (p.shelf.blocks.map (size, ·) ++ rest.map (size, ·) ++
        c₁.others size)) := by
    rw [List.map_cons, List.append_assoc, List.append_assoc, List.cons_append]
    exact List.perm_middle
  have hb : (size, block) ∈ p.shelf.blocks.map (size, ·) ++ (block :: rest).map (size, ·) ++
      c₁.others size := hperm.mem_iff.mpr List.mem_cons_self
  have hnot : block ∉ rest ++ later := (List.nodup_cons.mp h.kept.nodup).1
  have hk := h.kept.settle hf hb
  have hblock : block % blockBytes = 0 := hk.listed.aligned _ hb
  obtain ⟨hle, hothers⟩ := h.kept.listed.live_settle hperm hf.inUse
  have hcount := h.count
  rw [liveIn_perm _ hperm, liveIn_cons] at hcount
  simp only at hle hothers hcount
  unfold Pass.visit
  by_cases hlive : Block.live (Block.settle f p.memory block) block = 0
  · obtain ⟨s', m', hrelease, hk'⟩ :=
      hk.remove hperm hnot ((Block.live_eq_zero_iff _ hblock).mp hlive)
    have hsame := hk.liveIn_eq hk'
    rw [liveIn_perm _ hperm, liveIn_cons, hlive, hothers] at hsame
    simp only [hlive, if_true, hrelease, ok_bind]
    refine ⟨_, rfl, hk', h.shelves_eq, h.available, ?_⟩
    dsimp only
    omega
  · have hk' : Kept f c m (rest ++ later) p.cells.space (Block.settle f p.memory block)
        ((block :: p.shelf.blocks).map (size, ·) ++ rest.map (size, ·) ++ c₁.others size) :=
      hk.perm (.refl _) hperm
    simp only [hlive, if_false]
    refine ⟨_, rfl, ?_, h.shelves_eq, ?_, ?_⟩
    · dsimp only
      exact hk'
    · dsimp only
      split
      · exact h.available.cons_cons block
      · exact h.available.cons block
    · dsimp only
      rw [List.map_cons, List.cons_append, List.cons_append, liveIn_cons, hothers]
      dsimp only
      omega

-- A pool in the midst of a pass, between two size classes.
structure Between (f : Nat → Nat) (c : Cells) (m : Memory) (sizes : List Nat) (p : Pass) : Prop where
  shelves_eq : p.cells.shelves.length = SizeClass.count
  kept : Kept f c m (sizes.flatMap fun size => (c.shelf size).blocks) p.cells.space p.memory
    p.cells.listing
  same : ∀ size ∈ sizes, p.cells.shelf size = c.shelf size
  available : ∀ size ∉ sizes, (p.cells.shelf size).available.Sublist (p.cells.shelf size).blocks
  count : p.stats.freed + liveIn p.memory p.cells.listing = liveIn m c.listing

-- The blocks of the next size class are visited, the first added first.
theorem Between.enter {size : Nat} {sizes : List Nat} (hsize : size < SizeClass.count) {p : Pass}
    (h : Between f c m (size :: sizes) p) :
    Passing f c m p.cells size (sizes.flatMap fun size => (c.shelf size).blocks)
      (p.cells.shelf size).blocks.reverse { p with shelf := {} } := by
  have hperm : p.cells.listing.Perm (List.map (size, ·) [] ++
      (p.cells.shelf size).blocks.reverse.map (size, ·) ++ p.cells.others size) := by
    refine (p.cells.listing_perm hsize).trans ?_
    rw [List.map_nil, List.nil_append]
    exact ((List.reverse_perm _).map _).symm.append_right _
  refine ⟨h.kept.perm ?_ hperm, rfl, .refl _, ?_⟩
  · rw [List.flatMap_cons, h.same size List.mem_cons_self]
    exact (List.reverse_perm _).symm.append_right _
  · rw [← liveIn_perm _ hperm]
    exact h.count

theorem Between.visitShelf (hf : Settles f) {size : Nat} {sizes : List Nat}
    (hsize : size < SizeClass.count) (hnot : size ∉ sizes) {p : Pass}
    (h : Between f c m (size :: sizes) p) :
    ∃ p', p.visitShelf f size = .ok p' ∧ Between f c m sizes p' := by
  obtain ⟨p', hrun, hend⟩ := foldlM_ok (Passing f c m p.cells size _)
    (fun block rest q hq => hq.visit hf) _ _ (h.enter hsize)
  have hlen : p'.cells.shelves.length = SizeClass.count := by
    rw [hend.shelves_eq]
    exact h.shelves_eq
  have hclass : ∀ x, p'.cells.shelf x = p.cells.shelf x := fun x => by
    rw [Cells.shelf, hend.shelves_eq, Cells.shelf]
  have hothers : p'.cells.others size = p.cells.others size := by
    unfold others
    refine List.flatMap_congr fun x _ => ?_
    rw [classBlocks, hclass, classBlocks]
  have hperm := listing_setShelf hlen hsize p'.shelf
  rw [hothers] at hperm
  have hkept := hend.kept
  have hcount := hend.count
  rw [List.map_nil, List.append_nil] at hkept hcount
  rw [List.nil_append] at hkept
  exact ⟨{ p' with cells := p'.cells.setShelf size p'.shelf }, by
    simp only [Pass.visitShelf, hrun, ok_bind], {
    kept := hkept.perm (.refl _) hperm.symm
    shelves_eq := by
      simp only [setShelf, List.length_set]
      exact hlen
    same := fun x hx => by
      dsimp only
      rw [shelf_setShelf (hlen ▸ hsize), if_neg (ne_of_mem_of_not_mem hx hnot), hclass]
      exact h.same x (List.mem_cons_of_mem _ hx)
    available := fun x hx => by
      dsimp only
      rw [shelf_setShelf (hlen ▸ hsize)]
      split
      · exact hend.available
      · rename_i hne
        rw [hclass]
        exact h.available x fun hmem => (List.mem_cons.mp hmem).elim hne hx
    count := by
      dsimp only
      rw [liveIn_perm _ hperm]
      exact hcount }⟩

-- What a whole pass makes of a pool.
structure Passed (f : Nat → Nat) (c : Cells) (m : Memory) (c' : Cells) (m' : Memory) : Prop where
  sound : c'.Sound m'
  mapping_eq : c'.space.mapping = c.space.mapping
  name_eq : c'.space.name = c.space.name
  used_iff : ∀ size a, Used m' c'.listing size a ↔
    Used m c.listing size a ∧ Block.survives f m a = true
  unmarked : ∀ a, c.space.contains a = true → Block.isMarked m' a = false
  available : ∀ size, (c'.shelf size).available.Sublist (c'.shelf size).blocks
  frame : ∀ x, c.space.contains x = false ∨
    (∃ size a, Used m c.listing size a ∧ Block.survives f m a = true ∧
      a ≤ x ∧ x < a + SizeClass.bytes size) → m'.read x = m.read x

theorem Sound.between (hc : c.Sound m) (f : Nat → Nat) :
    Between f c m (List.range SizeClass.count) { cells := c, memory := m } := by
  have hmem : ∀ {size a}, Used m c.listing size a → blockOf a ∈ c.listing.map Prod.snd :=
    fun ha => List.mem_map_of_mem (hc.listed.block_of_used ha)
  have hnodup := hc.listed.nodup_blocks
  exact {
    shelves_eq := hc.shelves_eq
    kept := by
      rw [flatMap_blocks]
      exact {
        listed := hc.listed
        mapping_eq := rfl
        name_eq := rfl
        nodup := hnodup
        words := fun _ _ => rfl
        used_iff := fun size a =>
          ⟨fun ha => ⟨ha, fun hn => (hn (hmem ha)).elim⟩, fun ha => ha.1⟩
        unmarked := fun a hin ha => by
          simp only [Block.isMarked, Bitmap.isMarked, hc.listed.read_unlisted hin ha,
            Nat.zero_testBit]
        frame := fun _ _ => rfl }
    same := fun _ _ => rfl
    available := fun size hsize => by
      rw [List.mem_range, not_lt, ← hc.shelves_eq] at hsize
      simp only [Cells.shelf, List.getD_eq_default _ _ hsize]
      exact .refl _
    count := by rw [Nat.zero_add] }

theorem Sound.pass (hc : c.Sound m) (hf : Settles f) :
    ∃ stats c' m', c.pass f m = .ok (stats, c', m') ∧ Passed f c m c' m' ∧
      stats.freed + c'.liveCount m' = c.liveCount m := by
  obtain ⟨p, hrun, -, -, hend⟩ := foldlM_ok
    (fun rest p => (∀ size ∈ rest, size < SizeClass.count) ∧ rest.Nodup ∧ Between f c m rest p)
    (fun size rest p h => by
      obtain ⟨hrest, hnodup, hp⟩ := h
      obtain ⟨hnot, hnodup⟩ := List.nodup_cons.mp hnodup
      obtain ⟨p', hvisit, hp'⟩ := hp.visitShelf hf (hrest size List.mem_cons_self) hnot
      exact ⟨p', hvisit, fun x hx => hrest x (List.mem_cons_of_mem _ hx), hnodup, hp'⟩)
    (List.range SizeClass.count) _
    ⟨fun size hsize => List.mem_range.mp hsize, List.nodup_range, hc.between f⟩
  have hk := hend.kept
  have hsound : p.cells.Sound p.memory := ⟨hk.listed, hend.shelves_eq, fun size block hb =>
    (hend.available size List.not_mem_nil).subset hb⟩
  have hpassed : Passed f c m p.cells p.memory := { hk with
    sound := hsound
    used_iff := fun size a => by
      simp only [hk.used_iff, List.flatMap_nil, List.not_mem_nil, not_false_eq_true, true_imp_iff]
    unmarked := fun a hin => hk.unmarked a hin List.not_mem_nil
    available := fun size => hend.available size List.not_mem_nil }
  refine ⟨p.stats, p.cells, p.memory, by simp only [Cells.pass, hrun, ok_bind], hpassed, ?_⟩
  rw [hsound.liveCount_eq, hc.liveCount_eq]
  exact hend.count

-- After a pass no block is stacked twice.
theorem Passed.nodup_stacked {c' : Cells} {m' : Memory} (h : Passed f c m c' m') : c'.stacked.Nodup := by
  have hnodup := h.sound.listed.nodup_blocks
  rw [← flatMap_blocks] at hnodup
  exact hnodup.sublist (List.Sublist.flatMap_right _ fun size _ => h.available size)

-- Reclaiming empty blocks keeps all cells in use, with all that is in them.
theorem Sound.reclaim (hc : c.Sound m) :
    ∃ stats c' m', c.reclaim m = .ok (stats, c', m') ∧ c'.Sound m' ∧
      c'.space.mapping = c.space.mapping ∧ c'.space.name = c.space.name ∧
      (∀ size a, Used m' c'.listing size a ↔ Used m c.listing size a) ∧
      ∀ x, c.space.contains x = false ∨
        (∃ size a, Used m c.listing size a ∧ a ≤ x ∧ x < a + SizeClass.bytes size) →
          m'.read x = m.read x := by
  obtain ⟨stats, c', m', hrun, hp, -⟩ := hc.pass settles_clearMarks
  have hsurvives : ∀ size a, Used m c.listing size a →
      Block.survives Bitmap.clearMarks m a = true := fun size a ha => by
    rw [Block.survives_clearMarks]
    exact ha.choose_spec.2.2
  refine ⟨stats, c', m', hrun, hp.sound, hp.mapping_eq, hp.name_eq, fun size a => ?_, fun x hx => ?_⟩
  · rw [hp.used_iff]
    exact ⟨fun ha => ha.1, fun ha => ⟨ha, hsurvives size a ha⟩⟩
  · refine hp.frame x (hx.imp_right fun ⟨size, a, ha, hin⟩ => ?_)
    exact ⟨size, a, ha, hsurvives size a ha, hin⟩

end Reclaim.Cells
