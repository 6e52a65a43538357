import Reclaim.Cells.Pool
import Reclaim.Proofs.Cells.Block
import Reclaim.Proofs.Space

/-!
The blocks that a pool of cells lists, each with its size class. Their headers tell where their cells
are, and no bit of a header is set for anything but a cell.
-/
namespace Reclaim.Cells

open Sizes

-- The pages of a block.
def runOf (s : Space) (block : Nat) : Run := ⟨(block - s.start) / pageBytes, blockPages⟩

-- A pool whose space has handed out the blocks of `B`.
structure Listed (s : Space) (m : Memory) (B : List (Nat × Nat)) : Prop where
  space : s.Sound (B.map fun b => runOf s b.2) m
  unit_eq : s.unit = blockPages
  size_lt : ∀ b ∈ B, b.1 < SizeClass.count
  start_le : ∀ b ∈ B, s.start ≤ b.2
  aligned : ∀ b ∈ B, b.2 % blockBytes = 0
  formed : ∀ b ∈ B, Block.Formed m b.2 b.1
  cells : ∀ b ∈ B, ∀ a, blockOf a = b.2 → a % wordBytes = 0 → Block.isInUse m a = true →
    ∃ i < SizeClass.perBlock b.1, a = Block.cellAt b.2 b.1 i

-- The address lies behind the header of a listed block.
def Inside (B : List (Nat × Nat)) (a : Nat) : Prop :=
  ∃ b ∈ B, b.2 + Block.headerBytes ≤ a ∧ a < b.2 + blockBytes

-- A cell of a listed block is in use.
def Used (m : Memory) (B : List (Nat × Nat)) (size a : Nat) : Prop :=
  ∃ block, (size, block) ∈ B ∧ (∃ i < SizeClass.perBlock size, a = Block.cellAt block size i) ∧
    Block.isInUse m a = true

section Cell

variable {block size i : Nat}

-- A cell lies behind the header of its block and ends with it at the latest.
theorem cell_mem (block : Nat) (h : i < SizeClass.perBlock size) :
    block + Block.headerBytes ≤ Block.cellAt block size i ∧
      Block.cellAt block size i + SizeClass.bytes size ≤ block + blockBytes := by
  have h1 := SizeClass.perBlock_mul_le size
  have h2 : (i + 1) * SizeClass.bytes size ≤ SizeClass.perBlock size * SizeClass.bytes size :=
    Nat.mul_le_mul_right _ h
  have h3 : Block.headerBytes ≤ blockBytes := by decide
  rw [Nat.add_mul, Nat.one_mul] at h2
  unfold Block.cellAt
  omega

theorem cell_aligned (hblock : block % blockBytes = 0) (hsize : size < SizeClass.count) :
    Block.cellAt block size i % wordBytes = 0 := by
  obtain ⟨h, -, -⟩ := SizeClass.bytes_mem hsize
  have hmul : i * SizeClass.bytes size % wordBytes = 0 := by
    rw [Nat.mul_mod, h, Nat.mul_zero, Nat.zero_mod]
  simp only [Block.cellAt, Block.headerBytes, Block.bitmapOffset, Bitmap.words, blockBytes,
    wordBytes] at hblock hmul ⊢
  omega

theorem blockOf_cell (hblock : block % blockBytes = 0)
    (h : i < SizeClass.perBlock size) {x : Nat} (h1 : Block.cellAt block size i ≤ x)
    (h2 : x < Block.cellAt block size i + SizeClass.bytes size) : blockOf x = block := by
  obtain ⟨h3, h4⟩ := cell_mem block h
  obtain ⟨k, rfl⟩ : ∃ k, x = block + k := ⟨x - block, by omega⟩
  exact Block.blockOf_add hblock (by omega)

theorem blockOf_cellAt (hblock : block % blockBytes = 0) (hsize : size < SizeClass.count)
    (h : i < SizeClass.perBlock size) : blockOf (Block.cellAt block size i) = block := by
  obtain ⟨-, hpos, -⟩ := SizeClass.bytes_mem hsize
  exact blockOf_cell hblock h (le_refl _) (Nat.lt_add_of_pos_right (by omega))

-- Cells of one block do not overlap.
theorem cell_disjoint {j : Nat} (h : i ≠ j) :
    Block.cellAt block size i + SizeClass.bytes size ≤ Block.cellAt block size j ∨
      Block.cellAt block size j + SizeClass.bytes size ≤ Block.cellAt block size i := by
  unfold Block.cellAt
  rcases Nat.lt_or_gt_of_ne h with hij | hij
  · have hmul : (i + 1) * SizeClass.bytes size ≤ j * SizeClass.bytes size :=
      Nat.mul_le_mul_right _ hij
    rw [Nat.add_mul, Nat.one_mul] at hmul
    omega
  · have hmul : (j + 1) * SizeClass.bytes size ≤ i * SizeClass.bytes size :=
      Nat.mul_le_mul_right _ hij
    rw [Nat.add_mul, Nat.one_mul] at hmul
    omega

theorem nodup_cells (hsize : size < SizeClass.count) (block : Nat) :
    ((List.range (SizeClass.perBlock size)).map (Block.cellAt block size)).Nodup := by
  obtain ⟨-, hpos, -⟩ := SizeClass.bytes_mem hsize
  refine List.nodup_range.map fun i j heq => ?_
  by_contra hne
  rcases cell_disjoint hne with h | h <;>
  · rw [heq] at h
    omega

end Cell

section Used

variable {m m' : Memory} {B B' : List (Nat × Nat)} {size a : Nat}

theorem used_perm (hp : B.Perm B') : Used m B size a ↔ Used m B' size a := by
  simp only [Used, hp.mem_iff]

-- A block without cells in use may be listed or not.
theorem used_cons {b : Nat × Nat} (hsize : b.1 < SizeClass.count) (haligned : b.2 % blockBytes = 0)
    (hunused : ∀ x, blockOf x = b.2 → Block.isInUse m x = false) :
    Used m (b :: B) size a ↔ Used m B size a := by
  constructor
  · rintro ⟨block, hb, ⟨i, hi, rfl⟩, hu⟩
    rcases List.mem_cons.mp hb with rfl | hb
    · rw [hunused _ (blockOf_cellAt haligned hsize hi)] at hu
      cases hu
    · exact ⟨block, hb, ⟨i, hi, rfl⟩, hu⟩
  · rintro ⟨block, hb, hcell, hu⟩
    exact ⟨block, List.mem_cons_of_mem _ hb, hcell, hu⟩

end Used

namespace Listed

variable {s : Space} {m : Memory} {B : List (Nat × Nat)}

theorem perm (h : Listed s m B) {B' : List (Nat × Nat)} (hp : B.Perm B') : Listed s m B' where
  space := h.space.perm (hp.map _)
  unit_eq := h.unit_eq
  size_lt b hb := h.size_lt b (hp.mem_iff.mpr hb)
  start_le b hb := h.start_le b (hp.mem_iff.mpr hb)
  aligned b hb := h.aligned b (hp.mem_iff.mpr hb)
  formed b hb := h.formed b (hp.mem_iff.mpr hb)
  cells b hb := h.cells b (hp.mem_iff.mpr hb)

variable (h : Listed s m B)
include h

-- A block is a whole number of pages away from the start.
theorem run_first {b : Nat × Nat} (hb : b ∈ B) :
    s.start + pageBytes * (runOf s b.2).first = b.2 ∧
      s.start + pageBytes * (runOf s b.2).stop = b.2 + blockBytes := by
  have h1 := h.start_le b hb
  have h2 := h.aligned b hb
  have h3 := Nat.mod_eq_zero_of_dvd h.space.start_dvd
  simp only [runOf, Run.stop, pageBytes, blockPages, blockBytes] at h2 h3 ⊢
  omega

theorem block_le {b : Nat × Nat} (hb : b ∈ B) : b.2 + blockBytes ≤ s.stop := by
  have hle := h.space.run_le (List.mem_map_of_mem hb)
  rwa [(h.run_first hb).2] at hle

-- Each page of a listed block is handed out.
theorem cover_pos {b : Nat × Nat} (hb : b ∈ B) {a : Nat} (h1 : b.2 ≤ a) (h2 : a < b.2 + blockBytes) :
    0 < Run.cover (B.map fun b => runOf s b.2) (s.page a) := by
  obtain ⟨h3, h4⟩ := h.run_first hb
  exact Space.cover_of_run (List.mem_map_of_mem hb) (by omega) (by omega)

theorem contains_of_mem {b : Nat × Nat} (hb : b ∈ B) {a : Nat} (h1 : b.2 ≤ a)
    (h2 : a < b.2 + blockBytes) : s.contains a = true := by
  have h3 := h.start_le b hb
  have h4 := h.block_le hb
  exact (Space.contains_iff s a).mpr (by omega)

-- Blocks do not overlap.
theorem block_inj {b c : Nat × Nat} (hb : b ∈ B) (hc : c ∈ B) {a : Nat} (h1 : b.2 ≤ a)
    (h2 : a < b.2 + blockBytes) (h3 : c.2 ≤ a) (h4 : a < c.2 + blockBytes) : b = c := by
  have h5 := h.aligned b hb
  have h6 := h.aligned c hc
  have heq : b.2 = c.2 := by
    simp only [blockBytes] at h2 h4 h5 h6
    omega
  exact List.inj_on_of_nodup_map h.space.nodup hb hc (by rw [heq])

theorem not_inside_header {b : Nat × Nat} (hb : b ∈ B) {a : Nat} (h1 : b.2 ≤ a)
    (h2 : a < b.2 + Block.headerBytes) : ¬Inside B a := by
  rintro ⟨c, hc, h3, h4⟩
  have hlt : Block.headerBytes < blockBytes := by decide
  have heq := h.block_inj hb hc h1 (by omega) (by omega) h4
  subst heq
  omega

theorem contains_of_inside {a : Nat} (ha : Inside B a) : s.contains a = true := by
  obtain ⟨b, hb, h1, h2⟩ := ha
  exact h.contains_of_mem hb (by omega) h2

-- Bits lie in headers, not in cells.
theorem bitmapWord_not_inside (a : Nat) : ¬Inside B (Block.bitmapWord a) := by
  rintro ⟨b, hb, h1, h2⟩
  have h3 := h.aligned b hb
  obtain ⟨h4, h5, -⟩ := Block.bitmapWord_mem a
  simp only [blockOf, blockBytes, Block.headerBytes, Block.bitmapOffset, Bitmap.words, wordBytes]
    at h1 h2 h3 h4 h5
  omega

theorem nodup_blocks : (B.map Prod.snd).Nodup := by
  refine List.Nodup.of_map (runOf s) ?_
  rw [List.map_map]
  exact h.space.nodup

-- What is written behind the headers is no concern of the pool.
theorem congr {m' : Memory}
    (hm : ∀ a, s.contains a = true → ¬Inside B a → m'.read a = m.read a) : Listed s m' B where
  space := by
    refine h.space.congr fun a ha hc => hm a ha ?_
    rintro ⟨b, hb, h1, h2⟩
    have hpos := h.cover_pos hb (a := a) (by omega) h2
    omega
  unit_eq := h.unit_eq
  size_lt := h.size_lt
  start_le := h.start_le
  aligned := h.aligned
  formed b hb := by
    refine (h.formed b hb).congr fun a h1 h2 => ?_
    have hlt : Block.bitmapOffset < Block.headerBytes := by decide
    have hle : Block.headerBytes < blockBytes := by decide
    exact hm a (h.contains_of_mem hb h1 (by omega)) (h.not_inside_header hb h1 (by omega))
  cells b hb a ha hmod hu := by
    refine h.cells b hb a ha hmod ?_
    rw [← hu]
    have hin := h.contains_of_mem hb (Block.bitmapWord_mem_block ha).1 (Block.bitmapWord_mem_block ha).2
    exact (Block.isInUse_congr (hm _ hin (h.bitmapWord_not_inside a))).symm

theorem blockOf_cell {size block i : Nat} (hb : (size, block) ∈ B)
    (hi : i < SizeClass.perBlock size) : blockOf (Block.cellAt block size i) = block :=
  blockOf_cellAt (h.aligned _ hb) (h.size_lt _ hb) hi

-- The addresses of cells do not leave the address range.
theorem cell_ok {size block i : Nat} (hb : (size, block) ∈ B) (hi : i < SizeClass.perBlock size) :
    Block.cell m block i = .ok (Block.cellAt block size i) := by
  have hformed := h.formed _ hb
  have hle := h.block_le hb
  have hstop := h.space.stop_lt
  obtain ⟨-, hcell⟩ := cell_mem block hi
  simp only [Block.cellAt] at hformed hle hcell ⊢
  have h1 : i * SizeClass.bytes size < Word.bound := by omega
  have h2 : Block.headerBytes + i * SizeClass.bytes size < Word.bound := by omega
  have h3 : block + (Block.headerBytes + i * SizeClass.bytes size) < Word.bound := by omega
  rw [Block.cell, hformed.firstCell_eq, hformed.cellBytes_eq, Word.mul_ok h1, ok_bind,
    Word.add_ok h2, ok_bind, Word.add_ok h3, Nat.add_assoc]

-- What is known of a cell in use.
theorem used_mem {size a : Nat} (ha : Used m B size a) :
    size < SizeClass.count ∧ a % wordBytes = 0 ∧
      ∀ x, a ≤ x → x < a + SizeClass.bytes size → Inside B x := by
  obtain ⟨block, hb, ⟨i, hi, rfl⟩, -⟩ := ha
  obtain ⟨h1, h2⟩ := cell_mem block hi
  refine ⟨h.size_lt _ hb, cell_aligned (h.aligned _ hb) (h.size_lt _ hb), fun x h3 h4 => ?_⟩
  exact ⟨_, hb, by simp only; omega, by simp only; omega⟩

-- The block that a cell lies in.
theorem block_of_used {size a : Nat} (ha : Used m B size a) : (size, blockOf a) ∈ B := by
  obtain ⟨block, hb, ⟨i, hi, rfl⟩, -⟩ := ha
  rwa [h.blockOf_cell hb hi]

-- Two cells in use do not overlap.
theorem used_disjoint {size size' a a' : Nat} (ha : Used m B size a) (ha' : Used m B size' a')
    (hne : a ≠ a') : a + SizeClass.bytes size ≤ a' ∨ a' + SizeClass.bytes size' ≤ a := by
  obtain ⟨block, hb, ⟨i, hi, rfl⟩, -⟩ := ha
  obtain ⟨block', hb', ⟨j, hj, rfl⟩, -⟩ := ha'
  have h1 := cell_mem block hi
  have h2 := cell_mem block' hj
  by_cases heq : block = block'
  · subst heq
    have hsize := h.block_inj hb hb' (a := block) (le_refl _) (by simp [blockBytes]) (le_refl _)
      (by simp [blockBytes])
    cases hsize
    exact cell_disjoint fun hij => hne (by rw [hij])
  · have h3 := h.aligned _ hb
    have h4 := h.aligned _ hb'
    simp only [blockBytes, Block.headerBytes, Block.bitmapOffset, Bitmap.words, wordBytes]
      at h1 h2 h3 h4
    omega

theorem used_size {size size' a : Nat} (ha : Used m B size a) (ha' : Used m B size' a) :
    size = size' := by
  have h1 := h.block_of_used ha
  have h2 := h.block_of_used ha'
  have heq := h.block_inj h1 h2 (a := blockOf a) (le_refl _) (by simp [blockBytes]) (le_refl _)
    (by simp [blockBytes])
  exact congrArg Prod.fst heq

-- The bits of an address lie in the same space.
theorem contains_bitmapWord {a : Nat} (ha : s.contains a = true) :
    s.contains (Block.bitmapWord a) = true := by
  obtain ⟨h1, h2⟩ := (Space.contains_iff s a).mp ha
  have h3 := Nat.mod_eq_zero_of_dvd h.space.start_dvd
  have h4 := Nat.mod_eq_zero_of_dvd h.space.extent_dvd
  obtain ⟨h5, h6, -⟩ := Block.bitmapWord_mem a
  have hle : Block.headerBytes < blockBytes := by decide
  have hbound : s.start ≤ blockOf a ∧ blockOf a + blockBytes ≤ s.stop := by
    simp only [blockOf, blockBytes, Space.stop] at h2 h3 h4 ⊢
    omega
  exact (Space.contains_iff s _).mpr (by omega)

-- Where no block lies, and in the cells of blocks, there are no bits of listed blocks.
theorem ne_bitmapWord {b : Nat × Nat} (hb : b ∈ B) {a x : Nat} (ha : blockOf a = b.2)
    (hx : s.contains x = false ∨ Inside B x) : x ≠ Block.bitmapWord a := by
  rintro rfl
  rcases hx with hx | hx
  · obtain ⟨h1, h2, -⟩ := Block.bitmapWord_mem a
    have hle : Block.headerBytes < blockBytes := by decide
    rw [h.contains_of_mem hb (by omega) (by omega)] at hx
    cases hx
  · exact h.bitmapWord_not_inside a hx

-- Outside of the listed blocks no bit is set.
theorem read_unlisted {a : Nat} (ha : s.contains a = true) (hb : blockOf a ∉ B.map Prod.snd) :
    m.read (Block.bitmapWord a) = 0 := by
  have hin := h.contains_bitmapWord ha
  refine h.space.blank _ hin ?_
  by_contra hc
  obtain ⟨r, hr, h1, h2⟩ := Run.exists_of_cover_pos (Nat.pos_of_ne_zero hc)
  obtain ⟨b, hmem, rfl⟩ := List.mem_map.mp hr
  have hblock : b.2 = blockOf a := by
    have h3 := Nat.mod_eq_zero_of_dvd h.space.start_dvd
    obtain ⟨h4, -⟩ := (Space.contains_iff s _).mp hin
    obtain ⟨h5, h6, -⟩ := Block.bitmapWord_mem a
    have h7 := h.start_le b hmem
    have h8 := h.aligned b hmem
    simp only [runOf, Space.page, pageBytes, blockPages, blockOf, blockBytes] at h1 h2 h3 h5 h6 h8 ⊢
    simp only [Block.headerBytes, Block.bitmapOffset, Bitmap.words, wordBytes] at h6
    omega
  exact hb (hblock ▸ List.mem_map_of_mem hmem)

-- An address whose bit is set is a cell in use.
theorem used_of_isInUse {a : Nat} (ha : s.contains a = true) (hmod : a % wordBytes = 0)
    (hu : Block.isInUse m a = true) : ∃ size, Used m B size a := by
  by_cases hb : blockOf a ∈ B.map Prod.snd
  · obtain ⟨b, hmem, hblock⟩ := List.mem_map.mp hb
    obtain ⟨i, hi, hcell⟩ := h.cells b hmem a hblock.symm hmod hu
    exact ⟨b.1, b.2, hmem, ⟨i, hi, hcell⟩, hu⟩
  · simp only [Block.isInUse, Bitmap.isInUse, h.read_unlisted ha hb, Nat.zero_testBit] at hu
    cases hu

theorem used_of_bits {m' : Memory}
    (hbits : ∀ b ∈ B, ∀ x, blockOf x = b.2 → Block.isInUse m' x = Block.isInUse m x)
    {size a : Nat} : Used m' B size a ↔ Used m B size a := by
  constructor
  · rintro ⟨block, hb, ⟨i, hi, rfl⟩, hu⟩
    rw [hbits _ hb _ (h.blockOf_cell hb hi)] at hu
    exact ⟨block, hb, ⟨i, hi, rfl⟩, hu⟩
  · rintro ⟨block, hb, ⟨i, hi, rfl⟩, hu⟩
    rw [← hbits _ hb _ (h.blockOf_cell hb hi)] at hu
    exact ⟨block, hb, ⟨i, hi, rfl⟩, hu⟩

theorem used_congr {m' : Memory}
    (hm : ∀ a, s.contains a = true → ¬Inside B a → m'.read a = m.read a) (size a : Nat) :
    Used m' B size a ↔ Used m B size a := by
  refine h.used_of_bits fun b hb x hx => ?_
  have hin := h.contains_of_mem hb (Block.bitmapWord_mem_block hx).1 (Block.bitmapWord_mem_block hx).2
  exact Block.isInUse_congr (hm _ hin (h.bitmapWord_not_inside x))

theorem isMarked_congr {m' : Memory}
    (hm : ∀ a, s.contains a = true → ¬Inside B a → m'.read a = m.read a) {a : Nat}
    (ha : s.contains a = true) : Block.isMarked m' a = Block.isMarked m a :=
  Block.isMarked_congr (hm _ (h.contains_bitmapWord ha) (h.bitmapWord_not_inside a))

-- A change to the bits of one cell.
theorem update {b : Nat × Nat} (hb : b ∈ B) {a : Nat} (ha : blockOf a = b.2)
    (f : Nat → Nat → Nat)
    (hcells : ∀ x, blockOf x = b.2 → x % wordBytes = 0 →
      Block.isInUse (Block.update f m a) x = true →
        ∃ i < SizeClass.perBlock b.1, x = Block.cellAt b.2 b.1 i) :
    Listed s (Block.update f m a) B where
  space := by
    refine h.space.congr fun x _ hc => Block.read_update_of_ne f m fun hx => ?_
    obtain ⟨h1, h2, -⟩ := Block.bitmapWord_mem a
    rw [ha] at h1 h2
    have hlt : Block.headerBytes < blockBytes := by decide
    have hpos := h.cover_pos hb (a := x) (by omega) (by omega)
    omega
  unit_eq := h.unit_eq
  size_lt := h.size_lt
  start_le := h.start_le
  aligned := h.aligned
  formed c hc := by
    refine (h.formed c hc).congr fun x h1 h2 => Block.read_update_of_ne f m fun hx => ?_
    obtain ⟨h3, h4, -⟩ := Block.bitmapWord_mem a
    rw [ha] at h3 h4
    have hlt : Block.headerBytes < blockBytes := by decide
    have hlt' : Block.bitmapOffset < Block.headerBytes := by decide
    have heq := h.block_inj hb hc (a := x) (by omega) (by omega) h1 (by omega)
    subst heq
    omega
  cells c hc x hx hmod hu := by
    by_cases hbc : c = b
    · subst hbc
      exact hcells x hx hmod hu
    · refine h.cells c hc x hx hmod ?_
      rw [← hu]
      refine (Block.isInUse_congr (Block.read_update_of_ne f m fun hw => hbc ?_)).symm
      obtain ⟨h1, h2⟩ := Block.bitmapWord_mem_block hx
      obtain ⟨h3, h4⟩ := Block.bitmapWord_mem_block ha
      rw [← hw] at h3 h4
      exact h.block_inj hc hb h1 h2 h3 h4

-- A change to all bits of a block that takes no cell into use.
theorem settle {b : Nat × Nat} (hb : b ∈ B) {f : Nat → Nat}
    (hf : ∀ w, ∀ p < Bitmap.granulesPerWord,
      Bitmap.isInUse (f w) p = true → Bitmap.isInUse w p = true) :
    Listed s (Block.settle f m b.2) B ∧
      (∀ size a, Used (Block.settle f m b.2) B size a ↔
        Used m B size a ∧ (blockOf a = b.2 → Block.survives f m a = true)) ∧
      ∀ x, s.contains x = false ∨ Inside B x → (Block.settle f m b.2).read x = m.read x := by
  have hlt : Block.bitmapOffset < Block.headerBytes := by decide
  have hle : Block.headerBytes < blockBytes := by decide
  have hoff : ∀ x, x < b.2 + Block.bitmapOffset ∨ b.2 + Block.headerBytes ≤ x →
      (Block.settle f m b.2).read x = m.read x := by
    intro x hx
    rw [Block.read_settle, if_neg]
    intro hmem
    obtain ⟨h1, h2, -⟩ := Block.mem_bitmap_iff.mp hmem
    omega
  have hbit : ∀ a, Block.isInUse (Block.settle f m b.2) a = true ↔
      Block.isInUse m a = true ∧ (blockOf a = b.2 → Block.survives f m a = true) := by
    intro a
    unfold Block.isInUse Block.survives
    rw [Block.read_settle_bitmapWord f m (h.aligned b hb)]
    split
    · rename_i hblock
      exact ⟨fun hu => ⟨hf _ _ (Block.place_lt a) hu, fun _ => hu⟩, fun hu => hu.2 hblock⟩
    · rename_i hblock
      exact ⟨fun hu => ⟨hu, fun h => (hblock h).elim⟩, fun hu => hu.1⟩
  refine ⟨{ h with
    space := h.space.congr fun x _ hx => hoff x (by
      by_contra hn
      have hpos := h.cover_pos hb (a := x) (by omega) (by omega)
      omega)
    formed := fun c hc => (h.formed c hc).congr fun x h1 h2 => hoff x (by
      by_contra hn
      have heq := h.block_inj hb hc (a := x) (by omega) (by omega) h1 (by omega)
      subst heq
      omega)
    cells := fun c hc x hx hmod hu => h.cells c hc x hx hmod ((hbit x).mp hu).1 }, fun size a => ?_, ?_⟩
  · constructor
    · rintro ⟨block, hmem, hcell, hu⟩
      obtain ⟨hold, hkeep⟩ := (hbit a).mp hu
      exact ⟨⟨block, hmem, hcell, hold⟩, hkeep⟩
    · rintro ⟨⟨block, hmem, hcell, hu⟩, hkeep⟩
      exact ⟨block, hmem, hcell, (hbit a).mpr ⟨hu, hkeep⟩⟩
  · rintro x (hx | ⟨c, hc, h1, h2⟩)
    · refine hoff x ?_
      by_contra hn
      rw [h.contains_of_mem hb (a := x) (by omega) (by omega)] at hx
      cases hx
    · refine hoff x ?_
      by_contra hn
      have heq := h.block_inj hb hc (a := x) (by omega) (by omega) (by omega) h2
      subst heq
      omega

-- A free cell is taken into use.
theorem setInUse {size block i : Nat} (hb : (size, block) ∈ B) (hi : i < SizeClass.perBlock size) :
    Listed s (Block.setInUse m (Block.cellAt block size i)) B ∧
      ∀ size' x, Used (Block.setInUse m (Block.cellAt block size i)) B size' x ↔
        Used m B size' x ∨ size' = size ∧ x = Block.cellAt block size i := by
  have hof := h.blockOf_cell hb hi
  have hal : Block.cellAt block size i % wordBytes = 0 :=
    cell_aligned (h.aligned _ hb) (h.size_lt _ hb)
  have hsame : ∀ x, x % wordBytes = 0 → Block.cellAt block size i / Block.granuleBytes =
      x / Block.granuleBytes → x = Block.cellAt block size i := by
    intro x hx heq
    simp only [wordBytes, Block.granuleBytes] at hal hx heq
    omega
  constructor
  · refine h.update hb hof _ fun x hx hmod hu => ?_
    have hu' : Block.isInUse (Block.setInUse m (Block.cellAt block size i)) x = true := hu
    rw [Block.isInUse_setInUse, Bool.or_eq_true, decide_eq_true_eq] at hu'
    rcases hu' with heq | hu'
    · exact ⟨i, hi, hsame x hmod heq⟩
    · exact h.cells _ hb x hx hmod hu'
  · intro size' x
    constructor
    · rintro ⟨block', hb', hcell, hu⟩
      rw [Block.isInUse_setInUse, Bool.or_eq_true, decide_eq_true_eq] at hu
      rcases hu with heq | hu
      · obtain ⟨j, hj, rfl⟩ := hcell
        have hx := hsame _ (cell_aligned (h.aligned _ hb') (h.size_lt _ hb')) heq
        refine Or.inr ⟨?_, hx⟩
        obtain ⟨h1, h2⟩ := cell_mem block hi
        obtain ⟨h3, h4⟩ := cell_mem block' hj
        obtain ⟨-, hpos, -⟩ := SizeClass.bytes_mem (h.size_lt _ hb)
        obtain ⟨-, hpos', -⟩ := SizeClass.bytes_mem (h.size_lt _ hb')
        simp only at hpos hpos'
        rw [hx] at h3 h4
        have hinj := h.block_inj hb' hb (a := Block.cellAt block size i) (by simp only; omega)
          (by simp only; omega) (by simp only; omega) (by simp only; omega)
        exact congrArg Prod.fst hinj
      · exact Or.inl ⟨block', hb', hcell, hu⟩
    · rintro (⟨block', hb', hcell, hu⟩ | ⟨rfl, rfl⟩)
      · exact ⟨block', hb', hcell, by rw [Block.isInUse_setInUse, hu, Bool.or_true]⟩
      · exact ⟨block, hb, ⟨i, hi, rfl⟩, by rw [Block.isInUse_setInUse]; simp⟩

-- A mark takes no cell into use.
theorem setMarked {size a : Nat} (ha : Used m B size a) :
    Listed s (Block.setMarked m a) B ∧
      ∀ size' x, Used (Block.setMarked m a) B size' x ↔ Used m B size' x := by
  have hb := h.block_of_used ha
  constructor
  · refine h.update hb rfl _ fun x hx hmod hu => ?_
    have hu' : Block.isInUse (Block.setMarked m a) x = true := hu
    rw [Block.isInUse_setMarked] at hu'
    exact h.cells _ hb x hx hmod hu'
  · intro size' x
    simp only [Used, Block.isInUse_setMarked]

-- A cell is given back.
theorem clear {size a : Nat} (ha : Used m B size a) :
    Listed s (Block.clear m a) B ∧
      ∀ size' x, Used (Block.clear m a) B size' x ↔ Used m B size' x ∧ x ≠ a := by
  have hb := h.block_of_used ha
  obtain ⟨-, hal, -⟩ := h.used_mem ha
  have hbit : ∀ x, x % wordBytes = 0 →
      (Block.isInUse (Block.clear m a) x = true ↔ Block.isInUse m x = true ∧ x ≠ a) := by
    intro x hx
    have hiff : a / Block.granuleBytes = x / Block.granuleBytes ↔ x = a := by
      simp only [wordBytes, Block.granuleBytes] at hal hx ⊢
      omega
    rw [Block.isInUse_clear]
    simp [hiff, and_comm]
  constructor
  · refine h.update hb rfl _ fun x hx hmod hu => ?_
    exact h.cells _ hb x hx hmod ((hbit x hmod).mp hu).1
  · intro size' x
    constructor
    · rintro ⟨block, hb', ⟨i, hi, rfl⟩, hu⟩
      obtain ⟨h1, h2⟩ := (hbit _ (cell_aligned (h.aligned _ hb') (h.size_lt _ hb'))).mp hu
      exact ⟨⟨block, hb', ⟨i, hi, rfl⟩, h1⟩, h2⟩
    · rintro ⟨⟨block, hb', ⟨i, hi, rfl⟩, hu⟩, hne⟩
      refine ⟨block, hb', ⟨i, hi, rfl⟩, ?_⟩
      exact (hbit _ (cell_aligned (h.aligned _ hb') (h.size_lt _ hb'))).mpr ⟨hu, hne⟩

-- Blocks have their pages wherever the space records them.
theorem roundPages_block : s.roundPages (max blockPages 1) = .ok blockPages := by
  unfold Space.roundPages
  rw [h.unit_eq]
  exact Word.nextMultiple_self (by decide)

end Listed

theorem runOf_congr {s s' : Space} (h : s'.mapping = s.mapping) (block : Nat) :
    runOf s' block = runOf s block := by
  rw [runOf, (Space.range_congr h).1, runOf]

-- What a space that had handed out the blocks of `B` is when it has handed out one more.
structure Granted (s : Space) (m : Memory) (B : List (Nat × Nat)) (block : Nat) (s' : Space) :
    Prop where
  sound : s'.Sound (runOf s block :: B.map fun b => runOf s b.2) m
  mapping_eq : s'.mapping = s.mapping
  unit_eq : s'.unit = s.unit
  name_eq : s'.name = s.name
  aligned : block % blockBytes = 0
  start_le : s.start ≤ block
  end_le : block + blockBytes ≤ s.stop
  apart : ∀ b ∈ B, ∀ x, b.2 ≤ x → x < b.2 + blockBytes → x < block ∨ block + blockBytes ≤ x
  blank : ∀ x, block ≤ x → x < block + blockBytes → m.read x = 0

namespace Listed

variable {s : Space} {m : Memory} {B : List (Nat × Nat)} (h : Listed s m B)
include h

-- The pages of a block were not handed out before, so they are blank and in no other block.
theorem granted {s' : Space} {block : Nat} (hacquire : s.acquire blockPages = .ok (block, s'))
    (hroom : blockBytes + s.extent < Word.bound) : Granted s m B block s' := by
  have hround := h.roundPages_block
  obtain ⟨r, hpages, hblock, hs', hmapping, hunit, hname⟩ := h.space.acquire hacquire (by
    rw [hround]
    rintro rounded hr
    cases hr
    exact hroom)
  rw [hround] at hpages
  have hrp : r.pages = blockPages := (Except.ok.inj hpages).symm
  obtain ⟨hstart, -, hstop⟩ := Space.range_congr hmapping
  have hr : runOf s block = r := by
    rw [runOf, hblock, Nat.add_sub_cancel_left, Nat.mul_div_cancel_left _ (by decide), ← hrp]
  have hlen : s.start + pageBytes * r.stop = block + blockBytes := by
    rw [Run.stop, hrp, Nat.mul_add, ← Nat.add_assoc, ← hblock]
    rfl
  have hend : block + blockBytes ≤ s.stop := by
    have hle := hs'.run_le List.mem_cons_self
    rwa [hstart, hstop, hlen] at hle
  have hstart_le : s.start ≤ block := hblock ▸ Nat.le_add_right _ _
  have hfresh : ∀ x, block ≤ x → x < block + blockBytes →
      Run.cover (B.map fun b => runOf s b.2) (s.page x) = 0 := by
    intro x h1 h2
    have hle := hs'.cover_le (s.page x)
    have hin := Space.page_of_run (s := s) (r := r) (hblock ▸ h1) (hlen ▸ h2)
    rw [Run.cover_cons, if_pos hin] at hle
    split_ifs at hle <;> omega
  refine ⟨hr ▸ hs', hmapping, hunit, hname, ?aligned, hstart_le, hend, fun b hb x h1 h2 => ?apart,
    fun x h1 h2 => h.space.blank x ((Space.contains_iff s x).mpr (by omega)) (hfresh x h1 h2)⟩
  case aligned =>
    have hd := (hs'.runs r (Or.inr List.mem_cons_self)).first_dvd
    rw [hunit, h.unit_eq] at hd
    rw [hblock]
    exact Nat.mod_eq_zero_of_dvd (Nat.dvd_add h.space.start_dvd (Nat.mul_dvd_mul_left pageBytes hd))
  case apart =>
    by_contra hn
    have hz := hfresh x (by omega) (by omega)
    have hp := h.cover_pos hb h1 h2
    omega

section Format

variable {s' : Space} {block : Nat} (hg : Granted s m B block s') {size : Nat}
include hg

omit h in
theorem read_format {b : Nat × Nat} (hb : b ∈ B) {x : Nat} (h1 : b.2 ≤ x)
    (h2 : x < b.2 + blockBytes) : (Block.format m block size).read x = m.read x := by
  have hapart := hg.apart b hb x h1 h2
  have hlt : Block.bitmapOffset < Block.headerBytes := by decide
  have hle : Block.headerBytes < blockBytes := by decide
  exact Block.read_format_of_ge m (by omega)

omit h in
theorem isInUse_format {b : Nat × Nat} (hb : b ∈ B) {x : Nat} (hx : blockOf x = b.2) :
    Block.isInUse (Block.format m block size) x = Block.isInUse m x :=
  Block.isInUse_of_block hx fun _ h1 h2 => read_format hg hb h1 h2

omit h in
theorem isInUse_fresh {x : Nat} (hx : blockOf x = block) :
    Block.isInUse (Block.format m block size) x = false := by
  have hmem := Block.bitmapWord_mem_block hx
  have hw : (Block.format m block size).read (Block.bitmapWord x) = 0 := by
    rw [Block.read_format_of_ge m (Or.inr (hx ▸ (Block.bitmapWord_mem x).1))]
    exact hg.blank _ hmem.1 hmem.2
  simp only [Block.isInUse, Bitmap.isInUse, hw, Nat.zero_testBit]

theorem format (hsize : size < SizeClass.count) :
    Listed s' (Block.format m block size) ((size, block) :: B) where
  space := by
    have hout : (((size, block) :: B).map fun b => runOf s' b.2) =
        runOf s block :: B.map fun b => runOf s b.2 := by
      simp only [List.map_cons, runOf_congr hg.mapping_eq]
    rw [hout]
    refine hg.sound.congr fun x hx hc => Block.read_format_of_ge m ?_
    by_contra hn
    have hlt : Block.bitmapOffset < blockBytes := by decide
    have hpos : 0 < Run.cover (runOf s block :: B.map fun b => runOf s b.2) (s'.page x) := by
      have haligned := hg.aligned
      have hdvd := Nat.mod_eq_zero_of_dvd h.space.start_dvd
      have hstart := hg.start_le
      refine Space.cover_of_run List.mem_cons_self ?_ ?_ <;>
      · rw [(Space.range_congr hg.mapping_eq).1]
        simp only [runOf, Run.stop, pageBytes, blockPages, blockBytes] at *
        omega
    omega
  unit_eq := hg.unit_eq.trans h.unit_eq
  size_lt := List.forall_mem_cons.mpr ⟨hsize, h.size_lt⟩
  start_le := by
    rw [(Space.range_congr hg.mapping_eq).1]
    exact List.forall_mem_cons.mpr ⟨hg.start_le, h.start_le⟩
  aligned := List.forall_mem_cons.mpr ⟨hg.aligned, h.aligned⟩
  formed := by
    refine List.forall_mem_cons.mpr ⟨Block.formed_format m block size, fun b hb => ?_⟩
    have hlt : Block.bitmapOffset < blockBytes := by decide
    exact (h.formed b hb).congr fun x h1 h2 => read_format hg hb h1 (by omega)
  cells := by
    refine List.forall_mem_cons.mpr ⟨fun x hx _ hu => ?_, fun b hb x hx hmod hu => ?_⟩
    · rw [isInUse_fresh hg hx] at hu
      cases hu
    · rw [isInUse_format hg hb hx] at hu
      exact h.cells b hb x hx hmod hu

end Format

-- A fresh block has no cell in use.
theorem add {s' : Space} {block size : Nat} (hsize : size < SizeClass.count)
    (hacquire : s.acquire blockPages = .ok (block, s'))
    (hroom : blockBytes + s.extent < Word.bound) :
    Listed s' (Block.format m block size) ((size, block) :: B) ∧
      (∀ size' x, Used (Block.format m block size) ((size, block) :: B) size' x ↔
        Used m B size' x) ∧
      s'.mapping = s.mapping ∧ s'.name = s.name ∧
      ∀ x, s.contains x = false ∨ Inside B x → (Block.format m block size).read x = m.read x := by
  have hg := h.granted hacquire hroom
  refine ⟨h.format hg hsize, fun size' x => ?_, hg.mapping_eq, hg.name_eq, ?_⟩
  · exact (used_cons hsize hg.aligned fun x hx => isInUse_fresh hg hx).trans
      (h.used_of_bits fun b hb x hx => isInUse_format hg hb hx)
  · rintro x (hx | ⟨b, hb, h1, h2⟩)
    · refine Block.read_format_of_ge m ?_
      by_contra hn
      have hstart := hg.start_le
      have hend := hg.end_le
      have hlt : Block.bitmapOffset < blockBytes := by decide
      rw [(Space.contains_iff s x).mpr (by omega)] at hx
      cases hx
    · exact read_format hg hb (by omega) h2

-- A block without cells in use is given back.
theorem remove {b : Nat × Nat} {rest : List (Nat × Nat)} (hp : B.Perm (b :: rest))
    (hunused : ∀ a, blockOf a = b.2 → Block.isInUse m a = false) :
    ∃ s' m', s.release m b.2 blockPages = .ok (s', m') ∧ Listed s' m' rest ∧
      (∀ size x, Used m' rest size x ↔ Used m B size x) ∧
      s'.mapping = s.mapping ∧ s'.name = s.name ∧
      ∀ x, x < b.2 ∨ b.2 + blockBytes ≤ x → m'.read x = m.read x := by
  have hall := h.perm hp
  obtain ⟨hfirst, hstop⟩ := hall.run_first List.mem_cons_self
  have hround : s.roundPages (max blockPages 1) = .ok (runOf s b.2).pages := h.roundPages_block
  obtain ⟨s', m', hrelease, hs', hmapping, hunit, hname, -, -, -, hread⟩ :=
    h.space.release (hp.map fun b => runOf s b.2) hround
  rw [hfirst] at hrelease hread
  rw [hstop] at hread
  have hoff : ∀ x, x < b.2 ∨ b.2 + blockBytes ≤ x → m'.read x = m.read x := fun x hx => by
    rw [hread, if_neg (by omega)]
  have hne : b ∉ rest := (List.nodup_cons.mp (List.Nodup.of_map _ hall.space.nodup)).1
  have hkeep : ∀ c ∈ rest, ∀ x, c.2 ≤ x → x < c.2 + blockBytes → m'.read x = m.read x := by
    intro c hc x h1 h2
    refine hoff x ?_
    by_contra hn
    have heq := hall.block_inj (List.mem_cons_of_mem _ hc) List.mem_cons_self h1 h2 (by omega) (by omega)
    exact hne (heq ▸ hc)
  have hbits : ∀ c ∈ rest, ∀ x, blockOf x = c.2 → Block.isInUse m' x = Block.isInUse m x :=
    fun c hc x hx => Block.isInUse_of_block hx (hkeep c hc)
  have hlisted : Listed s' m' rest := {
    space := by
      simp only [runOf_congr hmapping]
      exact hs'
    unit_eq := hunit.trans h.unit_eq
    size_lt := fun c hc => hall.size_lt c (List.mem_cons_of_mem _ hc)
    start_le := by
      rw [(Space.range_congr hmapping).1]
      exact fun c hc => hall.start_le c (List.mem_cons_of_mem _ hc)
    aligned := fun c hc => hall.aligned c (List.mem_cons_of_mem _ hc)
    formed := fun c hc => by
      have hlt : Block.bitmapOffset < blockBytes := by decide
      exact (hall.formed c (List.mem_cons_of_mem _ hc)).congr fun x h1 h2 => hkeep c hc x h1 (by omega)
    cells := fun c hc x hx hmod hu => by
      rw [hbits c hc x hx] at hu
      exact hall.cells c (List.mem_cons_of_mem _ hc) x hx hmod hu }
  refine ⟨s', m', hrelease, hlisted, fun size x => ?_, hmapping, hname, hoff⟩
  calc Used m' rest size x
      ↔ Used m rest size x := (hlisted.used_of_bits fun c hc x hx => (hbits c hc x hx).symm).symm
    _ ↔ Used m (b :: rest) size x := (used_cons (hall.size_lt b List.mem_cons_self)
        (hall.aligned b List.mem_cons_self) hunused).symm
    _ ↔ Used m B size x := (used_perm hp).symm

end Listed

end Reclaim.Cells
